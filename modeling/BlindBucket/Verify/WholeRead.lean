import Mathlib.Data.List.Forall2
import BlindBucket.Stream.RoundTrip
import BlindBucket.Verify.SegmentChain

/-!
# Whole reads of multipart objects

What it takes for a chain over hostile bytes to be right when it says `EOF`. The chain
demands the number and the salt of every part, and bounds each part from above; that the
last part has the size in the manifest is checked by nothing. `whole_read_sound_iff`
says that this is the only way in which a whole read can go wrong.
-/

namespace BlindBucket

open ByteIo BlindBucket.Stream Blocks List Option

variable {σ : Type} [ByteReader σ GoErr] [LawfulReader σ] {K : Crypto} {dek : Bytes}
  {S : Set Transcript} {log2C : Nat} {parts : List Part} {l : Layout}

/-! ## Reading what was stored -/

/-- The object that these runs produced. -/
def outputs (K : Crypto) (dek : Bytes) (ts : List Transcript) : Bytes :=
  (ts.map (Transcript.output K dek)).flatten

/-- Finished runs that the manifest names, part by part. All but the last have the size it gives,
and the last one is no longer. -/
structure Fitting (S : Set Transcript) (log2C : Nat) (parts : List Part) (ts : List Transcript) : Prop where
  names : List.Forall₂ (fun p t => t ∈ S ∧ t.Complete ∧ p.Names log2C t) parts ts
  exact_size : ∀ (i : Nat) (p : Part) (t : Transcript), i + 1 < parts.length →
    parts[i]? = some p → ts[i]? = some t → t.plain.length = p.plainSize.toNat
  last_size : ∀ (i : Nat) (p : Part) (t : Transcript), parts[i]? = some p → ts[i]? = some t →
    t.plain.length ≤ p.plainSize.toNat

variable {ts : List Transcript}

variable {i : Nat} {p : Part} {t : Transcript} {src : σ}

theorem Fitting.at (h : Fitting S log2C parts ts) (hi : i < parts.length) :
    ∃ p t, parts[i]? = some p ∧ ts[i]? = some t ∧ t ∈ S ∧ t.Complete ∧ p.Names log2C t := by
  have hlen := h.names.length_eq
  refine ⟨parts[i], ts[i], getElem?_eq_getElem hi, getElem?_eq_getElem (by omega), ?_⟩
  exact h.names.get hi (by omega)

theorem Fitting.cut (h : Fitting S log2C parts ts) (hp : parts[i]? = some p) (ht : ts[i]? = some t) (hc : t.Complete)
    (hn : p.Names log2C t) :
    (outputs K dek (ts.drop i)).take (sealedLen log2C p.plainSize.toNat) = t.output K dek
      ∧ (outputs K dek (ts.drop i)).drop (sealedLen log2C p.plainSize.toNat)
        = outputs K dek (ts.drop (i + 1)) := by
  have hlen := h.names.length_eq
  obtain ⟨hi, rfl⟩ := List.getElem?_eq_some_iff.mp ht
  have hsplit : outputs K dek (ts.drop i) = ts[i].output K dek ++ outputs K dek (ts.drop (i + 1)) := by
    unfold outputs
    rw [drop_eq_getElem_cons hi, map_cons, flatten_cons]
  have hout := hn.output_length K dek hc
  rw [hsplit]
  by_cases hmore : i + 1 < parts.length
  · rw [h.exact_size i p _ hmore hp ht] at hout
    exact ⟨take_left' hout, drop_left' hout⟩
  · -- nothing follows the last part
    have hnil : outputs K dek (ts.drop (i + 1)) = [] := by
      rw [drop_of_length_le (by omega)]
      rfl
    have hle : (ts[i].output K dek).length ≤ sealedLen log2C p.plainSize.toNat := by
      rw [hout]
      rcases Nat.lt_or_ge ts[i].plain.length p.plainSize.toNat with hlt | hge
      · exact Nat.le_of_lt (sealedLen_strictMono log2C hlt)
      · rw [Nat.le_antisymm (h.last_size i p _ hp ht) hge]
    rw [hnil, append_nil]
    exact ⟨take_of_length_le hle, drop_of_length_le hle⟩

theorem openSegment_stored (hdek : dek.length = keySize) (hl : l = layoutOf parts log2C true) (hp : parts[i]? = some p)
    (hc : t.Complete) (hn : p.Names log2C t)
    (htake : (content src).take (sealedLen log2C p.plainSize.toNat) = t.output K dek) (hends : EndsInEof src) :
    ∃ r, openSegment K dek l i src = .ok r ∧ r.plain = [] ∧ Honest K dek t.header t.plain r t.plain
      ∧ ∃ B, Traced K dek t (⟨src, sealedLen log2C p.plainSize.toNat⟩ : LimitReader σ) B r t.plain := by
  subst hl
  have hcont : content (⟨src, sealedLen log2C p.plainSize.toNat⟩ : LimitReader σ)
      = segmentBytes K dek t.header t.plain := by
    rw [← hc.output_eq]
    exact htake
  have hparams : t.header.params.Meets ⟨log2C, true, p.number⟩ := by
    rw [hn.params]
    exact ⟨Or.inr rfl, rfl, rfl⟩
  have hwant : (⟨log2C, true, p.number⟩ : SegmentParams).validateExpectation = .ok () := by
    rw [← hn.params]
    exact t.header.valid.expectation
  obtain ⟨r, hnew, hplain, hh⟩ := decrypt_open hcont (EndsInEof.limit hends) hwant hparams hdek
  have ho := newDecryptReader_ok hnew
  refine ⟨r, ?_, hplain, hh, _, ho.traced hh.header.symm⟩
  unfold openSegment
  rw [entry_layoutOf hp]
  dsimp only
  rw [Int.toNat_natCast, show (layoutOf parts log2C true).log2C = log2C from rfl, hnew, ok_bind]
  unfold Layout.checkSalt
  rw [entry_layoutOf hp, hh.header, hn.salt, if_neg (by simp [layoutOf]), if_neg (by simp)]
  rfl

/-- A decoder within part `i` of a stored object. -/
def StoredInv (K : Crypto) (dek : Bytes) (log2C : Nat) (parts : List Part)
    (ts : List Transcript) (i : Nat) (r : DecryptReader (LimitReader σ)) (data : Bytes) : Prop :=
  ∃ q : Part × Transcript × σ × Bytes,
    (parts[i]? = some q.1 ∧ ts[i]? = some q.2.1
      ∧ content q.2.2.1 = outputs K dek (ts.drop i) ∧ EndsInEof q.2.2.1)
    ∧ (∃ tail, data = r.plain ++ tail ∧ Honest K dek q.2.1.header q.2.1.plain r tail)
    ∧ ∃ tail, data = r.plain ++ tail
      ∧ Traced K dek q.2.1 (⟨q.2.2.1, sealedLen log2C q.1.plainSize.toNat⟩ : LimitReader σ) q.2.2.2 r tail

/-- At the end of a part the next one is before the source. -/
def StoredFin (K : Crypto) (dek : Bytes) (ts : List Transcript) (i : Nat)
    (r : DecryptReader (LimitReader σ)) (e : Error) (rest : Bytes) : Prop :=
  e = .eof ∧ rest = [] ∧ content r.src.rd.src = outputs K dek (ts.drop (i + 1))
    ∧ EndsInEof r.src.rd.src

theorem stored_release (hs : Secure K dek S) (h : Fitting S log2C parts ts) (hi : i < parts.length) :
    ReleaseInv (StoredInv (σ := σ) K dek log2C parts ts i) (StoredFin K dek ts i) := by
  obtain ⟨p, t, hp, ht, hmem, hc, hn⟩ := h.at hi
  have hrel : ReleaseInv (StoredInv K dek log2C parts ts i) (fun r e rest =>
      ∃ q : Part × Transcript × σ × Bytes,
        (parts[i]? = some q.1 ∧ ts[i]? = some q.2.1
          ∧ content q.2.2.1 = outputs K dek (ts.drop i) ∧ EndsInEof q.2.2.1)
        ∧ (e = .eof ∧ rest = [])
        ∧ Stopped K dek q.2.1 (⟨q.2.2.1, sealedLen log2C q.1.plainSize.toNat⟩ : LimitReader σ) q.2.2.2 r e rest) := by
    refine ReleaseInv.param fun q hq => ?_
    obtain rfl := some.inj (ht.symm.trans hq.2.1)
    exact ReleaseInv.and (honest_release (hs.opens_segment hmem hc))
      (traced_release hs hmem _ q.2.2.2)
  refine hrel.mono ?_
  rintro r e rest ⟨⟨p', t', src, B⟩, ⟨hp', ht', hsrc, hends⟩, ⟨he, hrest⟩, hstop⟩
  obtain rfl := some.inj (hp.symm.trans hp')
  obtain ⟨_, _, _, hnil, hsteps⟩ := hstop he
  refine ⟨he, hrest, ?_, hends.limit_steps hsteps⟩
  rw [LimitReader.content_src_of_nil (append_eq_nil_iff.mp hnil).2,
    LimitReader.beyond_steps hsteps]
  show (content src).drop _ = _
  rw [hsrc]
  exact (h.cut hp ht hc hn).2

def plainsFrom (ts : List Transcript) (i : Nat) : Bytes :=
  ((ts.drop i).map Transcript.plain).flatten

/-- **A stored object reads back.** -/
theorem chain_stored (hs : Secure K dek S) (hdek : dek.length = keySize) (hne : parts ≠ [])
    (hl : l = layoutOf parts log2C true) (h : Fitting S log2C parts ts) (hsrc : content src = outputs K dek ts)
    (hends : EndsInEof src) :
    ∃ c, newSegmentChain K src dek l = .ok c ∧ ∃ ks, (readMany c ks).err = some .eof
      ∧ (readMany c ks).out = (ts.map Transcript.plain).flatten := by
  have hlen := h.names.length_eq
  have hcount : (segmentPieces (σ := σ) K dek l).count = parts.length := by
    rw [hl]
    exact layoutOf_length
  -- opening part `i` where the source stands before it
  have hopen : ∀ i, i < parts.length → ∀ s : σ, content s = outputs K dek (ts.drop i) →
      EndsInEof s → ∃ r t, openSegment K dek l i s = .ok r ∧ ts[i]? = some t
        ∧ StoredInv K dek log2C parts ts i r t.plain := by
    intro i hi s hcont hs'
    obtain ⟨p, t, hp, ht, hmem, hc, hn⟩ := h.at hi
    obtain ⟨r, hr, hplain, hh, B, htr⟩ := openSegment_stored hdek hl hp hc hn
      (by rw [hcont]; exact (h.cut hp ht hc hn).1) hs'
    exact ⟨r, t, hr, ht, (p, t, s, B), ⟨hp, ht, hcont, hs'⟩,
      ⟨t.plain, by rw [hplain]; rfl, hh⟩, t.plain, by rw [hplain]; rfl, htr⟩
  have hcons : ∀ i t, ts[i]? = some t → plainsFrom ts i = t.plain ++ plainsFrom ts (i + 1) := by
    intro i t ht
    obtain ⟨hi, rfl⟩ := List.getElem?_eq_some_iff.mp ht
    unfold plainsFrom
    rw [drop_eq_getElem_cons hi, map_cons, flatten_cons]
  have hrel : ReleaseInv (Chain.At (segmentPieces (σ := σ) K dek l) (StoredInv K dek log2C parts ts)
      (plainsFrom ts)) (fun _ e rest => e = .eof ∧ rest = []) := by
    apply Chain.releaseInv (D := fun i => ((ts[i]?).map Transcript.plain).getD [])
      (fun _ e rest => e = .eof ∧ rest = []) DecryptReader.filler_reads.tidy
      (fun i hi => stored_release hs h (by rw [← hcount]; exact hi))
    · intro i hi
      rw [hcount] at hi
      obtain ⟨_, t, _, ht, _⟩ := h.at hi
      rw [hcons i t ht, ht]
      rfl
    · unfold plainsFrom
      rw [drop_of_length_le (by omega)]
      rfl
    · rintro i r rest _ ⟨he, hrest, _⟩
      exact ⟨he, hrest⟩
    · rintro i r rest hi ⟨_, hrest, hnext, hends'⟩
      rw [hcount] at hi
      obtain ⟨r', t, hr', ht, hinv⟩ := hopen (i + 1) hi _ hnext hends'
      refine ⟨hrest, ?_⟩
      rw [show (segmentPieces K dek l).openNext (i + 1) r = .ok r' from hr', ht]
      exact hinv
    · rintro i r e rest _ hne ⟨he, _⟩
      exact absurd he hne
  have hpos : 0 < parts.length := length_pos_iff.mpr hne
  obtain ⟨r, t, hr, ht, hinv⟩ := hopen 0 hpos src hsrc hends
  have hat : Chain.At (segmentPieces K dek l) (StoredInv K dek log2C parts ts)
      (plainsFrom ts) ⟨segmentPieces K dek l, 0, r, none⟩ (plainsFrom ts 0) :=
    ⟨rfl, rfl, by rw [hcount]; exact hpos, t.plain, hcons 0 t ht, hinv⟩
  obtain ⟨ks, e, rest, herr, hdata, rfl, rfl⟩ :=
    hrel.to_end (Chain.progress DecryptReader.filler_reads.progress) hat
  rw [append_nil] at hdata
  refine ⟨⟨segmentPieces K dek l, 0, r, none⟩, ?_, ks, herr, hdata.symm⟩
  unfold newSegmentChain
  rw [hr]
  rfl

/-! ## Reading whatever is served -/

/-- A chain that `NewSegmentChain` answered, before or after `VerifyFirst`. -/
def ChainOpened (K : Crypto) (dek : Bytes) (l : Layout) (src : σ) (c : SegmentChain σ) : Prop :=
  newSegmentChain K src dek l = .ok c
    ∨ ∃ c₀, newSegmentChain K src dek l = .ok c₀ ∧ c₀.verifyFirst = (none, c)

theorem ChainOpened.at (hs : Secure K dek S) (hlog : ValidLog2 log2C) (hne : parts ≠ [])
    (hl : l = layoutOf parts log2C true) {c : SegmentChain σ} (h : ChainOpened K dek l src c) :
    Chain.At (segmentPieces K dek l) (ChainInv K dek S log2C parts) (contentsFrom S log2C parts) c
      (contentsFrom S log2C parts 0) := by
  have hpos : 0 < parts.length := length_pos_iff.mpr hne
  have hcount : (segmentPieces (σ := σ) K dek l).count = parts.length := by
    rw [hl]
    exact layoutOf_length
  obtain ⟨p, hp⟩ : ∃ p, parts[0]? = some p := ⟨_, getElem?_eq_getElem hpos⟩
  -- the chain as it was opened
  have hnew : ∀ c₀ : SegmentChain σ, newSegmentChain K src dek l = .ok c₀ →
      c₀.cur.plain = [] ∧ c₀.pieces = segmentPieces K dek l ∧ c₀.idx = 0 ∧ c₀.err = none
        ∧ SegmentInv K dek S log2C (sealedLen log2C p.plainSize.toNat) p c₀.cur
          (p.contentOf S log2C) := by
    intro c₀ hc₀
    obtain ⟨r, hr, hc₀⟩ := bind_ok hc₀
    cases hc₀
    refine ⟨?_, rfl, rfl, rfl, (openSegment_ok hs hlog hl hp hr).1⟩
    obtain ⟨r', hr', hr⟩ := bind_ok hr
    obtain ⟨_, _, hr⟩ := bind_ok hr
    obtain rfl := Except.ok.inj hr
    have ho := newDecryptReader_ok hr'
    rw [ho.fresh]
  have hbefore : StoredBefore S log2C parts 0 := fun j _ hj => absurd hj (Nat.not_lt_zero j)
  rcases h with h | ⟨c₀, h₀, hv⟩
  · obtain ⟨_, hpieces, hidx, herr, hinv⟩ := hnew c h
    refine ⟨hpieces, herr, by rw [hidx, hcount]; exact hpos, p.contentOf S log2C, ?_, ?_⟩
    · rw [hidx]
      exact contentsFrom_cons hp
    · rw [hidx]
      exact ⟨p, ⟨hp, hbefore⟩, hinv⟩
  · obtain ⟨hfresh, hpieces, hidx, herr, hinv⟩ := hnew c₀ h₀
    obtain ⟨hnone, rfl⟩ := Prod.mk.inj hv
    have hinv' := hinv.verifyFirst hs hfresh (Prod.ext hnone rfl)
    refine ⟨hpieces, herr, by show c₀.idx < _; rw [hidx, hcount]; exact hpos,
      p.contentOf S log2C, ?_, ?_⟩
    · rw [hidx]
      exact contentsFrom_cons hp
    · rw [hidx]
      exact ⟨p, ⟨hp, hbefore⟩, hinv'⟩

/-- **Whole reads of the object that a manifest describes.** Whatever is served, only a prefix of
what the named attempts encrypted is released, and `EOF` means that it is the concatenation of the
finished segments with the numbers, the sizes and the salts in the manifest. -/
def WholeReadSound (K : Crypto) (dek : Bytes) (S : Set Transcript) (log2C : Nat)
    (parts : List Part) (l : Layout) : Prop :=
  ∀ (σ : Type) [ByteReader σ GoErr] [LawfulReader σ] (src : σ) (c : SegmentChain σ),
    ChainOpened K dek l src c → ∀ ks : List Nat,
      (readMany c ks).out <+: contentsFrom S log2C parts 0
      ∧ ((readMany c ks).err = some .eof → ∃ ts, List.Forall₂ (Part.Stored S log2C) parts ts
          ∧ (readMany c ks).out = (ts.map Transcript.plain).flatten)

/-- The manifest promises more of its last part than the named attempt holds, and describes all the
parts before rightly. -/
def LastTooLong (S : Set Transcript) (log2C : Nat) (parts : List Part) : Prop :=
  ∃ ps p t, parts = ps ++ [p] ∧ (∀ q ∈ ps, ∃ u, q.Stored S log2C u) ∧ t ∈ S ∧ t.Complete
    ∧ p.Names log2C t ∧ (t.plain.length : Int) < p.plainSize

theorem exists_stored (hs : Secure K dek S) (h : ∀ p ∈ parts, ∃ t, p.Stored S log2C t) :
    ∃ ts, Forall₂ (Part.Stored S log2C) parts ts
      ∧ contentsFrom S log2C parts 0 = (ts.map Transcript.plain).flatten := by
  induction parts with
  | nil => exact ⟨[], .nil, rfl⟩
  | cons p ps ih =>
    obtain ⟨ts, hts, hcont⟩ := ih (fun q hq => h q (mem_cons_of_mem p hq))
    obtain ⟨t, ht⟩ := h p mem_cons_self
    refine ⟨t :: ts, .cons ht hts, ?_⟩
    rw [contentsFrom_cons rfl, Part.contentOf_eq hs ht.mem ht.names]
    show _ ++ contentsFrom S log2C ps 0 = _
    rw [hcont]
    rfl

theorem stored_of_mem (h : Forall₂ (Part.Stored S log2C) parts ts) (hp : p ∈ parts) : ∃ t, p.Stored S log2C t := by
  induction h with
  | nil => simp at hp
  | cons hqt _ ih =>
    rcases mem_cons.mp hp with rfl | hp
    · exact ⟨_, hqt⟩
    · exact ih hp

theorem Fitting.of_last {ps : List Part} {us : List Transcript} (hus : Forall₂ (Part.Stored S log2C) ps us)
    (ht : t ∈ S) (hc : t.Complete) (hn : p.Names log2C t) (hle : t.plain.length ≤ p.plainSize.toNat) :
    Fitting S log2C (ps ++ [p]) (us ++ [t]) := by
  have hlen := hus.length_eq
  have hsize : ∀ (i : Nat) (q : Part) (u : Transcript), i < ps.length → (ps ++ [p])[i]? = some q →
      (us ++ [t])[i]? = some u → u.plain.length = q.plainSize.toNat := by
    intro i q u hi hq hu
    rw [getElem?_append_left hi] at hq
    rw [getElem?_append_left (by omega)] at hu
    obtain ⟨_, rfl⟩ := List.getElem?_eq_some_iff.mp hq
    obtain ⟨_, rfl⟩ := List.getElem?_eq_some_iff.mp hu
    have hst := hus.get hi (by omega)
    show _ = (ps.get ⟨i, hi⟩).plainSize.toNat
    rw [hst.size]
    rfl
  refine ⟨?_, ?_, ?_⟩
  · refine rel_append (hus.imp fun q u h => ⟨h.mem, h.complete, h.names⟩) ?_
    exact .cons ⟨ht, hc, hn⟩ .nil
  · intro i q u hi hq hu
    rw [length_append, length_singleton] at hi
    exact hsize i q u (by omega) hq hu
  · intro i q u hq hu
    by_cases hi : i < ps.length
    · exact Nat.le_of_eq (hsize i q u hi hq hu)
    · obtain ⟨hi', _⟩ := List.getElem?_eq_some_iff.mp hq
      rw [length_append, length_singleton] at hi'
      obtain rfl : i = ps.length := by omega
      rw [getElem?_concat_length] at hq
      rw [hlen, getElem?_concat_length] at hu
      rw [← some.inj hq, ← some.inj hu]
      exact hle

/--
**Whole reads of multipart objects.** Let a manifest with salts verify, and let the announced size
pass `CheckAgainst`. Whole reads are sound against everything that may be served if and only if the
manifest does not promise more of its last part than the attempt it names holds. Of any other part
the next header is missed; after the last one the chain stops at the end of the body, and nothing
compares what came with the size in the manifest.
-/
theorem whole_read_sound_iff {H : Hmac} {raw bucket key : Bytes} {id : Manifest.ID}
    {m : Manifest} (announced : Int) (hs : Secure K dek S)
    (hm : Manifest.unmarshal K H raw dek bucket key id = .ok m) (hsalts : m.legacy = false)
    (hl : newLayout m.parts log2C m.hasSalts = .ok l) (_ : l.checkAgainst announced = .ok ()) :
    WholeReadSound K dek S log2C m.parts l ↔ ¬ LastTooLong S log2C m.parts := by
  have hdek := (Manifest.unmarshal_ok hm).2.1
  obtain ⟨hne, hlog, hsized, hlay⟩ := newLayout_ok_iff.mp hl
  rw [show m.hasSalts = true by rw [Manifest.hasSalts, hsalts]; rfl] at hlay
  constructor
  · intro hall ⟨ps, p, t, hparts, hps, ht, hc, hn, hlt⟩
    obtain ⟨us, hus, _⟩ := exists_stored hs hps
    -- the attempts as they were stored, with nothing behind them
    have hfit : Fitting S log2C m.parts (us ++ [t]) := by
      rw [hparts]
      exact Fitting.of_last hus ht hc hn (by omega)
    have hsrc : content (⟨outputs K dek (us ++ [t]), .eof⟩ : BytesReader GoErr) = outputs K dek (us ++ [t]) := rfl
    obtain ⟨c, hnew, ks, heof, _⟩ := chain_stored hs hdek hne hlay hfit hsrc (fun e he => he)
    obtain ⟨ts, hts, _⟩ := (hall _ _ c (Or.inl hnew) ks).2 heof
    -- the last part has no segment of the size in the manifest
    obtain ⟨u, hu⟩ := stored_of_mem hts (show p ∈ m.parts by rw [hparts]; simp)
    have hsame := hs.distinct u hu.mem t ht (hu.names.salt.trans hn.salt.symm)
    rw [hu.size, hsame] at hlt
    exact absurd hlt (Int.lt_irrefl _)
  · intro hgood σ _ _ src c hc ks
    have hrel := chain_release (σ := σ) hs hlog hsized hlay
    obtain ⟨rest, hdata, hrun⟩ := hrel.readMany ks (hc.at hs hlog hne hlay)
    refine ⟨⟨rest, hdata.symm⟩, ?_⟩
    intro heof
    rw [heof] at hrun
    obtain ⟨rfl, hbefore, p, t, hp, ht, hcomplete, hn, hle⟩ := hrun rfl
    obtain ⟨ps, hparts⟩ : ∃ ps, m.parts = ps ++ [p] := by
      rw [← getLast?_eq_some_iff, getLast?_eq_getElem?]
      exact hp
    have hps : ∀ q ∈ ps, ∃ u, q.Stored S log2C u := by
      intro q hq
      obtain ⟨j, hj, rfl⟩ := getElem_of_mem hq
      refine hbefore j _ ?_ ?_
      · rw [hparts, length_append, length_singleton]
        omega
      · rw [hparts, getElem?_append_left hj]
        exact getElem?_eq_getElem hj
    have hsize : p.plainSize = t.plain.length := by
      have hcast := (hsized p (mem_of_getElem? hp)).toNat.1
      by_contra hne'
      exact hgood ⟨ps, p, t, hparts, hps, ht, hcomplete, hn, by omega⟩
    have hall : ∀ q ∈ m.parts, ∃ u, q.Stored S log2C u := by
      intro q hq
      rw [hparts] at hq
      rcases mem_append.mp hq with hq | hq
      · exact hps q hq
      · rw [mem_singleton.mp hq]
        exact ⟨t, ht, hcomplete, hn, hsize⟩
    obtain ⟨ts, hts, hcont⟩ := exists_stored hs hall
    refine ⟨ts, hts, ?_⟩
    rw [← hcont, hdata, append_nil]

/-- A data key, a MAC, and part 1 of an upload: three bytes. -/
def partKey : Bytes := replicate keySize 7

def zeroHmac : Hmac :=
  ⟨fun _ _ => replicate Manifest.macSize 0, Manifest.length_zeroMac⟩

def abcPart : Transcript :=
  Transcript.finished (Header.make ⟨12, true, 1⟩ zeroSalt firstPart_valid) [97, 98, 99] Transcript.abc_fits

/-- Primitives that open this part and nothing else. -/
def partCrypto : Crypto := tableCrypto (fun _ _ _ n => replicate n 0) partKey [abcPart]

theorem partCrypto_secure : Secure partCrypto partKey {abcPart} := secure_tableCrypto_one ..

/-- The manifest of an object with that part, which it says to have `n` bytes. -/
def partManifest (n : Int) : Manifest where
  bucket := []
  key := []
  id := ⟨replicate Manifest.idSize 0, Manifest.length_zeroId⟩
  parts := [⟨1, n, zeroSalt⟩]

theorem partManifest_unmarshal {n : Int} (h0 : 0 ≤ n) (h1 : n ≤ maxPlaintextSize) :
    ∃ raw, Manifest.unmarshal partCrypto zeroHmac raw partKey [] [] (partManifest n).id
      = .ok (partManifest n) := by
  have hval : (partManifest n).validate = .ok () := by
    have hsize : ¬ (n < 0 ∨ (maxPlaintextSize : Int) < n) := by omega
    simp [Manifest.validate, partManifest, Manifest.validateParts, maxParts, hsize]
  obtain ⟨raw, hraw⟩ : ∃ raw, (partManifest n).marshal partCrypto zeroHmac partKey = .ok raw := by
    unfold Manifest.marshal
    rw [hval]
    exact ⟨_, rfl⟩
  exact ⟨raw, Manifest.unmarshal_marshal rfl hraw⟩

/-- A manifest that gives the part its size. -/
theorem whole_read_sound_abc : WholeReadSound partCrypto partKey {abcPart} 12 (partManifest 3).parts
      (layoutOf (partManifest 3).parts 12 true) := by
  obtain ⟨raw, hraw⟩ := partManifest_unmarshal (n := 3) (by decide) (by decide)
  have hl : newLayout (partManifest 3).parts 12 (partManifest 3).hasSalts
      = .ok (layoutOf (partManifest 3).parts 12 true) := by decide +kernel
  apply (whole_read_sound_iff 51 partCrypto_secure hraw rfl hl (by decide +kernel)).mpr
  intro ⟨ps, p, t, hparts, _, ht, _, hn, hlt⟩
  obtain rfl := Set.mem_singleton_iff.mp ht
  have hp : p ∈ (partManifest 3).parts := by rw [hparts]; simp
  rw [mem_singleton.mp hp] at hlt
  exact absurd hlt (by decide)

/-- **A manifest that says five.** The three bytes of the part are served as an object of the size
of five, and the chain reads them to `EOF`. -/
theorem whole_read_short : ∃ (raw : Bytes) (l : Layout) (c : SegmentChain (BytesReader GoErr)) (ks : List Nat),
      Manifest.unmarshal partCrypto zeroHmac raw partKey [] [] (partManifest 5).id
        = .ok (partManifest 5)
      ∧ newLayout (partManifest 5).parts 12 (partManifest 5).hasSalts = .ok l
      ∧ l.checkAgainst 53 = .ok ()
      ∧ newSegmentChain partCrypto ⟨abcPart.output partCrypto partKey, .eof⟩ partKey l = .ok c
      ∧ (readMany c ks).err = some .eof ∧ (readMany c ks).out = [97, 98, 99] := by
  obtain ⟨raw, hraw⟩ := partManifest_unmarshal (n := 5) (by decide) (by decide)
  have hl : newLayout (partManifest 5).parts 12 (partManifest 5).hasSalts
      = .ok (layoutOf (partManifest 5).parts 12 true) := by decide +kernel
  have hfit : Fitting {abcPart} 12 (partManifest 5).parts [abcPart] := by
    have hc : abcPart.Complete := Transcript.finished_complete ..
    exact Fitting.of_last Forall₂.nil rfl hc ⟨rfl, rfl⟩ (by decide)
  have hsrc : content (⟨abcPart.output partCrypto partKey, .eof⟩ : BytesReader GoErr)
      = outputs partCrypto partKey [abcPart] := (append_nil _).symm
  obtain ⟨c, hnew, ks, heof, hout⟩ := chain_stored partCrypto_secure length_replicate
    (by decide) rfl hfit hsrc (fun e he => he)
  exact ⟨raw, _, c, ks, hraw, hl, by decide +kernel, hnew, heof, hout⟩

end BlindBucket
