import BlindBucket.Lib.Chain
import BlindBucket.Stream.Sound
import BlindBucket.Verify.Layout

/-!
# Reading a multipart object

`SegmentChain` decodes the segments of an object one after another, each within the
ciphertext size that the manifest gives it. This module follows a chain over any bytes:
whatever it releases belongs to the attempts that the manifest names, and it comes to
`EOF` only if all of them were finished, all but the last with the size in the manifest
and the last with that size at most.
-/

namespace BlindBucket

open ByteIo BlindBucket.Stream Blocks List

section Model

variable {σ : Type} [ByteReader σ GoErr] [LawfulReader σ]

/-- `SegmentChain.open`: the decoder of part `i`, bounded to the ciphertext of the part. -/
def openSegment (K : Crypto) (dek : Bytes) (l : Layout) (i : Nat) (src : σ) :
    Try (DecryptReader (LimitReader σ)) := do
  let part := (l.entry i).part
  let r ← newDecryptReader K ⟨src, (l.entry i).sealed.toNat⟩ dek ⟨l.log2C, true, part.number⟩
  l.checkSalt i r.header.salt
  .ok r

abbrev SegmentChain (σ : Type) [ByteReader σ GoErr] [LawfulReader σ] := Chain (DecryptReader (LimitReader σ)) GoErr

/-- What a segment chain reads: each part where the one before left the source. -/
def segmentPieces (K : Crypto) (dek : Bytes) (l : Layout) : Pieces (DecryptReader (LimitReader σ)) GoErr where
  count := l.entries.length
  openNext i r := openSegment K dek l i r.src.rd.src

def newSegmentChain (K : Crypto) (src : σ) (dek : Bytes) (l : Layout) : Try (SegmentChain σ) := do
  let r ← openSegment K dek l 0 src
  .ok { pieces := segmentPieces K dek l, idx := 0, cur := r }

def SegmentChain.verifyFirst (c : SegmentChain σ) : Option Error × SegmentChain σ :=
  match c.cur.verifyFirst with
  | (e, r) => (e, { c with cur := r })

end Model

/-! ## The attempts a manifest names -/

/-- The run drew the salt and has the number that the manifest entry names. -/
structure Part.Names (log2C : Nat) (p : Part) (t : Transcript) : Prop where
  params : t.header.params = ⟨log2C, true, p.number⟩
  salt : t.header.salt = p.salt

/-- The run is the finished segment that the manifest entry describes. -/
structure Part.Stored (S : Set Transcript) (log2C : Nat) (p : Part) (t : Transcript) : Prop where
  mem : t ∈ S
  complete : t.Complete
  names : p.Names log2C t
  size : p.plainSize = t.plain.length

open Classical in
/-- What the attempt that the entry names was given to encrypt. -/
noncomputable def Part.contentOf (S : Set Transcript) (log2C : Nat) (p : Part) : Bytes :=
  if h : ∃ t ∈ S, p.Names log2C t then h.choose.plain else []

variable {t : Transcript}

/-- There is one such attempt at most. -/
theorem Part.contentOf_eq {K : Crypto} {dek : Bytes} {S : Set Transcript} (hs : Secure K dek S) {log2C : Nat}
    {p : Part} (ht : t ∈ S) (hn : p.Names log2C t) : p.contentOf S log2C = t.plain := by
  have hex : ∃ t ∈ S, p.Names log2C t := ⟨t, ht, hn⟩
  unfold Part.contentOf
  rw [dif_pos hex]
  obtain ⟨hu, hun⟩ := hex.choose_spec
  rw [hs.distinct _ hu t ht (hun.salt.trans hn.salt.symm)]

theorem Part.contentOf_nil {S : Set Transcript} {log2C : Nat} {p : Part}
    (h : ¬ ∃ t ∈ S, p.Names log2C t) : p.contentOf S log2C = [] := by
  unfold Part.contentOf
  rw [dif_neg h]

/-! ## One segment of a chain -/

section Hostile

variable {σ : Type} [ByteReader σ GoErr] [LawfulReader σ] {K : Crypto} {dek : Bytes}
  {S : Set Transcript} {log2C n : Nat} {p : Part}

/-- A decoder within a part: of the attempt the manifest names, or, if there is none, one that will
not open anything. `n` is the ciphertext size of the part. -/
def SegmentInv (K : Crypto) (dek : Bytes) (S : Set Transcript) (log2C n : Nat) (p : Part)
    (r : DecryptReader (LimitReader σ)) (data : Bytes) : Prop :=
  (∃ q : Transcript × σ, (q.1 ∈ S ∧ p.Names log2C q.1) ∧ ∃ B : Bytes,
      content (⟨q.2, n⟩ : LimitReader σ) = q.1.header.raw ++ B ∧
      ∃ tail, data = r.plain ++ tail ∧ Traced K dek q.1 ⟨q.2, n⟩ B r tail) ∨
    ∃ h : Header, (∀ t ∈ S, t.header ≠ h) ∧ ∃ tail, data = r.plain ++ tail
      ∧ (r.err = none ∧ r.done = false ∧ r.next = 0 ∧ r.sealer = Sealer.of K dek h ∧ tail = [])

/-- At the end of a part its bytes were all that the attempt produced, and the source stands behind
them. -/
def SegmentFin (K : Crypto) (dek : Bytes) (S : Set Transcript) (log2C n : Nat) (p : Part)
    (r : DecryptReader (LimitReader σ)) (e : Error) (rest : Bytes) : Prop :=
  e = .eof → rest = [] ∧ ∃ t ∈ S, p.Names log2C t ∧ t.Complete ∧ ∃ src : σ,
    (content src).take n = t.output K dek ∧ content r.src.rd.src = (content src).drop n

theorem segment_release (hs : Secure K dek S) :
    ReleaseInv (SegmentInv (σ := σ) K dek S log2C n p) (SegmentFin K dek S log2C n p) := by
  refine ReleaseInv.or ?_ ?_
  · refine (ReleaseInv.param
      (fun q hq => ReleaseInv.param (P := fun B : Bytes =>
        content (⟨q.2, n⟩ : LimitReader σ) = q.1.header.raw ++ B)
        (fun B _ => traced_release hs hq.1 (⟨q.2, n⟩ : LimitReader σ) B))).mono ?_
    rintro r e rest ⟨⟨t, src⟩, ⟨ht, hn⟩, B, hB, hstop⟩ heof
    obtain ⟨hrest, hcomplete, hall, hnil, hsteps⟩ := hstop heof
    refine ⟨hrest, t, ht, hn, hcomplete, src, ?_, ?_⟩
    · rw [hall] at hB
      exact hB
    · -- the limit is used up, or the source is
      rw [LimitReader.content_src_of_nil (append_eq_nil_iff.mp hnil).2,
        LimitReader.beyond_steps hsteps]
      rfl
  · refine (ReleaseInv.param
      (fun h hstray => stray_release hs hstray)).mono ?_
    rintro r e rest ⟨_, _, hne⟩ heof
    exact absurd heof hne

variable {parts : List Part} {l : Layout}

variable {i : Nat} {src : σ} {r : DecryptReader (LimitReader σ)}

theorem openSegment_ok (hs : Secure K dek S) (hlog : ValidLog2 log2C) (hl : l = layoutOf parts log2C true)
    (hp : parts[i]? = some p) (h : openSegment K dek l i src = .ok r) :
    SegmentInv K dek S log2C (sealedLen log2C p.plainSize.toNat) p r (p.contentOf S log2C)
      ∧ content src ≠ [] := by
  subst hl
  unfold openSegment at h
  rw [entry_layoutOf hp] at h
  obtain ⟨r', hnew, h⟩ := bind_ok h
  obtain ⟨_, hsalt, h⟩ := bind_ok h
  obtain rfl := Except.ok.inj h
  have ho := newDecryptReader_ok hnew
  rw [Int.toNat_natCast] at ho
  have hplain : r'.plain = [] := by rw [ho.fresh]
  refine ⟨?_, ?_⟩
  · -- the header carries the number and the salt that were demanded
    have hparams : r'.header.params = ⟨log2C, true, p.number⟩ := by
      obtain ⟨hc, hm, hi⟩ := ho.params
      have hany : log2C ≠ anyChunkSize := by
        have := hlog.1
        unfold minLog2ChunkSize at this
        unfold anyChunkSize
        omega
      cases hrp : r'.header.params with
      | mk c m i =>
        rw [hrp] at hc hm hi
        rw [SegmentParams.mk.injEq]
        exact ⟨hc.resolve_left hany, hm, hi⟩
    have hsalt' : r'.header.salt = p.salt := by
      unfold Layout.checkSalt at hsalt
      rw [entry_layoutOf hp] at hsalt
      by_contra hne
      rw [if_neg (by simp [layoutOf]), if_pos hne] at hsalt
      simp at hsalt
    by_cases hknown : ∃ t ∈ S, t.header = r'.header
    · obtain ⟨t, ht, hheader⟩ := hknown
      have hn : p.Names log2C t := ⟨by rw [hheader]; exact hparams, by rw [hheader]; exact hsalt'⟩
      rw [Part.contentOf_eq hs ht hn]
      exact Or.inl ⟨(t, src), ⟨ht, hn⟩, _, by rw [ho.content_eq, hheader], t.plain,
        by rw [hplain]; rfl, ho.traced hheader⟩
    · have hstray : ∀ t ∈ S, t.header ≠ r'.header := fun t ht h => hknown ⟨t, ht, h⟩
      have hnone : ¬ ∃ t ∈ S, p.Names log2C t := by
        rintro ⟨t, ht, hn⟩
        exact hstray t ht (Header.ext_raw (hn.params.trans hparams.symm)
          (hn.salt.trans hsalt'.symm))
      rw [Part.contentOf_nil hnone]
      exact Or.inr ⟨r'.header, hstray, [], by rw [hplain]; rfl, by rw [ho.fresh], by rw [ho.fresh],
        by rw [ho.fresh], by rw [ho.fresh], rfl⟩
  · intro hnil
    have hc := congrArg List.length ho.content_eq
    rw [LimitReader.content_eq] at hc
    rw [hnil, take_nil, length_append, r'.header.raw_length, length_nil] at hc
    have : 0 < headerSize := by decide
    omega

theorem openSegment_ne_eof {e : Error} (h : openSegment K dek l i src = .error e) : e ≠ .eof := by
  unfold openSegment at h
  dsimp only at h
  cases hr : newDecryptReader K (⟨src, (l.entry i).sealed.toNat⟩ : LimitReader σ) dek
      ⟨l.log2C, true, (l.entry i).part.number⟩ with
  | error e' =>
    rw [hr] at h
    rw [← Except.error.inj h]
    exact newDecryptReader_ne_eof hr
  | ok r =>
    rw [hr, ok_bind] at h
    cases hc : l.checkSalt i r.header.salt with
    | error e' =>
      rw [hc] at h
      rw [← Except.error.inj h]
      unfold Layout.checkSalt at hc
      split at hc
      · simp at hc
      · split at hc
        · rw [← Except.error.inj hc]
          simp [wrapf]
        · simp at hc
    | ok u =>
      rw [hc, ok_bind] at h
      simp at h

theorem SegmentInv.verifyFirst (hs : Secure K dek S) {r' : DecryptReader (LimitReader σ)} {data : Bytes}
    (h : SegmentInv K dek S log2C n p r data) (hfresh : r.plain = []) (hv : r.verifyFirst = (none, r')) :
    SegmentInv K dek S log2C n p r' data := by
  unfold DecryptReader.verifyFirst at hv
  rcases h with ⟨⟨t, src⟩, ⟨ht, hn⟩, B, hB, tail, hdata, htr⟩ | ⟨hd, hstray, tail, hdata, hr⟩
  · rw [htr.err] at hv
    dsimp only at hv
    split at hv
    · obtain rfl := (Prod.mk.inj hv).2
      exact Or.inl ⟨(t, src), ⟨ht, hn⟩, B, hB, tail, hdata, htr⟩
    next hnext =>
      obtain ⟨tail', htail, htr'⟩ := htr.fill hs ht (by simpa using fun h => hnext (Or.inr h)) hv
      exact Or.inl ⟨(t, src), ⟨ht, hn⟩, B, hB, tail', by rw [hdata, hfresh, htail]; rfl, htr'⟩
  · exfalso
    rw [hr.1] at hv
    rw [if_neg (by simp [hr.2.1, hr.2.2.1])] at hv
    exact stray_fill hs hstray hr.2.2.1 hr.2.2.2.1 hv

/-! ## The chain -/

/-- What the attempts that the manifest names were given to encrypt, from part `i` on. -/
noncomputable def contentsFrom (S : Set Transcript) (log2C : Nat) (parts : List Part) (i : Nat) : Bytes :=
  ((parts.drop i).map (Part.contentOf S log2C)).flatten

theorem contentsFrom_cons (hp : parts[i]? = some p) :
    contentsFrom S log2C parts i = p.contentOf S log2C ++ contentsFrom S log2C parts (i + 1) := by
  obtain ⟨hi, rfl⟩ := List.getElem?_eq_some_iff.mp hp
  unfold contentsFrom
  rw [drop_eq_getElem_cons hi, map_cons, flatten_cons]

/-- The parts before `i` are the finished segments that the manifest describes. -/
def StoredBefore (S : Set Transcript) (log2C : Nat) (parts : List Part) (i : Nat) : Prop :=
  ∀ j p, j < i → parts[j]? = some p → ∃ t, p.Stored S log2C t

/-- A decoder within part `i` of a chain. -/
def ChainInv (K : Crypto) (dek : Bytes) (S : Set Transcript) (log2C : Nat) (parts : List Part)
    (i : Nat) (r : DecryptReader (LimitReader σ)) (data : Bytes) : Prop :=
  ∃ p : Part, (parts[i]? = some p ∧ StoredBefore S log2C parts i)
    ∧ SegmentInv K dek S log2C (sealedLen log2C p.plainSize.toNat) p r data

/-- What is known when a chain stops: after `EOF` nothing is left, all parts but the last are the
segments that the manifest describes, and the last one is no longer than described. -/
def ChainFin (S : Set Transcript) (log2C : Nat) (parts : List Part) (e : Error) (rest : Bytes) : Prop :=
  e = .eof → rest = [] ∧ StoredBefore S log2C parts (parts.length - 1)
    ∧ ∃ p t, parts[parts.length - 1]? = some p ∧ t ∈ S ∧ t.Complete ∧ p.Names log2C t
      ∧ t.plain.length ≤ p.plainSize.toNat

theorem Part.Names.output_length (K : Crypto) (dek : Bytes) (hn : p.Names log2C t) (hc : t.Complete) :
    (t.output K dek).length = sealedLen log2C t.plain.length := by
  rw [hc.output_eq, segmentBytes_length, hn.params]

theorem chain_release (hs : Secure K dek S) (hlog : ValidLog2 log2C)
    (hsized : ∀ p ∈ parts, p.Sized) (hl : l = layoutOf parts log2C true) :
    ReleaseInv (Chain.At (segmentPieces (σ := σ) K dek l) (ChainInv K dek S log2C parts) (contentsFrom S log2C parts))
      (fun _ e rest => ChainFin S log2C parts e rest) := by
  have hcount : (segmentPieces (σ := σ) K dek l).count = parts.length := by
    rw [hl]
    exact layoutOf_length
  have hpart : ∀ i, i < (segmentPieces (σ := σ) K dek l).count → ∃ p, parts[i]? = some p := by
    intro i hi
    rw [hcount] at hi
    exact ⟨_, getElem?_eq_getElem hi⟩
  -- what the end of a part tells about its size
  have hsize : ∀ (p : Part) (t : Transcript) (src : σ), t.Complete → p.Names log2C t →
      (content src).take (sealedLen log2C p.plainSize.toNat) = t.output K dek →
      t.plain.length ≤ p.plainSize.toNat := by
    intro p t src hc hn htake
    have hlen := congrArg List.length htake
    rw [length_take, hn.output_length K dek hc] at hlen
    by_contra hlt
    have := sealedLen_strictMono log2C (show p.plainSize.toNat < t.plain.length by omega)
    omega
  have hrel : ∀ i, i < (segmentPieces (σ := σ) K dek l).count →
      ReleaseInv (ChainInv (σ := σ) K dek S log2C parts i) (fun r e rest =>
        ∃ p : Part, (parts[i]? = some p ∧ StoredBefore S log2C parts i)
          ∧ SegmentFin K dek S log2C (sealedLen log2C p.plainSize.toNat) p r e rest) := by
    intro i _
    exact ReleaseInv.param (fun p _ => segment_release hs)
  apply Chain.releaseInv (D := fun i => ((parts[i]?).map (Part.contentOf S log2C)).getD [])
    (fun _ e rest => ChainFin S log2C parts e rest) DecryptReader.filler_reads.tidy hrel
  · intro i hi
    obtain ⟨p, hp⟩ := hpart i hi
    rw [contentsFrom_cons hp, hp]
    rfl
  · rw [hcount]
    unfold contentsFrom
    rw [drop_length]
    rfl
  · rintro i r rest hi ⟨p, ⟨hp, hbefore⟩, hfin⟩ _
    obtain ⟨hrest, t, ht, hn, hc, src, htake, _⟩ := hfin rfl
    obtain rfl : i = parts.length - 1 := by omega
    exact ⟨hrest, hbefore, p, t, hp, ht, hc, hn, hsize p t src hc hn htake⟩
  · rintro i r rest hi ⟨p, ⟨hp, hbefore⟩, hfin⟩
    obtain ⟨hrest, t, ht, hn, hc, src, htake, hsrc⟩ := hfin rfl
    obtain ⟨p', hp'⟩ := hpart (i + 1) hi
    refine ⟨hrest, ?_⟩
    split
    next r' hopen =>
      obtain ⟨hinv, hmore⟩ := openSegment_ok hs hlog hl hp' hopen
      refine ⟨p', ⟨hp', ?_⟩, by rw [hp']; exact hinv⟩
      -- something follows the part, so the limit was what ended it
      have hexact : t.plain.length = p.plainSize.toNat := by
        apply sealedLen_inj
        rw [← hn.output_length K dek hc, ← htake, length_take]
        rw [hsrc] at hmore
        have := length_pos_iff.mpr hmore
        rw [length_drop] at this
        omega
      intro j q hj hq
      rcases Nat.lt_succ_iff_lt_or_eq.mp hj with hj | rfl
      · exact hbefore j q hj hq
      · obtain rfl := Option.some.inj (hp.symm.trans hq)
        have hcast := (hsized p (mem_of_getElem? hp)).toNat.1
        exact ⟨t, ht, hc, hn, by rw [hexact, hcast]⟩
    next e hopen =>
      exact fun heof => absurd heof (openSegment_ne_eof hopen)
  · rintro i r e rest _ hne _ heof
    exact absurd heof hne

end Hostile

end BlindBucket
