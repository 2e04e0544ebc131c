import BlindBucket.Proxy.MultipartRange
import BlindBucket.Proxy.WholeGet

/-!
# Where plaintext comes from

What leaves a decoder, whatever bytes the provider feeds it. A segment decoder and a range
reader release a beginning of what one segment writer was given, or of a slice of it; a
range chain over the parts of an object releases a beginning of the slice of the object.

`Vault` collects what is assumed about the cipher: for every data key the gateway can
unwrap, only what segment writers sealed under it opens, and no salt was drawn twice.
-/

namespace BlindBucket

open ByteIo BlindBucket.Stream Slices List

/-- The segments ever written, by data key. -/
structure Vault (G : Gateway) where
  segments : Bytes → Set Transcript
  secure : ∀ bucket key m dek, G.unwrapDEK bucket key m = .ok dek → Secure G.crypto dek (segments dek)
  /-- No salt was drawn twice, under whatever keys. -/
  distinct : ∀ dek dek' t t', t ∈ segments dek → t' ∈ segments dek' →
    t.header.salt = t'.header.salt → dek = dek' ∧ t = t'

/-- What a segment writer was given, and the header it began with. -/
def Stream.Transcript.segment (t : Transcript) : Segment := ⟨t.header, t.plain⟩

section Hostile

variable {σ : Type} [ByteReader σ GoErr] [LawfulReader σ] {K : Crypto} {dek : Bytes}
  {S : Set Transcript} {src : σ} {want : SegmentParams} {raw : Bytes} {rng : Stream.Range}
  {t : Transcript} {first fin : Int}

/-! ## One segment -/

theorem verified_begins (hs : Secure K dek S) {r r' : DecryptReader σ}
    (hr : newDecryptReader K src dek want = .ok r) (hv : r.verifyFirst = (none, r')) :
    ∃ t ∈ S, t.header = r'.header ∧ ∀ ks, (readMany r' ks).out <+: t.plain := by
  have ho := newDecryptReader_ok hr
  have hfill : r.fill = (none, r') := by
    unfold DecryptReader.verifyFirst at hv
    rw [show r.err = none by rw [ho.fresh]] at hv
    rw [if_neg (by rw [ho.fresh]; simp)] at hv
    exact hv
  by_cases hknown : ∃ t ∈ S, t.header = r.header
  · obtain ⟨t, ht, hheader⟩ := hknown
    obtain ⟨tail, htail, htr⟩ := (ho.traced hheader).fill hs ht (by rw [ho.fresh]) hfill
    refine ⟨t, ht, htr.header.symm, ?_⟩
    intro ks
    obtain ⟨rest, hdata, -⟩ := (traced_release hs ht src (content r.src)).readMany ks
      ⟨tail, htail, htr⟩
    exact ⟨rest, hdata.symm⟩
  · refine absurd hfill (stray_fill hs (fun t ht h => hknown ⟨t, ht, h⟩) ?_ ?_)
    · rw [ho.fresh]
    · rw [ho.fresh]

/-! ## A range of a segment -/

theorem openRange_begins {G : Gateway} (hs : Secure G.crypto dek S) {body : σ} {r : RangeReader σ}
    {sealed : Int} {log2C : Nat} (hmap : mapRange first fin sealed log2C = .ok rng)
    (h : openRange G dek raw body rng = .ok r) : ∃ t ∈ S, t.header.raw = raw
      ∧ ∀ ks, (readMany r ks).out <+: rng.slice t.header.chunkSize t.plain := by
  obtain ⟨n, a, b, -, -, -, -, -, -, -, hrng⟩ := mapRange_ok_iff.mp hmap
  obtain ⟨r₀, hnew, hv⟩ := openRange_ok h
  have hpos : 0 < rng.length := by rw [hrng]; exact Nat.succ_pos _
  obtain ⟨t, ht, hraw, -, -, hall⟩ := range_verdict hs (mapRange_last_lt hmap) hpos hnew hv
  exact ⟨t, ht, hraw, fun ks => (hall ks).released⟩

/-- A range that is mapped with the size and the chunk size of a segment is a slice of it. -/
theorem slice_of_mapRange (hmap : mapRange first fin
      (sealedLen t.header.params.log2ChunkSize t.plain.length) t.header.params.log2ChunkSize = .ok rng) :
    rng.slice t.header.chunkSize t.plain <+: t.plain.extract first.toNat (fin.toNat + 1) := by
  obtain ⟨n, a, b, -, -, hlen, rfl, rfl, hab, han, rfl⟩ := mapRange_ok_iff.mp hmap
  obtain rfl : t.plain.length = n := sealedLen_inj (Int.ofNat.inj hlen)
  have hstart := rangeOf_start t.header.params.log2ChunkSize t.plain.length a
    (min b (t.plain.length - 1))
  rw [Range.slice, show t.header.chunkSize = 2 ^ t.header.params.log2ChunkSize from rfl, hstart]
  refine take_prefix_take_left ?_
  show min b (t.plain.length - 1) - a + 1 ≤ _
  omega

/-! ## A range of several parts -/

variable {W : Window} {segs : List Segment} {i x y : Nat} {p : Part} {s : Segment}

omit [LawfulReader σ] in
/-- A span that opens, on whatever bytes, has the header of the segment that its part names. -/
theorem SpanOk.opened (ho : SpanOk W segs i p s x y) (hsalts : W.hasSalts = true)
    {r : RangeReader (LimitReader σ)}
    (h : openSpan K dek W.layout ((W.span i).withHeader raw) src = .ok r) :
    ∃ lim head, RangeOpened K lim head dek ⟨W.log2C, true, p.number⟩ (W.span i).rng s.header r := by
  obtain ⟨hrng, hindex⟩ := RangeSpan.withHeader_rng raw (W.span i)
  have hentry : (W.layout.entry ((W.span i).withHeader raw).index).part = p := by
    rw [hindex, ho.span, entry_layoutOf ho.part]
  obtain ⟨⟨head, rest⟩, -, h⟩ := bind_ok h
  dsimp only at h
  split at h
  · simp at h
  next salt hsalt =>
    obtain ⟨_, hcheck, h⟩ := bind_ok h
    rw [hentry, hrng] at h
    obtain ⟨hd, hro⟩ := newRangeReader_ok h
    have hhead : hd.salt = p.salt := by
      rw [← hro.raw_eq, Header.saltFromHeader_raw] at hsalt
      rw [Option.some.inj hsalt]
      unfold Layout.checkSalt at hcheck
      rw [hentry] at hcheck
      by_contra hne
      rw [if_neg (by simp [layoutOf, hsalts]), if_pos hne] at hcheck
      simp at hcheck
    have hparams : hd.params = ⟨W.log2C, true, p.number⟩ := by
      obtain ⟨hlog2 | hlog2, hmulti, hnumber⟩ := hro.params
      · exact absurd (show minLog2ChunkSize ≤ anyChunkSize from hlog2 ▸ W.good.log2.1) (by decide)
      · rw [← show _ = W.log2C from hlog2, ← show _ = true from hmulti, ← show _ = p.number from hnumber]
    obtain rfl : hd = s.header :=
      Header.ext_raw (hparams.trans ho.desc.params.symm) (hhead.trans (ho.desc.salt hsalts).symm)
    exact ⟨_, head, hro⟩

/-- The reader of span `i`, on whatever bytes: it emits what the segment of its part holds. -/
def SpanTraced (W : Window) (K : Crypto) (dek : Bytes) (S : Set Transcript) (segs : List Segment)
    (i : Nat) (r : RangeReader (LimitReader σ)) (data : Bytes) : Prop :=
  ∃ t : Transcript, (t ∈ S ∧ segs[i]? = some t.segment) ∧ ∃ tail, data = r.plain ++ tail
    ∧ RangeTraced K dek t (W.span i).rng r tail

theorem SpanOk.last_lt (ho : SpanOk W segs i p t.segment x y) :
    (W.span i).rng.lastChunk < 256 ^ 8 := by
  have hdiv : y / 2 ^ W.log2C ≤ y := Nat.div_le_self ..
  have hmax : maxPlaintextSize < 256 ^ 8 := by decide
  have hlt : y < t.plain.length := ho.lt
  have hle := t.plain_le
  rw [ho.span]
  show y / 2 ^ W.log2C < 256 ^ 8
  omega

/-- Every segment of the object was sealed. -/
abbrev AllSealed (S : Set Transcript) (segs : List Segment) : Prop :=
  ∀ (i : Nat) s, segs[i]? = some s → ∃ t ∈ S, t.segment = s

variable (hsalts : W.hasSalts = true) (hs : Secure K dek S) (h : W.Describes segs) (hall : AllSealed S segs)

include hsalts h hall

omit [LawfulReader σ] in
theorem Window.Describes.spanTraced (hf : W.lo ≤ i) (hg : i ≤ W.hi) {r : RangeReader (LimitReader σ)}
    (hopen : openSpan K dek W.layout ((W.span i).withHeader raw) src = .ok r) :
    SpanTraced W K dek S segs i r (W.piece segs i) := by
  obtain ⟨p, s, x, y, ho⟩ := h.span hf hg
  obtain ⟨t, ht, rfl⟩ := hall i s ho.seg
  obtain ⟨lim, head, hro⟩ := ho.opened hsalts hopen
  refine ⟨t, ⟨ht, ho.seg⟩, _, ?_, RangeOpened.traced hro⟩
  rw [← ho.slice h, hro.fresh, nil_append]
  rfl

include hs

/-- **The spans of a range on whatever bytes**: what the chain emits is a beginning of the range. -/
theorem Window.Describes.hostile_release (raw : Bytes) :
    ReleaseInv (Chain.At (rangePieces (σ := σ) K dek W.layout (W.spansWith raw))
      (fun j => SpanTraced W K dek S segs (W.lo + j))
      (fun j => W.plain segs (W.lo + j))) (fun _ _ _ => True) := by
  have hcount : (rangePieces (σ := σ) K dek W.layout (W.spansWith raw)).count = W.hi + 1 - W.lo :=
    Window.spansWith_length raw
  have hrel : ∀ j, j < (rangePieces (σ := σ) K dek W.layout (W.spansWith raw)).count →
      ReleaseInv (SpanTraced (σ := σ) W K dek S segs (W.lo + j)) (fun _ e rest =>
        ∃ t : Transcript, (t ∈ S ∧ segs[W.lo + j]? = some t.segment)
          ∧ RangeStopped t (W.span (W.lo + j)).rng e rest) := by
    intro j hj
    apply ReleaseInv.param
    intro t ⟨ht, hseg⟩
    obtain ⟨p, s, x, y, ho⟩ := h.span (i := W.lo + j) (by omega) (by omega)
    obtain rfl := Option.some.inj (ho.seg.symm.trans hseg)
    exact rangeTraced_release hs ht ho.last_lt (Nat.succ_pos _)
  apply Chain.releaseInv (D := fun j => W.piece segs (W.lo + j)) (fun _ _ _ => True)
    RangeReader.filler_reads.tidy hrel
  · intro j hj
    exact Window.plain_split (by omega)
  · rw [hcount, Window.plain_end]
  · exact fun _ _ _ _ _ => trivial
  · rintro j r rest hj ⟨t, -, hstop⟩
    refine ⟨(hstop rfl).1, ?_⟩
    split
    next r' hopen =>
      replace hopen : openSpan K dek _ ((W.spansWith raw).getD (j + 1) default)
        r.src.src = .ok r' := hopen
      rw [h.getD_spansWith raw (by omega)] at hopen
      exact h.spanTraced hsalts hall (by omega) (by omega) hopen
    · trivial
  · exact fun _ _ _ _ _ _ _ => trivial

/-- A chain over the spans that has verified its first chunk. -/
theorem Window.Describes.hostile_read {c c' : RangeChain σ} 
    (hnew : newRangeChain K src dek W.layout (W.spansWith raw) = .ok c)
    (hv : RangeChain.verifyFirst c = (none, c')) (ks : List Nat) :
    (readMany c' ks).out <+: (objectPlain segs).extract W.a (W.b + 1) := by
  have hfg := W.lo_le_hi
  obtain ⟨r, hopen, hc⟩ := bind_ok hnew
  cases hc
  rw [h.headD_spansWith] at hopen
  obtain ⟨p, s, x, y, ho⟩ := h.span le_rfl hfg
  obtain ⟨t, ht, rfl⟩ := hall W.lo s ho.seg
  obtain ⟨lim, head, hro⟩ := ho.opened hsalts hopen
  obtain ⟨hnone, rfl⟩ := Prod.mk.inj hv
  obtain ⟨t', ht', hheader, tail, htail, htraced⟩ :=
    hro.verifyFirst hs ho.last_lt (Prod.ext hnone rfl)
  obtain rfl : t' = t := hs.distinct t' ht' t ht (congrArg Header.salt hheader)
  have hsplit : W.plain segs W.lo = _ := Window.plain_split le_rfl
  rw [← ho.slice h, Window.plain_lo] at hsplit
  obtain ⟨rest, hdata, -⟩ := (h.hostile_release hsalts hs hall raw).readMany ks
    (s := { pieces := rangePieces K dek W.layout (W.spansWith raw), idx := 0, cur := r.verifyFirst.2 })
    ⟨rfl, rfl, by show 0 < (W.spansWith raw).length; rw [Window.spansWith_length]; omega,
      _, hsplit, t', ⟨ht, ho.seg⟩, tail, htail, htraced⟩
  exact ⟨rest, hdata.symm⟩

end Hostile

section Chain

variable {σ : Type} [ByteReader σ GoErr] [LawfulReader σ] {G : Gateway} {dek : Bytes}
  {S : Set Transcript} {parts : List Part} {segs : List Segment} {log2C : Nat} {first fin : Int}
  {up : Upstream σ} {bucket stored etag : Bytes} {q : List RangeSpan × RangeChain σ}

/-- **A range of a multipart object** releases a beginning of that range of its plaintext. -/
theorem openChain_begins (hs : Secure G.crypto dek S) (hg : GoodParts log2C parts)
    (hdesc : Forall₂ (Part.Describes log2C true) parts segs) (hall : AllSealed S segs)
    (h : openChain G up bucket stored etag dek (layoutOf parts log2C true) first fin = .ok q)
    (ks : List Nat) : (readMany q.2 ks).out
      <+: (objectPlain segs).extract first.toNat (fin.toNat + 1) := by
  obtain ⟨spans, raw, body, c, hplan, hq, hnew, hv⟩ := openChain_ok h
  obtain ⟨a, b, hab, hbt, rfl, hb, rfl⟩ := Window.of_planRange hg hplan
  rw [hq] at hnew
  refine (Window.Describes.hostile_read (W := ⟨parts, log2C, true, a, b, hg, hab, hbt⟩) rfl hs hdesc hall
    hnew hv ks).trans ?_
  refine take_prefix_take_left ?_
  show b + 1 - a ≤ _
  omega

/-- The first chunk of such a range was sealed under the salt of one of the parts. -/
theorem openChain_salt (hs : Secure G.crypto dek S) (hg : GoodParts log2C parts)
    (h : openChain G up bucket stored etag dek (layoutOf parts log2C true) first fin = .ok q) :
    ∃ t ∈ S, ∃ p ∈ parts, t.header.salt = p.salt := by
  obtain ⟨t, ht, -, spans, hplan, hsalt⟩ := openChain_part hs h
  obtain ⟨a, b, hab, hbt, rfl, -, rfl⟩ := Window.of_planRange hg hplan
  let W : Window := ⟨parts, log2C, true, a, b, hg, hab, hbt⟩
  have hlt : W.lo < parts.length := (Window.touches le_rfl W.lo_le_hi).lt
  refine ⟨t, ht, parts[W.lo], getElem_mem hlt, ?_⟩
  rw [hsalt rfl, W.headD_spans]
  show (W.layout.entry W.lo).part.salt = _
  rw [entry_layoutOf (getElem?_eq_getElem hlt)]

end Chain

end BlindBucket
