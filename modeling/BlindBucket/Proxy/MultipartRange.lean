import BlindBucket.Proxy.MultipartGet
import BlindBucket.Verify.Object

/-!
# A range of a multipart object is a slice of it

With an honest provider, `planRange` and `rangeChain` together return the bytes of the
object's plaintext that were asked for, from one run of its ciphertext that they read
to the last byte.

The proof goes along the boundaries of the spans. In the plaintext as in the ciphertext
each span ends where the next one begins, so what is left of the run when a span is
read is what the next one needs.
-/

namespace BlindBucket

open ByteIo BlindBucket.Stream Slices List Option

/-! ## The plan -/

/-- Parts a provider's listing was accepted for. -/
structure GoodParts (log2C : Nat) (parts : List Part) : Prop where
  log2 : ValidLog2 log2C
  nonempty : parts ≠ []
  sized : ∀ p ∈ parts, ∃ n : Nat, p.plainSize = n ∧ 0 < n ∧ n ≤ maxPlaintextSize
  ok : ∀ p ∈ parts, p.Ok

variable {parts : List Part} {log2C : Nat} {hasSalts : Bool}

theorem goodParts_of_upstream {uploaded : List Manifest.UploadedPart}
    (h : Manifest.partsFromUpstream uploaded log2C = .ok parts) : GoodParts log2C parts := by
  obtain ⟨hlog, hall, hne, hok, hpair⟩ := Manifest.partsFromUpstream_ok h
  refine ⟨hlog, hne, ?_, hok⟩
  intro p hp
  clear hne hok hpair h
  induction hall with
  | nil => simp at hp
  | cons hup _ ih =>
    rcases mem_cons.mp hp with rfl | hp
    · obtain ⟨n, hn, hpos, hle, _⟩ := hup.size
      exact ⟨n, hn, hpos, hle⟩
    · exact ih hp

theorem GoodParts.at (hg : GoodParts log2C parts) {i : Nat} (hi : i < parts.length) :
    ∃ p n, parts[i]? = some p ∧ p.plainSize = (n : Nat) ∧ 0 < n ∧ n ≤ maxPlaintextSize
      ∧ (plainSizes parts)[i]? = some n := by
  obtain ⟨n, hn, hpos, hle⟩ := hg.sized parts[i] (getElem_mem hi)
  refine ⟨parts[i], n, getElem?_eq_getElem hi, hn, hpos, hle, ?_⟩
  unfold plainSizes
  rw [getElem?_map, getElem?_eq_getElem hi, map_some, hn]
  rfl

/-- The bytes `a` to `b` of an object in several parts. -/
structure Window where
  parts : List Part
  log2C : Nat
  hasSalts : Bool
  a : Nat
  b : Nat
  good : GoodParts log2C parts
  le : a ≤ b
  lt : b < (plainSizes parts).sum

namespace Window

variable (W : Window)

abbrev layout : Layout := layoutOf W.parts W.log2C W.hasSalts

/-- The first part of the range. -/
def lo : Nat := W.layout.locate W.a

/-- The last one. -/
def hi : Nat := W.layout.locate W.b

/-- The span part `i` contributes. -/
def span (i : Nat) : RangeSpan :=
  let n := (plainSizes W.parts).getD i 0
  let rng := rangeOf W.log2C n (W.a - start (plainSizes W.parts) i)
    (min (W.b - start (plainSizes W.parts) i) (n - 1))
  { index := i, rng := rng, headerSeparate := rng.needsSeparateHeader }

def spans : List RangeSpan := (range' W.lo (W.hi + 1 - W.lo)).map W.span

/-- Part `i` holds bytes of the range. -/
structure Touches (i : Nat) : Prop where
  lt : i < W.parts.length
  start_le : start (plainSizes W.parts) i ≤ W.b
  lt_end : W.a < start (plainSizes W.parts) (i + 1)

theorem lo_start : start (plainSizes W.parts) W.lo ≤ W.a :=
  (locate_spec W.parts W.log2C W.hasSalts (W.le.trans_lt W.lt)).2.1

theorem lt_hi_end : W.b < start (plainSizes W.parts) (W.hi + 1) :=
  (locate_spec W.parts W.log2C W.hasSalts W.lt).2.2

theorem lo_le_hi : W.lo ≤ W.hi := by
  by_contra hlt
  have hmono := start_mono (plainSizes W.parts) (i := W.hi + 1) (j := W.lo) (by omega)
  have hlo := W.lo_start
  have hhi := W.lt_hi_end
  have hle := W.le
  omega

theorem headD_spans : W.spans.headD default = W.span W.lo := by
  obtain ⟨n, hn⟩ := Nat.exists_eq_add_of_le (Nat.sub_pos_of_lt (Nat.lt_succ_of_le W.lo_le_hi))
  rw [spans, show W.hi + 1 - W.lo = n + 1 by omega, range'_succ]
  rfl

variable {W} {i : Nat}

/-- The parts from the first one to the last. -/
theorem touches (hf : W.lo ≤ i) (hg : i ≤ W.hi) : W.Touches i := by
  obtain ⟨-, -, hlo⟩ := locate_spec W.parts W.log2C W.hasSalts (W.le.trans_lt W.lt)
  obtain ⟨hlt, hhi, -⟩ := locate_spec W.parts W.log2C W.hasSalts W.lt
  have h3 := start_mono (plainSizes W.parts) hg
  have h4 := start_mono (plainSizes W.parts) (i := W.lo + 1) (j := i + 1) (by omega)
  exact ⟨hg.trans_lt hlt, h3.trans hhi, hlo.trans_le h4⟩

theorem planSpan_eq (ht : W.Touches i) : planSpan W.layout W.a W.b i = .ok (W.span i) := by
  obtain ⟨p, n, hp, hsize, hpos, hle, hn⟩ := W.good.at ht.lt
  have hab := W.le
  have hstart := ht.start_le
  have hend := ht.lt_end
  rw [start_succ hn] at hend
  have hnat : p.plainSize.toNat = n := by rw [hsize]; rfl
  unfold planSpan span
  rw [entry_layoutOf hp, hnat, getD_eq_getElem?_getD, hn]
  dsimp only
  generalize start (plainSizes W.parts) i = ps at *
  have hlocal : (if (W.a : Int) - ps < 0 then 0 else (W.a : Int) - ps) = ((W.a - ps : Nat) : Int) := by
    split <;> omega
  have hlocalEnd : (if p.plainSize - 1 < (W.b : Int) - ps then p.plainSize - 1 else (W.b : Int) - ps)
      = ((min (W.b - ps) (n - 1) : Nat) : Int) := by
    split <;> omega
  rw [hlocal, hlocalEnd, show W.layout.log2C = W.log2C from rfl,
    mapRange_natCast W.good.log2 hle (by omega) (by omega)]
  rw [Nat.min_eq_left (Nat.min_le_right _ _)]
  rfl

theorem planSpans_eq {n : Nat} (ht : ∀ j, i ≤ j → j < i + n → W.Touches j) :
    planSpans W.layout W.a W.b n i = .ok ((range' i n).map W.span) := by
  induction n generalizing i with
  | zero => rfl
  | succ n ih =>
    unfold planSpans
    rw [planSpan_eq (ht i le_rfl (by omega)), ok_bind,
      ih (fun j h1 h2 => ht j (by omega) (by omega)), ok_bind, range'_succ, map_cons]

theorem planRange_eq {fin : Int} (hb : (W.b : Int) = min fin ((plainSizes W.parts).sum - 1)) :
    planRange W.layout W.a fin = .ok W.spans := by
  have htotal : W.layout.totalPlain = (plainSizes W.parts).sum := rfl
  have hle := W.le
  have hlt := W.lt
  have hclamp : (if ((plainSizes W.parts).sum : Int) ≤ fin then ((plainSizes W.parts).sum : Int) - 1
      else fin) = W.b := by split <;> omega
  unfold planRange
  rw [htotal, if_neg (by omega), hclamp]
  have hfg := W.lo_le_hi
  exact planSpans_eq (i := W.lo) (n := W.hi + 1 - W.lo) fun j h1 h2 => touches h1 (by omega)

/-- A range that is planned is one of these. -/
theorem of_planRange {first fin : Int} {spans : List RangeSpan} (hg : GoodParts log2C parts)
    (h : planRange (layoutOf parts log2C hasSalts) first fin = .ok spans) :
    ∃ (a b : Nat) (hle : a ≤ b) (hlt : b < (plainSizes parts).sum), first = a ∧ (b : Int) ≤ fin
      ∧ spans = (Window.mk parts log2C hasSalts a b hg hle hlt).spans := by
  obtain ⟨hbounds, -⟩ := else_ok h
  have htotal : (layoutOf parts log2C hasSalts).totalPlain = (plainSizes parts).sum := rfl
  obtain ⟨a, rfl⟩ := Int.eq_ofNat_of_zero_le (show 0 ≤ first by omega)
  obtain ⟨b, hb⟩ := Int.eq_ofNat_of_zero_le
    (show 0 ≤ min fin ((plainSizes parts).sum - 1) by omega)
  refine ⟨a, b, by omega, by omega, rfl, by omega, ?_⟩
  rw [planRange_eq (W := ⟨parts, log2C, hasSalts, a, b, hg, by omega, by omega⟩) hb.symm] at h
  exact (Except.ok.inj h).symm

end Window

/-! ## Boundaries -/

variable {W : Window} {segs : List Segment} {i n x y : Nat} {p : Part} {s : Segment}

/-- The segments are those the manifest describes. -/
abbrev Window.Describes (W : Window) (segs : List Segment) : Prop :=
  Forall₂ (Part.Describes W.log2C W.hasSalts) W.parts segs

/-- What is known of a span. -/
structure SpanOk (W : Window) (segs : List Segment) (i : Nat) (p : Part) (s : Segment) (x y : Nat) :
    Prop where
  part : W.parts[i]? = some p
  seg : segs[i]? = some s
  desc : p.Describes W.log2C W.hasSalts s
  size : (plainSizes W.parts)[i]? = some s.plain.length
  log2 : s.header.params.log2ChunkSize = W.log2C
  span : W.span i = ⟨i, rangeOf W.log2C s.plain.length x y,
    (rangeOf W.log2C s.plain.length x y).needsSeparateHeader, none⟩
  le : x ≤ y
  lt : y < s.plain.length
  left : start (plainSizes W.parts) i + x = max W.a (start (plainSizes W.parts) i)
  right : start (plainSizes W.parts) i + (y + 1) = min (W.b + 1) (start (plainSizes W.parts) (i + 1))

/-- Where the ciphertext of a span begins in the object, its header included unless it is fetched
on its own. -/
def Window.begins (W : Window) (i : Nat) : Nat :=
  start (sealedSizes W.log2C W.parts) i
    + (if (W.span i).headerSeparate then (W.span i).rng.cipherStart else 0)

/-- Where it ends. -/
def Window.ends (W : Window) (i : Nat) : Nat :=
  start (sealedSizes W.log2C W.parts) i + ((W.span i).rng.cipherEnd + 1)

/-- What follows the span `i` in the run that the range is read from. -/
abbrev Window.after (W : Window) (K : Crypto) (dek : Bytes) (segs : List Segment) (i : Nat) : Bytes :=
  (objectBytes K dek segs).extract (W.ends i) (W.ends W.hi)

/-- What the span `i` has to emit. -/
def Window.piece (W : Window) (segs : List Segment) (i : Nat) : Bytes :=
  (objectPlain segs).extract (max W.a (start (plainSizes W.parts) i))
    (min (W.b + 1) (start (plainSizes W.parts) (i + 1)))

theorem rangeOf_cipherEnd (log2C n x y : Nat) : (rangeOf log2C n x y).cipherEnd + 1
      = min (headerSize + (y / 2 ^ log2C + 1) * (2 ^ log2C + tagSize)) (sealedLen log2C n) := by
  have hheader : 0 < headerSize := by decide
  have hle : headerSize ≤ sealedLen log2C n := by
    show headerSize ≤ headerSize + n + tagSize * _
    omega
  show min (headerSize + (y / 2 ^ log2C + 1) * (2 ^ log2C + tagSize)) (sealedLen log2C n) - 1 + 1 = _
  omega

theorem rangeOf_cipherEnd_last (hn : 0 < n) : (rangeOf log2C n x (n - 1)).cipherEnd + 1 = sealedLen log2C n := by
  have hC := two_pow_pos' log2C
  have hcount : (n - 1) / 2 ^ log2C + 1 = Blocks.count (2 ^ log2C) n := by
    refine ((Blocks.count_eq_iff hC n _).mpr ⟨Nat.le_add_left 1 _, ?_, ?_⟩).symm
    · have := Nat.lt_mul_div_succ (n - 1) hC
      rw [Nat.mul_comm] at this
      omega
    · have := Nat.div_mul_le_self (n - 1) (2 ^ log2C)
      rw [Nat.add_sub_cancel]
      omega
  have hcover := Blocks.le_count_mul hC n
  rw [rangeOf_cipherEnd, hcount, Nat.mul_add]
  have hsize : sealedLen log2C n = headerSize + n + tagSize * Blocks.count (2 ^ log2C) n := rfl
  have hcomm := Nat.mul_comm (Blocks.count (2 ^ log2C) n) tagSize
  omega

theorem rangeOf_cipherStart (h : (rangeOf log2C n x y).needsSeparateHeader = false) :
    (rangeOf log2C n x y).cipherStart = headerSize := by
  have hzero : x / 2 ^ log2C = 0 := Nat.eq_zero_of_not_pos (of_decide_eq_false h)
  show headerSize + x / 2 ^ log2C * (2 ^ log2C + tagSize) = headerSize
  rw [hzero, Nat.zero_mul, Nat.add_zero]

theorem rangeOf_cipherStart_lt (log2C : Nat) (hxy : x ≤ y) (hyn : y < n) :
    (rangeOf log2C n x y).cipherStart < (rangeOf log2C n x y).cipherEnd + 1 := by
  have hle : x / 2 ^ log2C ≤ y / 2 ^ log2C := Nat.div_le_div_right hxy
  have hlt := Blocks.div_lt_count (two_pow_pos' log2C) hyn
  have hfit := strides_lt_sealedLen (hle.trans_lt hlt)
  have hmul : x / 2 ^ log2C * (2 ^ log2C + tagSize) < (y / 2 ^ log2C + 1) * (2 ^ log2C + tagSize) :=
    Nat.mul_lt_mul_of_pos_right (by omega) (by have := two_pow_pos' log2C; omega)
  rw [rangeOf_cipherEnd]
  show headerSize + x / 2 ^ log2C * (2 ^ log2C + tagSize) < _
  omega

theorem Segment.bytes_extract_header (K : Crypto) (dek : Bytes) (s : Segment) :
    (s.bytes K dek).extract 0 headerSize = s.header.raw := by
  show ((segmentBytes K dek s.header s.plain).drop 0).take (headerSize - 0) = _
  unfold segmentBytes
  rw [drop_zero, Nat.sub_zero, take_left' s.header.raw_length]

section Span

variable (h : SpanOk W segs i p s x y)

include h

theorem SpanOk.chunkSize : s.header.chunkSize = 2 ^ W.log2C := by
  show 2 ^ s.header.params.log2ChunkSize = _
  rw [h.log2]

theorem SpanOk.sealed :
    (sealedSizes W.log2C W.parts)[i]? = some (sealedLen W.log2C s.plain.length) := by
  unfold sealedSizes
  rw [getElem?_map, h.part, map_some, h.desc.size]
  rfl

theorem SpanOk.fits : (W.span i).rng.Fits s.header.chunkSize s.plain.length := by
  rw [h.span, h.chunkSize]
  exact rangeOf_fits h.le h.lt

/-- The ciphertext of a span is its header, unless that is fetched on its own, and its chunks. -/
theorem SpanOk.extract (K : Crypto) (dek : Bytes) (hdesc : W.Describes segs) :
    (objectBytes K dek segs).extract (W.begins i) (W.ends i)
      = (if (W.span i).headerSeparate then [] else s.header.raw)
        ++ (W.span i).rng.sealed K dek s.header s.plain := by
  have hbytes := segmentBytes_extract K dek s.header s.plain h.le h.lt
  rw [h.log2] at hbytes
  have hlen := segmentBytes_length K dek s.header s.plain
  rw [h.log2] at hlen
  have hend := rangeOf_cipherEnd W.log2C s.plain.length x y
  unfold Window.begins Window.ends
  rw [h.span]
  dsimp only
  rw [objectBytes_extract hdesc h.seg (by show _ ≤ (segmentBytes K dek s.header s.plain).length; omega)]
  cases hsep : (rangeOf W.log2C s.plain.length x y).needsSeparateHeader with
  | true =>
    exact hbytes
  | false =>
    have hstart := rangeOf_cipherStart hsep
    rw [hstart] at hbytes
    have hle : headerSize ≤ sealedLen W.log2C s.plain.length := by
      show headerSize ≤ headerSize + s.plain.length + tagSize * _
      omega
    rw [← s.bytes_extract_header K dek, ← hbytes]
    exact (extract_append_extract (Nat.zero_le _) (by omega)).symm

theorem SpanOk.slice (hdesc : W.Describes segs) :
    (W.span i).rng.slice s.header.chunkSize s.plain = W.piece segs i := by
  have hstart := rangeOf_start W.log2C s.plain.length x y
  have hlt := h.lt
  have hle := h.le
  rw [Window.piece, ← h.left, ← h.right, objectPlain_extract hdesc h.seg (by omega), h.span, Range.slice,
    h.chunkSize]
  rw [hstart]
  congr 1
  show y - x + 1 = y + 1 - x
  omega

end Span

/-! ## Opening a span -/

section Chain

variable {σ : Type} [ByteReader σ GoErr] [LawfulReader σ] {K : Crypto} {dek : Bytes}

/-- What the source has before it when a span is opened: its header, unless that was fetched, the
chunks of its range, and what follows. -/
def SpanBefore (K : Crypto) (dek : Bytes) (span : RangeSpan) (s : Segment) (src : σ) (rest : Bytes) : Prop :=
  (span.rawHeader = none ∧ content src = s.header.raw ++ (span.rng.sealed K dek s.header s.plain ++ rest))
    ∨ (span.rawHeader = some s.header.raw ∧ content src = span.rng.sealed K dek s.header s.plain ++ rest)

variable {src : σ} {raw : Bytes}

theorem spanHeader_ok {span : RangeSpan} {rest : Bytes} (number : Nat) (hb : SpanBefore K dek span s src rest)
    (hends : EndsInEof src) :
    ∃ src', spanHeader number span src = .ok (s.header.raw, src')
      ∧ content src' = span.rng.sealed K dek s.header s.plain ++ rest
      ∧ EndsInEof src' := by
  unfold spanHeader
  rcases hb with ⟨hnone, hc⟩ | ⟨hsome, hc⟩
  · have hlen := s.header.raw_length
    have herr : (readFull src headerSize).err = none := by
      apply readFull_err_none
      rw [hc, length_append]
      omega
    refine ⟨(readFull src headerSize).next, ?_, ?_, hends.steps (readFull_steps _ _)⟩
    · rw [hnone]
      rw [herr, readFull_out, hc, take_left' hlen]
    · rw [readFull_content, hc, drop_left' hlen]
  · rw [hsome]
    exact ⟨src, rfl, hc, hends⟩

/-- **Opening a span of an honest object.** -/
theorem openSpan_ok {span : RangeSpan} {rest : Bytes} (hdek : dek.length = keySize)
    (hentry : (W.layout.entry span.index).part = p) (hd : p.Describes W.log2C W.hasSalts s)
    (hfits : span.rng.Fits s.header.chunkSize s.plain.length) (hlen : (span.rng.sealed K dek s.header s.plain).length
        = span.rng.cipherEnd + 1 - span.rng.cipherStart)
    (hb : SpanBefore K dek span s src rest) (hends : EndsInEof src) :
    ∃ r lim, openSpan K dek W.layout span src = .ok r
      ∧ RangeOpened K lim s.header.raw dek s.header.params span.rng s.header r
      ∧ content lim = span.rng.sealed K dek s.header s.plain
      ∧ lim.beyond = rest ∧ EndsInEof lim.src := by
  obtain ⟨src', hheader, hc, hends'⟩ := spanHeader_ok p.number hb hends
  have hsalt : W.layout.checkSalt span.index s.header.salt = .ok () := by
    unfold Layout.checkSalt
    rw [hentry, show W.layout.hasSalts = W.hasSalts from rfl]
    cases hs : W.hasSalts with
    | false => rfl
    | true => rw [if_neg (by simp), if_neg (by simp [hd.salt hs])]
  obtain ⟨r, hr, ho⟩ := newRangeReader_of_header K
    (⟨src', span.rng.cipherEnd + 1 - span.rng.cipherStart⟩ : LimitReader σ)
    s.header.valid.expectation ⟨Or.inr rfl, rfl, rfl⟩ hdek hfits.first_le
  refine ⟨r, ⟨src', span.rng.cipherEnd + 1 - span.rng.cipherStart⟩, ?_, ho, ?_, ?_, hends'⟩
  · unfold openSpan
    rw [hentry]
    dsimp only
    rw [hheader, ok_bind]
    rw [s.header.saltFromHeader_raw]
    dsimp only
    rw [hsalt, ok_bind, show W.layout.log2C = W.log2C from rfl, ← hd.params, hr]
  · rw [LimitReader.content_eq, hc, take_left' hlen]
  · unfold LimitReader.beyond
    rw [hc, drop_left' hlen]

/-! ## Reading the spans one after another -/

/-- A segment and the limited source it is read from: behind the limit stands what the later spans
need. -/
def SpanAt (W : Window) (K : Crypto) (dek : Bytes) (segs : List Segment) (i : Nat)
    (q : Segment × LimitReader σ) : Prop :=
  segs[i]? = some q.1 ∧ q.2.beyond = W.after K dek segs i ∧ EndsInEof q.2.src

/-- The reader of span `i`. -/
def SpanInv (W : Window) (K : Crypto) (dek : Bytes) (segs : List Segment) (i : Nat)
    (r : RangeReader (LimitReader σ)) (data : Bytes) : Prop :=
  ∃ q, SpanAt W K dek segs i q ∧ ∃ tail, data = r.plain ++ tail
    ∧ RangeHonest K dek q.1.header q.1.plain (W.span i).rng q.2 r tail

/-- The same reader when it has come to its end. -/
def SpanFin (W : Window) (K : Crypto) (dek : Bytes) (segs : List Segment) (i : Nat)
    (r : RangeReader (LimitReader σ)) (e : Error) (rest : Bytes) : Prop :=
  ∃ q, SpanAt W K dek segs i q ∧ RangeRead q.2 r e rest

/-- When a span is at its end, the source stands where the next one begins. -/
theorem SpanFin.content_src {r : RangeReader (LimitReader σ)} {e : Error} {rest : Bytes}
    (h : SpanFin W K dek segs i r e rest) :
    e = .eof ∧ rest = [] ∧ EndsInEof r.src.src
      ∧ content r.src.src = W.after K dek segs i := by
  obtain ⟨q, ⟨_, hbeyond, hends⟩, he, hrest, hnil, hsteps⟩ := h
  refine ⟨he, hrest, hends.limit_steps hsteps, ?_⟩
  rw [LimitReader.content_src_of_nil hnil, LimitReader.beyond_steps hsteps, hbeyond]

/-- A span with the header that was fetched for it, if one had to be. -/
def RangeSpan.withHeader (raw : Bytes) (span : RangeSpan) : RangeSpan :=
  if span.headerSeparate then { span with rawHeader := some raw } else span

theorem RangeSpan.withHeader_rng (raw : Bytes) (span : RangeSpan) :
    (span.withHeader raw).rng = span.rng ∧ (span.withHeader raw).index = span.index := by
  unfold RangeSpan.withHeader
  split
  · exact ⟨rfl, rfl⟩
  · exact ⟨rfl, rfl⟩

/-- The spans of a range, with the header that was fetched for the first one. -/
def Window.spansWith (W : Window) (raw : Bytes) : List RangeSpan :=
  setRawHeader raw W.spans

theorem Window.spansWith_length (raw : Bytes) : (W.spansWith raw).length = W.hi + 1 - W.lo := by
  unfold Window.spansWith Window.spans
  cases hc : W.hi + 1 - W.lo with
  | zero => rfl
  | succ n =>
    rw [range'_succ, map_cons, setRawHeader, length_cons, length_map,
      length_range']

/-- What a range has to emit from part `i` on. -/
def Window.plain (W : Window) (segs : List Segment) (i : Nat) : Bytes :=
  (objectPlain segs).extract (max W.a (start (plainSizes W.parts) i)) (W.b + 1)

/-- A chain that has read some of the spans of a range. -/
def RangeAt (W : Window) (K : Crypto) (dek : Bytes) (segs : List Segment) (raw : Bytes) :
    RangeChain σ → Bytes → Prop :=
  Chain.At (rangePieces K dek W.layout (W.spansWith raw))
    (fun j => SpanInv W K dek segs (W.lo + j))
    (fun j => W.plain segs (W.lo + j))

/-- What is known when all spans are read. -/
def RangeDone (r : RangeReader (LimitReader σ)) (e : Error) (rest : Bytes) : Prop :=
  e = .eof ∧ rest = [] ∧ content r.src.src = []

section Range

variable (h : W.Describes segs)

include h

theorem Window.Describes.span (hf : W.lo ≤ i) (hg : i ≤ W.hi) :
    ∃ p s x y, SpanOk W segs i p s x y := by
  have ht := Window.touches hf hg
  have hab := W.le
  have hstart := ht.start_le
  have hend := ht.lt_end
  obtain ⟨p, n, hp, hn, hpos, hle, hsize⟩ := W.good.at ht.lt
  obtain ⟨p', s, hp', hs, hd⟩ := describes_at h ht.lt
  obtain rfl : p = p' := some.inj (hp.symm.trans hp')
  obtain rfl : n = s.plain.length := by have := hd.size; omega
  have hsucc := start_succ hsize
  refine ⟨p, s, W.a - start (plainSizes W.parts) i,
    min (W.b - start (plainSizes W.parts) i) (s.plain.length - 1), hp, hs, hd, hsize,
    by rw [hd.params], ?_, by omega, by omega, by omega, by rw [hsucc]; omega⟩
  unfold Window.span
  rw [getD_eq_getElem?_getD, hsize]
  rfl

theorem Window.Describes.lo_lt_hi (hf : W.lo ≤ i) (hg : i ≤ W.hi) :
    W.begins i < W.ends i := by
  obtain ⟨p, s, x, y, ho⟩ := h.span hf hg
  have hle := rangeOf_cipherStart_lt W.log2C ho.le ho.lt
  unfold Window.begins Window.ends
  rw [ho.span]
  dsimp only
  split <;> omega

/-- Only the first span of a range can begin within its part. -/
theorem Window.Describes.not_separate (hf : W.lo < i)
    (hg : i ≤ W.hi) : (W.span i).headerSeparate = false := by
  obtain ⟨p, s, x, y, ho⟩ := h.span (hf.le) hg
  have hfirst := (Window.touches le_rfl W.lo_le_hi).lt_end
  have hmono := start_mono (plainSizes W.parts) (i := W.lo + 1) hf
  have hleft := ho.left
  obtain rfl : x = 0 := by omega
  rw [ho.span]
  show decide (0 < 0 / 2 ^ W.log2C) = false
  rw [Nat.zero_div]
  rfl

/-- **Each span ends where the next one begins.** -/
theorem Window.Describes.hi_eq_lo (hf : W.lo ≤ i) (hg : i < W.hi) :
    W.ends i = start (sealedSizes W.log2C W.parts) (i + 1)
      ∧ W.begins (i + 1) = start (sealedSizes W.log2C W.parts) (i + 1) := by
  obtain ⟨p, s, x, y, ho⟩ := h.span hf (hg.le)
  have hnext := (Window.touches (i := i + 1) (by omega) hg).start_le
  have hright := ho.right
  have hsucc := start_succ ho.size
  obtain rfl : y = s.plain.length - 1 := by omega
  refine ⟨?_, ?_⟩
  · unfold Window.ends
    rw [start_succ ho.sealed, ho.span]
    rw [rangeOf_cipherEnd_last (by omega)]
  · unfold Window.begins
    rw [h.not_separate (by omega) hg]
    rfl

theorem Window.Describes.hi_le (hf : W.lo ≤ i) (hg : i ≤ W.hi) :
    W.ends i ≤ W.ends W.hi := by
  rcases Nat.lt_or_ge i W.hi with hlt | hge
  · have hmono := start_mono (sealedSizes W.log2C W.parts) (i := i + 1) hlt
    rw [(h.hi_eq_lo hf hlt).1]
    unfold Window.ends
    omega
  · rw [show i = W.hi by omega]

theorem Window.Describes.hi_le_length (K : Crypto)
    (dek : Bytes) : W.ends W.hi ≤ (objectBytes K dek segs).length := by
  obtain ⟨p, s, x, y, ho⟩ := h.span W.lo_le_hi le_rfl
  have hend := rangeOf_cipherEnd W.log2C s.plain.length x y
  have hsucc := start_succ ho.sealed
  have hsum := start_le_sum (sealedSizes W.log2C W.parts) (W.hi + 1)
  have hlen : (objectBytes K dek segs).length = (sealedSizes W.log2C W.parts).sum := by
    unfold objectBytes
    rw [sealedSizes_eq K dek h, length_flatten]
  unfold Window.ends
  rw [ho.span]
  dsimp only
  omega

omit h in
/-- **The plaintext of a range is that of its spans.** -/
theorem Window.plain_split (hf : W.lo ≤ i) :
    W.plain segs i = W.piece segs i ++ W.plain segs (i + 1) := by
  have hfirst := (Window.touches le_rfl W.lo_le_hi).lt_end
  have hmono := start_mono (plainSizes W.parts) (i := W.lo + 1) (j := i + 1) (by omega)
  have hle := start_le (plainSizes W.parts) i
  unfold Window.plain Window.piece
  rcases Nat.lt_or_ge W.b (start (plainSizes W.parts) (i + 1)) with hb | hb
  · rw [Nat.min_eq_left (by omega),
      extract_eq_nil (a := max W.a (start (plainSizes W.parts) (i + 1))) (by omega), append_nil]
  · rw [Nat.min_eq_right (by omega), Nat.max_eq_right (b := start (plainSizes W.parts) (i + 1)) (by omega),
      extract_append_extract (by omega) (by omega)]

omit h in
theorem Window.plain_lo : W.plain segs W.lo = (objectPlain segs).extract W.a (W.b + 1) := by
  rw [Window.plain, Nat.max_eq_left W.lo_start]

omit h in
theorem Window.plain_end : W.plain segs (W.lo + (W.hi + 1 - W.lo)) = [] := by
  have hlast := W.lt_hi_end
  have hfg := W.lo_le_hi
  refine extract_eq_nil ?_
  rw [show W.lo + (W.hi + 1 - W.lo) = W.hi + 1 by omega]
  omega

theorem Window.Describes.getD_spansWith (raw : Bytes) {j : Nat} (hj : j < W.hi + 1 - W.lo) :
    (W.spansWith raw).getD j default = (W.span (W.lo + j)).withHeader raw := by
  unfold Window.spansWith Window.spans
  obtain ⟨n, hn⟩ : ∃ n, W.hi + 1 - W.lo = n + 1 := ⟨W.hi - W.lo, by omega⟩
  rw [hn, range'_succ, map_cons, setRawHeader]
  cases j with
  | zero => rfl
  | succ j =>
    have hsep := h.not_separate (i := W.lo + (j + 1)) (by omega) (by omega)
    rw [getD_cons_succ, getD_eq_getElem?_getD, getElem?_map,
      getElem?_range' (by omega), map_some, getD_some,
      show W.lo + 1 + 1 * j = W.lo + (j + 1) by omega]
    unfold RangeSpan.withHeader
    rw [if_neg (by rw [hsep]; simp)]

theorem Window.Describes.headD_spansWith (raw : Bytes) :
    (W.spansWith raw).headD default = (W.span W.lo).withHeader raw := by
  have hzero := h.getD_spansWith raw (j := 0) (by have := W.lo_le_hi; omega)
  rw [Nat.add_zero] at hzero
  rw [← hzero]
  cases W.spansWith raw <;> rfl

/-- `bodyRange` names the ciphertext of the spans. -/
theorem Window.Describes.bodyRange_eq : bodyRange W.layout W.spans
      = (((W.begins W.lo : Nat) : Int), ((W.ends W.hi - 1 : Nat) : Int)) := by
  obtain ⟨p, s, x, y, hof⟩ := h.span le_rfl W.lo_le_hi
  obtain ⟨p', s', x', y', hog⟩ := h.span W.lo_le_hi le_rfl
  obtain ⟨n, hn⟩ : ∃ n, W.hi + 1 - W.lo = n + 1 := ⟨W.hi - W.lo, by have := W.lo_le_hi; omega⟩
  have hlast : W.spans.getLastD default = W.span W.hi := by
    rw [Window.spans, hn, range'_concat, map_append, map_singleton,
      show W.lo + 1 * n = W.hi by omega, getLastD_concat]
  unfold bodyRange
  rw [W.headD_spans, hlast]
  unfold Window.begins Window.ends
  rw [hof.span, hog.span]
  dsimp only
  rw [entry_layoutOf hof.part, entry_layoutOf hog.part]
  split <;> simp

theorem Window.Describes.header_eq (hraw : ∀ x y : Nat, headerRange W.layout W.spans = some ((x : Int), (y : Int)) →
      raw = (objectBytes K dek segs).extract x (y + 1))
    (hsep : (W.span i).headerSeparate = true) (hf : W.lo ≤ i) (hg : i ≤ W.hi) (hs : segs[i]? = some s) :
    raw = s.header.raw := by
  obtain rfl : i = W.lo := by
    by_contra hne
    rw [h.not_separate (by omega) hg] at hsep
    simp at hsep
  obtain ⟨p, s', x, y, ho⟩ := h.span hf hg
  obtain rfl : s = s' := some.inj (hs.symm.trans ho.seg)
  obtain ⟨n, hn⟩ : ∃ n, W.hi + 1 - W.lo = n + 1 := ⟨W.hi - W.lo, by omega⟩
  have hle : headerSize ≤ (s.bytes K dek).length := by
    show headerSize ≤ (segmentBytes K dek s.header s.plain).length
    unfold segmentBytes
    rw [length_append, s.header.raw_length]
    omega
  have hheader : 0 < headerSize := by decide
  rw [hraw (start (sealedSizes W.log2C W.parts) W.lo) (start (sealedSizes W.log2C W.parts) W.lo + headerSize - 1)
    ?_, show start (sealedSizes W.log2C W.parts) W.lo + headerSize - 1 + 1
      = start (sealedSizes W.log2C W.parts) W.lo + headerSize by omega]
  · rw [← Nat.add_zero (start (sealedSizes W.log2C W.parts) W.lo), Nat.add_assoc, Nat.zero_add,
      objectBytes_extract h ho.seg hle, s.bytes_extract_header]
  · unfold headerRange Window.spans
    rw [hn, range'_succ, map_cons, headD_cons]
    rw [if_pos hsep, ho.span]
    rw [entry_layoutOf ho.part]
    dsimp only
    congr 2
    omega

theorem span_release (hK : K.gcm.Correct) (hf : W.lo ≤ i) (hg : i ≤ W.hi) :
    ReleaseInv (SpanInv (σ := σ) W K dek segs i) (SpanFin W K dek segs i) := by
  obtain ⟨p, s, x, y, ho⟩ := h.span hf hg
  apply ReleaseInv.param
  intro q ⟨hseg, _⟩
  obtain rfl : s = q.1 := some.inj (ho.seg.symm.trans hseg)
  exact rangeHonest_release (Opens.of_correct hK _ _ _) ho.fits q.2

/-- **Opening the next span** where the one before has left the source. -/
theorem span_open (hdek : dek.length = keySize) (hf : W.lo ≤ i)
    (hg : i ≤ W.hi) (hraw : ∀ s, (W.span i).headerSeparate = true → segs[i]? = some s →
      raw = s.header.raw)
    (hc : content src = (objectBytes K dek segs).extract (W.begins i) (W.ends W.hi))
    (hends : EndsInEof src) :
    ∃ p s x y r lim, SpanOk W segs i p s x y
      ∧ openSpan K dek W.layout ((W.span i).withHeader raw) src = .ok r
      ∧ RangeOpened K lim s.header.raw dek s.header.params (W.span i).rng s.header r
      ∧ content lim = (W.span i).rng.sealed K dek s.header s.plain
      ∧ lim.beyond = W.after K dek segs i
      ∧ EndsInEof lim.src := by
  obtain ⟨p, s, x, y, ho⟩ := h.span hf hg
  have hextract := ho.extract K dek h
  rw [← extract_append_extract (Nat.le_of_lt (h.lo_lt_hi hf hg)) (h.hi_le hf hg), hextract] at hc
  obtain ⟨hrng, hindex⟩ := RangeSpan.withHeader_rng raw (W.span i)
  have hbefore : SpanBefore K dek ((W.span i).withHeader raw) s src (W.after K dek segs i) := by
    unfold SpanBefore
    rw [hrng]
    cases hsep : (W.span i).headerSeparate with
    | true =>
      right
      rw [hsep, if_pos rfl] at hc
      refine ⟨?_, hc⟩
      unfold RangeSpan.withHeader
      rw [if_pos hsep, hraw s hsep ho.seg]
    | false =>
      left
      rw [hsep, append_assoc] at hc
      refine ⟨?_, hc⟩
      unfold RangeSpan.withHeader
      rw [if_neg (by rw [hsep]; simp), ho.span]
  have hlen : ((W.span i).rng.sealed K dek s.header s.plain).length
        = (W.span i).rng.cipherEnd + 1 - (W.span i).rng.cipherStart := by
    have hbytes := segmentBytes_extract K dek s.header s.plain ho.le ho.lt
    have hall := segmentBytes_length K dek s.header s.plain
    have hend := rangeOf_cipherEnd W.log2C s.plain.length x y
    rw [ho.log2] at hbytes hall
    rw [ho.span]
    rw [← hbytes, extract_length (by omega)]
  obtain ⟨r, lim, hopen, hro, hcl, hbeyond, hel⟩ := openSpan_ok hdek
    (by rw [hindex, ho.span]; dsimp only; rw [entry_layoutOf ho.part]) ho.desc
    (by rw [hrng]; exact ho.fits) (by rw [hrng]; exact hlen) hbefore hends
  rw [hrng] at hro hcl
  exact ⟨p, s, x, y, r, lim, ho, hopen, hro, hcl, hbeyond, hel⟩

theorem rangeChain_release (hK : K.gcm.Correct) (hdek : dek.length = keySize)
    (hraw : ∀ i s, (W.span i).headerSeparate = true → W.lo ≤ i → i ≤ W.hi →
      segs[i]? = some s → raw = s.header.raw) :
    ReleaseInv (RangeAt (σ := σ) W K dek segs raw)
      (fun c e rest => RangeDone c.cur e rest) := by
  have hcount : (rangePieces (σ := σ) K dek W.layout (W.spansWith raw)).count = W.hi + 1 - W.lo :=
    Window.spansWith_length raw
  apply Chain.releaseInv (D := fun j => W.piece segs (W.lo + j)) _ RangeReader.filler_reads.tidy
  · intro j hj
    exact span_release h hK (by omega) (by omega)
  · intro j hj
    exact Window.plain_split (by omega)
  · rw [hcount, Window.plain_end]
  · intro j r rest hj hfin
    obtain ⟨_, hrest, _, hc⟩ := hfin.content_src
    rw [show W.lo + j = W.hi by omega, Window.after, extract_eq_nil le_rfl] at hc
    exact ⟨rfl, hrest, hc⟩
  · intro j r rest hj hfin
    obtain ⟨_, hrest, hends, hc⟩ := hfin.content_src
    refine ⟨hrest, ?_⟩
    have hbound := h.hi_eq_lo (i := W.lo + j) (by omega) (by omega)
    rw [Window.after, hbound.1, ← hbound.2] at hc
    obtain ⟨p, s, x, y, r', lim, ho, hopen, hro, hcl, hbeyond, hel⟩ := span_open h hdek
      (by omega) (by omega)
      (fun s hsep hs => hraw (W.lo + j + 1) s hsep (by omega) (by omega) hs) hc hends
    have hnext : (rangePieces K dek W.layout (W.spansWith raw)).openNext (j + 1) r = .ok r' := by
      show openSpan K dek _ ((W.spansWith raw).getD (j + 1) default) r.src.src = _
      rw [h.getD_spansWith raw (by omega)]
      exact hopen
    rw [hnext]
    refine ⟨(s, lim), ⟨ho.seg, hbeyond, hel⟩, _, ?_, hro.honest ho.fits hcl hel.limit⟩
    rw [hro.fresh]
    exact (ho.slice h).symm
  · intro j r e rest _ hne hfin
    exact absurd hfin.content_src.1 hne

/-- The spans of a range, opened one after another, emit its plaintext and use up the run. -/
theorem Window.Describes.read (hK : K.gcm.Correct) (hdek : dek.length = keySize)
    (hraw : ∀ i s, (W.span i).headerSeparate = true → W.lo ≤ i → i ≤ W.hi →
      segs[i]? = some s → raw = s.header.raw)
    (hc : content src = (objectBytes K dek segs).extract (W.begins W.lo) (W.ends W.hi))
    (hends : EndsInEof src) :
    ∃ c c', newRangeChain K src dek W.layout (W.spansWith raw) = .ok c
      ∧ RangeChain.verifyFirst c = (none, c')
      ∧ ∀ d : RangeChain σ, d = c ∨ d = c' → ∀ ks : List Nat,
        (readMany d ks).out <+: (objectPlain segs).extract W.a (W.b + 1)
        ∧ (∀ e, (readMany d ks).err = some e → e = .eof
            ∧ (readMany d ks).out = (objectPlain segs).extract W.a (W.b + 1)
            ∧ content (readMany d ks).next.cur.src.src = [])
        ∧ (((objectPlain segs).extract W.a (W.b + 1)).length < (ks.filter (0 < ·)).length →
            (readMany d ks).err = some .eof) := by
  have hfg := W.lo_le_hi
  obtain ⟨p, s, x, y, r, lim, ho, hopen, hro, hcl, hbeyond, hel⟩ := span_open h hdek
    le_rfl hfg (fun s hsep hs => hraw W.lo s hsep le_rfl hfg hs) hc hends
  obtain ⟨r', hverify, hI'⟩ := hro.verifyFirst_ok (Opens.of_correct hK _ _ _) ho.fits hcl hel.limit
  have hI : ∃ tail, (W.span W.lo).rng.slice s.header.chunkSize s.plain = r.plain ++ tail
      ∧ RangeHonest K dek s.header s.plain (W.span W.lo).rng lim r tail :=
    ⟨_, by rw [hro.fresh, nil_append], hro.honest ho.fits hcl hel.limit⟩
  -- a chain at the beginning of the range
  have hat : ∀ q : RangeReader (LimitReader σ),
      (∃ tail, (W.span W.lo).rng.slice s.header.chunkSize s.plain = q.plain ++ tail
        ∧ RangeHonest K dek s.header s.plain (W.span W.lo).rng lim q tail) →
      RangeAt W K dek segs raw
        ⟨rangePieces K dek W.layout (W.spansWith raw), 0, q, none⟩ ((objectPlain segs).extract W.a (W.b + 1)) := by
    intro q ⟨tail, htail, hq⟩
    refine ⟨rfl, rfl, ?_, _, ?_, ⟨(s, lim), ⟨ho.seg, hbeyond, hel⟩, tail, htail, hq⟩⟩
    · show 0 < (W.spansWith raw).length
      rw [Window.spansWith_length]
      omega
    · rw [← Window.plain_lo, Window.plain_split le_rfl, ho.slice h]
  have hrel := rangeChain_release (σ := σ) h hK hdek hraw
  refine ⟨⟨rangePieces K dek W.layout (W.spansWith raw), 0, r, none⟩,
    ⟨rangePieces K dek W.layout (W.spansWith raw), 0, r', none⟩, ?_, ?_, ?_⟩
  · unfold newRangeChain
    rw [h.headD_spansWith, hopen]
    rfl
  · unfold RangeChain.verifyFirst
    rw [hverify]
  · intro d hd ks
    have hd' : RangeAt W K dek segs raw d ((objectPlain segs).extract W.a (W.b + 1)) := by
      rcases hd with rfl | rfl
      · exact hat r hI
      · exact hat r' hI'
    obtain ⟨hout, hstop, hend⟩ := hrel.reads_all (Chain.progress RangeReader.filler_reads.progress)
      (fun _ _ _ h => ⟨h.1, h.2.1⟩) hd' ks
    exact ⟨hout, fun e he => ⟨(hstop e he).1, (hstop e he).2.1, (hstop e he).2.2.2.2⟩, hend⟩

end Range

/--
**A range of a multipart object is the slice of its plaintext.** Let the parts be a list that the
provider's listing was accepted for, and let the object be the segments it describes. Then the
manifest has a layout, and for every range that begins within the object:

* `planRange` succeeds, and `bodyRange` names a run of the object's ciphertext;
* from that run, however the source cuts it up, and from the header of the first part where
  `headerRange` asks for it, the range chain can be opened, its first chunk verifies, and
* for every sequence of buffers, with or without that verification, it emits the plaintext from
  `start` to `fin` or to its end, then `EOF`, having used up the run.
-/
theorem multipart_range_slice (hK : K.gcm.Correct) (hdek : dek.length = keySize) {uploaded : List Manifest.UploadedPart}
    (hparts : Manifest.partsFromUpstream uploaded log2C = .ok parts)
    (hdesc : List.Forall₂ (Part.Describes log2C hasSalts) parts segs) :
    ∃ l, newLayout parts log2C hasSalts = .ok l ∧
      ∀ start fin : Int, 0 ≤ start → start ≤ fin → start < (objectPlain segs).length →
      ∃ spans, planRange l start fin = .ok spans ∧
      ∃ lo hi : Nat, bodyRange l spans = ((lo : Int), (hi : Int))
        ∧ lo ≤ hi ∧ hi < (objectBytes K dek segs).length
        ∧ ∀ (src : σ) (raw : Bytes), EndsInEof src →
          content src = (objectBytes K dek segs).extract lo (hi + 1) →
          (∀ x y : Nat, headerRange l spans = some ((x : Int), (y : Int)) →
            raw = (objectBytes K dek segs).extract x (y + 1)) →
        ∃ c c', newRangeChain K src dek l (setRawHeader raw spans) = .ok c
          ∧ RangeChain.verifyFirst c = (none, c')
          ∧ ∀ d : RangeChain σ, d = c ∨ d = c' → ∀ ks : List Nat,
            (readMany d ks).out <+: (objectPlain segs).extract start.toNat
                ((min fin ((objectPlain segs).length - 1)).toNat + 1)
            ∧ (∀ e, (readMany d ks).err = some e → e = .eof
                ∧ (readMany d ks).out = (objectPlain segs).extract start.toNat
                    ((min fin ((objectPlain segs).length - 1)).toNat + 1)
                ∧ content (readMany d ks).next.cur.src.src = [])
            ∧ ((objectPlain segs).length < (ks.filter (0 < ·)).length → (readMany d ks).err = some .eof) := by
  have hgood := goodParts_of_upstream hparts
  refine ⟨layoutOf parts log2C hasSalts, newLayout_ok_iff.mpr ⟨hgood.nonempty, hgood.log2,
    fun p hp => (hgood.ok p hp).sized, rfl⟩, ?_⟩
  intro start fin h0 hle hlt
  have hlen := objectPlain_length hdesc
  obtain ⟨a, rfl⟩ := Int.eq_ofNat_of_zero_le h0
  obtain ⟨b, hb⟩ := Int.eq_ofNat_of_zero_le (show 0 ≤ min fin ((objectPlain segs).length - 1) by omega)
  let W : Window := ⟨parts, log2C, hasSalts, a, b, hgood, by omega, by omega⟩
  have h : W.Describes segs := hdesc
  have hpos : 0 < W.ends W.hi := Nat.succ_pos _
  refine ⟨_, W.planRange_eq (by rw [← hlen]; exact hb.symm), W.begins W.lo, W.ends W.hi - 1,
    h.bodyRange_eq, ?_, ?_, ?_⟩
  · have h1 := h.lo_lt_hi le_rfl W.lo_le_hi
    have h2 := h.hi_le le_rfl W.lo_le_hi
    omega
  · have := h.hi_le_length K dek
    omega
  · intro src raw hends hc hraw
    rw [hb]
    obtain ⟨c, c', hnew, hverify, hread⟩ := h.read hK hdek
      (fun i s hsep hf hg hs => h.header_eq hraw hsep hf hg hs) hc hends
    refine ⟨c, c', hnew, hverify, ?_⟩
    intro d hd ks
    obtain ⟨h1, h2, h3⟩ := hread d hd ks
    refine ⟨h1, h2, fun hk => h3 (Nat.lt_of_le_of_lt ?_ hk)⟩
    rw [length_take, length_drop]
    omega

/-- A part of two chunks, which ends in a one. -/
def longSegment : Segment where
  header := Header.make ⟨12, true, 1⟩ zeroSalt firstPart_valid
  plain := replicate 8191 0 ++ [1]

def abcSegment : Segment where
  header := Header.make ⟨12, true, 2⟩ zeroSalt ⟨by decide, by decide⟩
  plain := [97, 98, 99]

/-- The object they make. -/
def twoPartBytes : Bytes := objectBytes plainCrypto (replicate keySize 7) [longSegment, abcSegment]

def twoParts : List Part := [⟨1, 8192, zeroSalt⟩, ⟨2, 3, zeroSalt⟩]

/-- Three bytes across the boundary of the parts. The first one is in the second chunk of its part, so
the header of that part is fetched on its own. -/
theorem multipart_range_slice_across : ∃ l, newLayout twoParts 12 true = .ok l ∧
    ∃ spans, planRange l 8191 8193 = .ok spans ∧ spans.length = 2 ∧
    ∃ (x y lo hi : Nat) (c : RangeChain (BytesReader GoErr)),
      headerRange l spans = some ((x : Int), (y : Int)) ∧ bodyRange l spans = ((lo : Int), (hi : Int))
      ∧ newRangeChain plainCrypto ⟨twoPartBytes.extract lo (hi + 1), .eof⟩ (replicate keySize 7) l
          (setRawHeader (twoPartBytes.extract x (y + 1)) spans) = .ok c
      ∧ (readMany c (replicate 8196 1)).out = [1, 97, 98]
      ∧ (readMany c (replicate 8196 1)).err = some .eof := by
  obtain ⟨l, hl, h⟩ := multipart_range_slice (σ := BytesReader GoErr) (K := plainCrypto)
    Aead.openAead_correct
    (show (replicate keySize (7 : UInt8)).length = keySize from length_replicate)
    (show Manifest.partsFromUpstream [⟨1, 8256, zeroSalt⟩, ⟨2, 51, zeroSalt⟩] 12 = .ok twoParts by
      decide +kernel)
    (Forall₂.cons (⟨rfl, fun _ => rfl, by decide +kernel⟩ : Part.Describes 12 true _ longSegment)
      (Forall₂.cons (⟨rfl, fun _ => rfl, rfl⟩ : Part.Describes 12 true _ abcSegment) Forall₂.nil))
  have hlen : (objectPlain [longSegment, abcSegment]).length = 8195 := by decide +kernel
  obtain ⟨spans, hplan, lo, hi, hbody, -, -, hread⟩ := h 8191 8193 (by decide) (by decide)
    (by rw [hlen]; decide)
  have hlayout : newLayout twoParts 12 true = .ok (layoutOf twoParts 12 true) := rfl
  obtain rfl := Except.ok.inj (hlayout.symm.trans hl)
  have hspans : (planRange (layoutOf twoParts 12 true) 8191 8193).map
      (fun q => (q.length, headerRange (layoutOf twoParts 12 true) q))
        = .ok (2, some (((0 : Nat) : Int), ((headerSize - 1 : Nat) : Int))) := by decide +kernel
  rw [hplan] at hspans
  obtain ⟨hcount, hheader⟩ := Prod.mk.inj (Except.ok.inj hspans)
  obtain ⟨c, _, hnew, _, hrun⟩ := hread ⟨_, .eof⟩ (twoPartBytes.extract 0 (headerSize - 1 + 1))
    (fun e he => he) rfl (by
      intro x y hxy
      obtain ⟨hx, hy⟩ := Prod.mk.inj (some.inj (hheader.symm.trans hxy))
      rw [← Int.ofNat.inj hx, ← Int.ofNat.inj hy]
      rfl)
  obtain ⟨-, hend, heof⟩ := hrun c (.inl rfl) (replicate 8196 1)
  have herr := heof (by rw [hlen]; decide +kernel)
  exact ⟨_, hl, spans, hplan, hcount, 0, headerSize - 1, lo, hi, c, hheader, hbody, hnew,
    (hend _ herr).2.1.trans (by decide +kernel), herr⟩

end Chain

end BlindBucket
