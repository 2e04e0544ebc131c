import BlindBucket.Proxy.RangeGet
import BlindBucket.Stream.RangeSound

/-!
# What a range request answers

The calls behind a partial answer, read back from its success: `getObjectRange_ok` and
`openSourceRange_ok` for hostile storage, where nothing is known about the answers of the
provider, and `fetchRange_served`, `openRange_honest` for storage that serves the chunks
of the range.
-/

namespace BlindBucket

open ByteIo BlindBucket.Stream Blocks GoText List

/-! ## Range headers of digits -/

variable {b : UInt8} {first last : Bytes} {a : Nat} {fin : Int}

theorem graphic_of_digit (h : 0x30 ≤ b ∧ b ≤ 0x39) : Graphic b :=
  ⟨Nat.le_trans (by decide) h.1, Nat.le_trans h.2 (by decide)⟩

theorem parseRange_split (hf : ∀ b ∈ first, Graphic b ∧ b ≠ 0x2C ∧ b ≠ 0x2D) (hl : ∀ b ∈ last, Graphic b ∧ b ≠ 0x2C)
    (hne : ¬ (first = [] ∧ last = [])) (size : Int) :
    parseRange (ascii "bytes=" ++ (first ++ 0x2D :: last)) size
      = if first = [] then parseSuffix last size
        else if last = [] then parseFrom first size
        else parseBoth (ascii "bytes=" ++ (first ++ 0x2D :: last)) first last size := by
  have hunit : ∀ b ∈ ascii "bytes=", Graphic b := by decide +kernel
  have hdash : Graphic 0x2D := by decide
  have hall : ∀ b ∈ ascii "bytes=" ++ (first ++ 0x2D :: last), Graphic b := by
    intro b hb
    rcases mem_append.mp hb with hb | hb
    · exact hunit b hb
    rcases mem_append.mp hb with hb | hb
    · exact (hf b hb).1
    rcases mem_cons.mp hb with rfl | hb
    · exact hdash
    · exact (hl b hb).1
  have hcomma : (0x2C : UInt8) ∉ first ++ 0x2D :: last := by
    intro hm
    rcases mem_append.mp hm with hm | hm
    · exact (hf _ hm).2.1 rfl
    rcases mem_cons.mp hm with hm | hm
    · exact absurd hm (by decide)
    · exact (hl _ hm).2 rfl
  unfold parseRange
  rw [trimSpace_graphic hall, cutPrefix_append]
  dsimp only
  rw [if_neg hcomma, cut_append fun hm => (hf _ hm).2.2 rfl]
  dsimp only
  rw [trimSpace_graphic fun b hb => (hf b hb).1, trimSpace_graphic fun b hb => (hl b hb).1, if_neg hne]

theorem digit_plain (h : 0x30 ≤ b ∧ b ≤ 0x39) : Graphic b ∧ b ≠ 0x2C ∧ b ≠ 0x2D := by
  refine ⟨graphic_of_digit h, ?_, ?_⟩
  · rintro rfl
    exact absurd h.1 (by decide)
  · rintro rfl
    exact absurd h.1 (by decide)

/-- `bytes=-k`: the last `k` bytes. -/
def suffixSpec (k : Nat) : Bytes := ascii "bytes=" ++ ([] ++ 0x2D :: decimal k)

/-- `bytes=a-`: from offset `a` to the end. -/
def openSpec (a : Nat) : Bytes := ascii "bytes=" ++ (decimal a ++ 0x2D :: [])

/-- `bytes=a-b`. -/
def closedSpec (a b : Nat) : Bytes := ascii "bytes=" ++ (decimal a ++ 0x2D :: decimal b)

theorem parseRange_suffix (k n : Nat) :
    parseRange (suffixSpec k) n = if 0 < k ∧ k < 2 ^ 63 then .ok (((n - k : Nat) : Int), (n : Int) - 1)
      else .error (.invalidRange ⟨"suffix length %q is not a positive number",
        [.bytes (decimal k)]⟩) := by
  unfold suffixSpec
  rw [parseRange_split (by simp) (fun b hb => (digit_plain (mem_decimal hb)).imp_right And.left) (fun h => decimal_ne_nil k h.2),
    if_pos rfl]
  unfold parseSuffix
  rw [parseInt_decimal]
  by_cases hk : k < 2 ^ 63
  · rw [if_pos hk]
    dsimp only
    by_cases h0 : 0 < k
    · rw [if_pos (And.intro h0 hk), if_neg (show ¬ (k : Int) ≤ 0 by omega)]
      congr 2
      split <;> omega
    · rw [if_pos (show (k : Int) ≤ 0 by omega), if_neg (fun h => h0 h.1)]
  · rw [if_neg hk, if_neg (fun h => hk h.2)]

theorem parseRange_open_ok {n start : Int} (h : parseRange (openSpec a) n = .ok (start, fin)) :
    start = a ∧ fin = n - 1 ∧ a < n := by
  unfold openSpec at h
  rw [parseRange_split (fun b hb => digit_plain (mem_decimal hb)) (by simp) (fun h => decimal_ne_nil a h.1),
    if_neg (decimal_ne_nil a), if_pos rfl] at h
  unfold parseFrom at h
  rw [parseInt_decimal] at h
  by_cases ha : a < 2 ^ 63
  · rw [if_pos ha] at h
    obtain ⟨_, h⟩ := else_ok h
    obtain ⟨_, h⟩ := else_ok h
    cases h
    exact ⟨rfl, rfl, by omega⟩
  · rw [if_neg ha] at h
    simp at h

theorem parseRange_closed {b n : Nat} (hab : a ≤ b) (hb : b < n) (hn : n < 2 ^ 63) :
    parseRange (closedSpec a b) n = .ok ((a : Int), (b : Int)) := by
  unfold closedSpec
  rw [parseRange_split (fun c hc => digit_plain (mem_decimal hc)) (fun c hc => (digit_plain (mem_decimal hc)).imp_right And.left)
    (fun h => decimal_ne_nil a h.1), if_neg (decimal_ne_nil a), if_neg (decimal_ne_nil b)]
  unfold parseBoth
  rw [parseInt_decimal, parseInt_decimal, if_pos (by omega), if_pos (by omega)]
  dsimp only
  rw [if_neg (by omega), if_neg (by omega), if_neg (by omega)]

/-! ## Success read back -/

section Readers

variable {σ : Type} [ByteReader σ GoErr]

theorem readMany_segment (ks : List Nat) (r : RangeReader σ) :
    (readMany (RangeBody.segment r) ks).out = (readMany r ks).out
      ∧ (readMany (RangeBody.segment r) ks).err = (readMany r ks).err :=
  readMany_wrapped RangeBody.segment (fun _ _ => rfl) ks r

theorem readMany_chain (ks : List Nat) (c : RangeChain σ) : (readMany (RangeBody.chain c) ks).out = (readMany c ks).out
      ∧ (readMany (RangeBody.chain c) ks).err = (readMany c ks).err :=
  readMany_wrapped RangeBody.chain (fun _ _ => rfl) ks c

theorem readMany_empty (ks : List Nat) : (readMany (RangeBody.empty : RangeBody σ) ks).out = [] := by
  cases ks with
  | nil => rfl
  | cons k ks => rfl

variable {G : Gateway} {dek bucket key stored spec : Bytes} {rng : Stream.Range} {up : Upstream σ}
  {info : ObjectInfo} {m : Meta} {resp : RangeResponse σ} {l : Layout} {spans : List RangeSpan} {h : Stream.Header}

theorem openRange_ok {raw : Bytes} {body : σ} {r' : RangeReader σ} (h : openRange G dek raw body rng = .ok r') :
    ∃ r, newRangeReader G.crypto body raw dek anySegment rng = .ok r ∧ r.verifyFirst = (none, r') := by
  obtain ⟨r, hr, h⟩ := bind_ok h
  refine ⟨r, mapError_ok.mp hr, ?_⟩
  split at h
  · simp at h
  next q hv =>
    rw [hv, Except.ok.inj h]

/-- What a range of a single-part object is answered with, whatever the provider said. -/
structure SegmentAnswer (G : Gateway) (info : ObjectInfo) (m : Meta) (dek : Bytes)
    (start fin : Int) (rng : Stream.Range) (r : RangeReader σ) : Prop where
  mapped : mapRange start fin info.contentLength m.log2ChunkSize = .ok rng
  opened : ∃ (raw : Bytes) (body : σ), openRange G dek raw body rng = .ok r

theorem openSegmentRange_ok {salts : List Salt}
    (h : openSegmentRange G up bucket key stored info m spec = .ok (salts, resp)) :
    ∃ plainLen dek rng raw body r salt, openedSize info.contentLength m.log2ChunkSize = .ok plainLen
      ∧ parseRange spec plainLen = .ok (resp.start, resp.fin)
      ∧ mapRange resp.start resp.fin info.contentLength m.log2ChunkSize = .ok rng
      ∧ G.unwrapDEK bucket key m = .ok dek ∧ openRange G dek raw body rng = .ok r
      ∧ saltFromHeader raw = some salt ∧ salts = [salt] ∧ resp.body = .segment r := by
  obtain ⟨plainLen, hsize, h⟩ := bind_ok h
  obtain ⟨⟨start, fin⟩, hrange, h⟩ := bind_ok h
  obtain ⟨rng, hmap, h⟩ := bind_ok h
  obtain ⟨⟨raw, body⟩, hfetch, h⟩ := bind_ok h
  obtain ⟨dek, hdek, h⟩ := bind_ok h
  obtain ⟨r, hr, h⟩ := bind_ok h
  split at h
  · simp at h
  next salt hsalt =>
    cases h
    exact ⟨plainLen, dek, rng, raw, body, r, salt, mapError_ok.mp hsize, hrange, mapError_ok.mp hmap,
      hdek, hr, hsalt, rfl, rfl⟩

theorem askIndex_ok {α : Type} {q : List Salt × α} {a : α} (h : askIndex G bucket key q = .ok a) :
    G.checkFreshness bucket key q.1 = .ok () ∧ q.2 = a := by
  obtain ⟨_, hcheck, h⟩ := bind_ok h
  exact ⟨hcheck, Except.ok.inj h⟩

theorem getSegmentRange_ok (h : getSegmentRange G up bucket key stored info m spec = .ok resp) :
    ∃ plainLen dek rng r, openedSize info.contentLength m.log2ChunkSize = .ok plainLen
      ∧ parseRange spec plainLen = .ok (resp.start, resp.fin)
      ∧ G.unwrapDEK bucket key m = .ok dek ∧ resp.body = .segment r
      ∧ SegmentAnswer G info m dek resp.start resp.fin rng r := by
  obtain ⟨⟨salts, resp'⟩, hopen, h⟩ := bind_ok h
  obtain ⟨-, rfl⟩ := askIndex_ok h
  obtain ⟨plainLen, dek, rng, raw, body, r, salt, hsize, hrange, hmap, hdek, hr, -, -, hbody⟩ :=
    openSegmentRange_ok hopen
  exact ⟨plainLen, dek, rng, r, hsize, hrange, hdek, hbody, hmap, raw, body, hr⟩

theorem openSegmentSourceRange_ok {s : SourceRange σ}
    (h : openSegmentSourceRange G up bucket stored info m dek spec = .ok s) :
    ∃ plainLen fin, openedSize info.contentLength m.log2ChunkSize = .ok plainLen
      ∧ sourceRange spec plainLen = .ok (s.start, fin)
      ∧ ((plainLen = 0 ∧ s.body = .empty ∧ s.length = 0)
        ∨ ∃ rng r, plainLen ≠ 0 ∧ s.body = .segment r
          ∧ SegmentAnswer G info m dek s.start fin rng r) := by
  obtain ⟨plainLen, hsize, h⟩ := bind_ok h
  obtain ⟨⟨start, fin⟩, hrange, h⟩ := bind_ok h
  dsimp only at h
  split at h
  next h0 =>
    rw [← Except.ok.inj h]
    exact ⟨plainLen, fin, mapError_ok.mp hsize, hrange, Or.inl ⟨h0, rfl, rfl⟩⟩
  next h0 =>
    obtain ⟨rng, hmap, h⟩ := bind_ok h
    obtain ⟨⟨raw, body⟩, hfetch, h⟩ := bind_ok h
    obtain ⟨r, hr, h⟩ := bind_ok h
    rw [← Except.ok.inj h]
    exact ⟨plainLen, fin, mapError_ok.mp hsize, hrange, Or.inr ⟨rng, r, h0, rfl,
      mapError_ok.mp hmap, raw, body, hr⟩⟩

theorem mapRange_last_lt {start sealed : Int} {log2C : Nat} (h : mapRange start fin sealed log2C = .ok rng) :
    rng.lastChunk < 256 ^ 8 := by
  obtain ⟨n, a, b, _, hn, _, _, _, _, _, rfl⟩ := mapRange_ok_iff.mp h
  have hdiv : min b (n - 1) / 2 ^ log2C ≤ min b (n - 1) := Nat.div_le_self ..
  have hmax : maxPlaintextSize < 256 ^ 8 := by decide
  show min b (n - 1) / 2 ^ log2C < 256 ^ 8
  omega

theorem planSpans_within {start : Int} {count i : Nat} (h : planSpans l start fin count i = .ok spans) :
    ∀ span ∈ spans, span.index < i + count ∧ span.rng.lastChunk < 256 ^ 8 := by
  induction count generalizing i spans with
  | zero =>
    rw [← Except.ok.inj h]
    simp
  | succ count ih =>
    obtain ⟨span, hspan, h⟩ := bind_ok h
    obtain ⟨rest, hrest, h⟩ := bind_ok h
    rw [← Except.ok.inj h]
    intro s hs
    rcases mem_cons.mp hs with rfl | hs
    · obtain ⟨rng, hmap, hspan⟩ := bind_ok hspan
      rw [← Except.ok.inj hspan]
      exact ⟨Nat.lt_add_of_pos_right (Nat.succ_pos _), mapRange_last_lt hmap⟩
    · obtain ⟨hlt, hlast⟩ := ih hrest s hs
      exact ⟨by omega, hlast⟩

theorem planRange_last_lt {start : Int} (h : planRange l start fin = .ok spans) :
    (spans.headD default).rng.lastChunk < 256 ^ 8 := by
  obtain ⟨_, h⟩ := else_ok h
  cases spans with
  | nil => decide
  | cons span spans => exact (planSpans_within h span mem_cons_self).2

theorem setRawHeader_headD (raw : Bytes) (spans : List RangeSpan) :
    ((setRawHeader raw spans).headD default).rng = (spans.headD default).rng
      ∧ ((setRawHeader raw spans).headD default).index = (spans.headD default).index := by
  cases spans with
  | nil => exact ⟨rfl, rfl⟩
  | cons span spans =>
    rw [setRawHeader]
    split <;> exact ⟨rfl, rfl⟩

theorem setRawHeader_none (raw : Bytes) (h : headerRange l spans = none) :
    setRawHeader raw spans = spans := by
  cases spans with
  | nil => rfl
  | cons span spans =>
    unfold headerRange at h
    rw [headD_cons] at h
    dsimp only at h
    split at h
    · simp at h
    next hsep =>
      rw [setRawHeader, if_neg hsep]

/-- What opening a range of a multipart object did. -/
theorem openChain_ok {etag : Bytes} {start : Int} {q : List RangeSpan × RangeChain σ}
    (h : openChain G up bucket stored etag dek l start fin = .ok q) :
    ∃ spans raw body c, planRange l start fin = .ok spans ∧ q.1 = setRawHeader raw spans
      ∧ newRangeChain G.crypto body dek l q.1 = .ok c ∧ RangeChain.verifyFirst c = (none, q.2) := by
  obtain ⟨spans, hplan, h⟩ := bind_ok h
  obtain ⟨spans', hspans, h⟩ := bind_ok h
  obtain ⟨body, -, h⟩ := bind_ok h
  obtain ⟨c, hchain, h⟩ := bind_ok h
  split at h
  · simp at h
  next c' hv =>
    cases h
    have hraw : ∃ raw, spans' = setRawHeader raw spans := by
      unfold fetchSpanHeader at hspans
      split at hspans
      next hnone =>
        exact ⟨[], by rw [setRawHeader_none [] hnone, Except.ok.inj hspans]⟩
      · obtain ⟨raw, -, hspans⟩ := bind_ok hspans
        exact ⟨raw, (Except.ok.inj hspans).symm⟩
    obtain ⟨raw, hraw⟩ := hraw
    exact ⟨spans, raw, body, c, mapError_ok.mp hplan, hraw, mapError_ok.mp hchain, hv⟩

/-- **A multipart answer needs a part.** Its first chunk was sealed under the data key, for a part of
the object, with the salt that the layout has for it. -/
theorem openChain_part [LawfulReader σ] {etag : Bytes} {start : Int}
    {q : List RangeSpan × RangeChain σ} {S : Set Transcript} (hs : Secure G.crypto dek S)
    (h : openChain G up bucket stored etag dek l start fin = .ok q) :
    ∃ t ∈ S, t.header.params.multipart = true ∧ ∃ spans, planRange l start fin = .ok spans
      ∧ (l.hasSalts = true → t.header.salt = (l.entry (spans.headD default).index).part.salt) := by
  obtain ⟨spans, raw, body, c, hplan, hq, hnew, hv⟩ := openChain_ok h
  obtain ⟨hrng, hindex⟩ := setRawHeader_headD raw spans
  rw [hq] at hnew
  obtain ⟨r, hopen, hc⟩ := bind_ok hnew
  cases hc
  obtain ⟨⟨head, src⟩, -, hopen⟩ := bind_ok hopen
  dsimp only at hopen
  split at hopen
  · simp at hopen
  next salt hsalt =>
    obtain ⟨_, hcheck, hopen⟩ := bind_ok hopen
    obtain ⟨hd, ho⟩ := newRangeReader_ok hopen
    have hlast := planRange_last_lt hplan
    rw [← hrng] at hlast
    obtain ⟨t, ht, rfl, -⟩ := ho.verifyFirst hs hlast (Prod.ext (Prod.mk.inj hv).1 rfl)
    refine ⟨t, ht, ho.params.2.1, spans, hplan, fun hsalts => ?_⟩
    rw [← ho.raw_eq, Header.saltFromHeader_raw] at hsalt
    rw [Option.some.inj hsalt, ← hindex]
    unfold Layout.checkSalt at hcheck
    by_contra hne
    rw [if_neg (by simp [hsalts]), if_pos hne] at hcheck
    simp at hcheck

/-! ## Storage that serves the range -/

variable [LawfulReader σ]

theorem readHeader_ok {src : σ} {rest : Bytes} (hc : content src = h.raw ++ rest) :
    ∃ src', readHeader src = .ok (h.raw, src') ∧ content src' = rest ∧ Steps src src' := by
  have hlen := h.raw_length
  have hle : headerSize ≤ (content src).length := by
    rw [hc, length_append]
    omega
  refine ⟨(readFull src headerSize).next, ?_, ?_, readFull_steps src headerSize⟩
  · unfold readHeader
    rw [readFull_err_none hle, readFull_out, hc, take_left' hlen]
  · rw [readFull_content, hc, drop_left' hlen]

/-- A range whose chunks are served verifies, and reads to its end. -/
theorem openRange_honest {T : Bytes} {body : σ} (hsingle : h.params.multipart = false)
    (hdek : dek.length = keySize) (hopens : Opens G.crypto dek h T) (hfits : rng.Fits h.chunkSize T.length)
    (hc : content body = (Sealer.of G.crypto dek h).sealAll (rng.chunks h.chunkSize T)) (hends : EndsInEof body) :
    ∃ r, openRange G dek h.raw body rng = .ok r
      ∧ ∃ ks, (readMany r ks).err = some .eof
        ∧ (readMany r ks).out = rng.slice h.chunkSize T := by
  have hmeets : h.params.Meets anySegment := by
    refine ⟨Or.inl rfl, hsingle, ?_⟩
    have hid := h.valid.2
    unfold SegmentParams.IdentityOk at hid
    rw [hsingle] at hid
    exact hid
  obtain ⟨r₀, hnew, ho⟩ := newRangeReader_of_header G.crypto body
    (show anySegment.validateExpectation = .ok () from rfl) hmeets hdek hfits.first_le
  obtain ⟨r, hverify, hI⟩ := ho.verifyFirst_ok hopens hfits hc hends
  have hrel := rangeHonest_release hopens hfits body
  obtain ⟨ks, e, rest, herr, hdata, rfl, rfl, _⟩ := hrel.to_end RangeReader.filler_reads.progress hI
  rw [append_nil] at hdata
  refine ⟨r, ?_, ks, herr, hdata.symm⟩
  unfold openRange
  rw [hnew]
  dsimp only [Except.mapError, bind, Except.bind]
  rw [hverify]

end Readers

end BlindBucket
