import BlindBucket.Stream.Range
import BlindBucket.Stream.RoundTrip
import BlindBucket.Lib.Slices

/-!
# Reading a range of a segment

A range reader that is given the chunks its range names emits the bytes of the
plaintext in that range and then `EOF`, and it has then read those chunks to the last
byte. `Range.Fits` is what that takes: the range lies within the plaintext, touches the
chunks it names, and is right about the final one. What `MapRange` computes from the
size of a segment fits it.
-/

namespace BlindBucket.Stream

open ByteIo Blocks List

/-- The range describes bytes of a plaintext of `n` bytes in chunks of `C`. -/
structure Range.Fits (rng : Range) (C n : Nat) : Prop where
  first_le : rng.firstChunk ≤ rng.lastChunk
  last_lt : rng.lastChunk < count C n
  final : rng.lastIsFinal = decide (rng.lastChunk + 1 = count C n)
  skip_lt : rng.skip < C
  within : rng.firstChunk * C + rng.skip + rng.length ≤ n
  within_last : rng.firstChunk * C + rng.skip + rng.length ≤ (rng.lastChunk + 1) * C
  first_pos : 0 < rng.length
  touches : rng.lastChunk * C < rng.firstChunk * C + rng.skip + rng.length

theorem rangeOf_start (log2C n a e : Nat) :
    (rangeOf log2C n a e).firstChunk * 2 ^ log2C + (rangeOf log2C n a e).skip = a := by
  have := Nat.div_mul_le_self a (2 ^ log2C)
  show a / 2 ^ log2C * 2 ^ log2C + (a - a / 2 ^ log2C * 2 ^ log2C) = a
  omega

variable {log2C n a e j : Nat} {raw : Bytes} {want : SegmentParams}

/-- **What `MapRange` computes fits the segment** whose size it was computed from. -/
theorem rangeOf_fits (hae : a ≤ e) (hen : e < n) : (rangeOf log2C n a e).Fits (2 ^ log2C) n := by
  have hC := two_pow_pos' log2C
  have hstart := rangeOf_start log2C n a e
  have hlen : (rangeOf log2C n a e).length = e - a + 1 := rfl
  have hdiv := Nat.div_mul_le_self e (2 ^ log2C)
  have hlt : e < (e / 2 ^ log2C + 1) * 2 ^ log2C := by
    rw [Nat.mul_comm]; exact Nat.lt_mul_div_succ e hC
  refine ⟨Nat.div_le_div_right hae, div_lt_count hC hen, rfl, ?_, ?_, ?_, ?_, ?_⟩
  · show a - a / 2 ^ log2C * 2 ^ log2C < 2 ^ log2C
    have h1 := Nat.div_add_mod a (2 ^ log2C)
    rw [Nat.mul_comm] at h1
    omega
  · omega
  · show _ ≤ (e / 2 ^ log2C + 1) * 2 ^ log2C
    omega
  · omega
  · show e / 2 ^ log2C * 2 ^ log2C < _
    omega

def Range.chunks (rng : Range) (C : Nat) (T : Bytes) : List Chunk :=
  ((segmentChunks C T).take (rng.lastChunk + 1)).drop rng.firstChunk

theorem drop_take_segmentChunks {C : Nat} {T : Bytes} {i : Nat} (hij : i < j) (h : i < count C T.length) :
    ((segmentChunks C T).take j).drop i
      = chunkAt C T i :: ((segmentChunks C T).take j).drop (i + 1) := by
  rw [drop_take, drop_segmentChunks h, drop_take,
    show j - i = (j - (i + 1)) + 1 by omega, take_succ_cons]

variable {σ : Type} [ByteReader σ GoErr] [LawfulReader σ]

/-- The chunks of a range of the plaintext `T`, sealed. -/
abbrev Range.sealed (rng : Range) (K : Crypto) (dek : Bytes) (h : Header) (T : Bytes) : Bytes :=
  (Sealer.of K dek h).sealAll (rng.chunks h.chunkSize T)

/-- A range reader in the middle of an honest range of the segment of `T`. -/
structure RangeHonest (K : Crypto) (dek : Bytes) (h : Header) (T : Bytes) (rng : Range)
    (src : σ) (r : RangeReader σ) (tail : Bytes) : Prop where
  emits : Emits h.chunkSize T (rng.slice h.chunkSize T) rng.length r tail
  sealer : r.sealer = Sealer.of K dek h
  log2C : r.log2C = h.params.log2ChunkSize
  rng_eq : r.rng = rng
  held : r.held = true
  steps : Steps src r.src
  ends : EndsInEof r.src
  content_eq : content r.src = (Sealer.of K dek h).sealAll
    (((segmentChunks h.chunkSize T).take (rng.lastChunk + 1)).drop r.next)
  /-- As long as there are chunks to read, what is left to emit reaches to the end of the range. -/
  pos : (r.next ≤ rng.lastChunk ∧ r.next * h.chunkSize + r.skip + (r.remaining - r.plain.length)
        = rng.firstChunk * h.chunkSize + rng.skip + rng.length
      ∧ r.skip < h.chunkSize
      ∧ r.next * h.chunkSize + r.skip < rng.firstChunk * h.chunkSize + rng.skip + rng.length) ∨
    (r.next = rng.lastChunk + 1 ∧ r.plain.length = r.remaining)

variable {K : Crypto} {dek : Bytes} {h : Header} {T : Bytes} {rng : Range} {src : σ}

variable {r : RangeReader σ} {tail : Bytes}

theorem RangeHonest.serve (hh : RangeHonest K dek h T rng src r tail) (k : Nat) :
    RangeHonest K dek h T rng src (r.serve k) tail := by
  have hlen : (r.plain.take k).length + (r.plain.drop k).length = r.plain.length := by
    rw [length_take, length_drop]; omega
  refine ⟨hh.emits.serve k, hh.sealer, hh.log2C, hh.rng_eq, hh.held, hh.steps, hh.ends,
    hh.content_eq, ?_⟩
  have hleft : (r.serve k).remaining - (r.serve k).plain.length = r.remaining - r.plain.length := by
    show r.remaining - (r.plain.take k).length - (r.plain.drop k).length = _
    omega
  rcases hh.pos with ⟨h1, h2, h3, h4⟩ | ⟨h1, h2⟩
  · exact Or.inl ⟨h1, by rw [hleft]; exact h2, h3, h4⟩
  · refine Or.inr ⟨h1, ?_⟩
    show (r.plain.drop k).length = r.remaining - (r.plain.take k).length
    omega

theorem RangeHonest.next_chunk
    (hfits : rng.Fits h.chunkSize T.length) (hh : RangeHonest K dek h T rng src r tail)
    (hnext : r.next ≤ rng.lastChunk) :
    (content r.src).take (h.chunkSize + tagSize) = (Sealer.of K dek h).sealed (chunkAt h.chunkSize T r.next)
      ∧ (content r.src).drop (h.chunkSize + tagSize) = (Sealer.of K dek h).sealAll
          (((segmentChunks h.chunkSize T).take (rng.lastChunk + 1)).drop (r.next + 1))
      ∧ r.isFinal = decide (r.next + 1 = count h.chunkSize T.length) := by
  have hC := h.chunkSize_pos
  have hlast := hfits.last_lt
  have hsplit := hh.content_eq
  rw [drop_take_segmentChunks (by omega) (by omega)] at hsplit
  have hcons : content r.src = (Sealer.of K dek h).sealed (chunkAt h.chunkSize T r.next) ++ (Sealer.of K dek h).sealAll
        (((segmentChunks h.chunkSize T).take (rng.lastChunk + 1)).drop (r.next + 1)) := hsplit
  have hlen := sealed_chunkAt_length (Sealer.of K dek h) h.chunkSize T r.next
  have hfinal : r.isFinal = decide (r.next + 1 = count h.chunkSize T.length) := by
    unfold RangeReader.isFinal
    rw [hh.rng_eq, hfits.final]
    rcases Nat.lt_or_ge r.next rng.lastChunk with hlt | hge
    · rw [decide_eq_false (by omega), Bool.false_and, decide_eq_false (by omega)]
    · rw [show r.next = rng.lastChunk by omega, decide_eq_true rfl, Bool.true_and]
  rcases Nat.lt_or_ge r.next rng.lastChunk with hlt | hge
  · -- a chunk before the last one of the range is full
    rw [block_length_of_lt hC (by omega)] at hlen
    exact ⟨by rw [hcons, take_left' hlen], by rw [hcons, drop_left' hlen], hfinal⟩
  · -- the last one may be short, but nothing follows it
    have hnil : ((segmentChunks h.chunkSize T).take (rng.lastChunk + 1)).drop (r.next + 1) = [] := by
      apply drop_of_length_le
      rw [length_take]
      omega
    have hle : ((Sealer.of K dek h).sealed (chunkAt h.chunkSize T r.next)).length ≤ h.chunkSize + tagSize := by
      rw [hlen]
      exact Nat.add_le_add_right (block_length_le ..) _
    rw [hcons, hnil, Sealer.sealAll_nil, append_nil]
    exact ⟨take_of_length_le hle, drop_of_length_le hle, hfinal⟩

theorem RangeHonest.fill_ok (hopens : Opens K dek h T) (hfits : rng.Fits h.chunkSize T.length)
    (hh : RangeHonest K dek h T rng src r tail)
    (hp : r.plain = []) (hrem : r.remaining ≠ 0) :
    ∃ r', r.fill = (none, r') ∧ ∃ tail', tail = r'.plain ++ tail'
      ∧ RangeHonest K dek h T rng src r' tail' := by
  have hC := h.chunkSize_pos
  have hlast := hfits.last_lt
  obtain ⟨hnext, hpos, hskip, hinside⟩ | ⟨_, hzero⟩ := hh.pos
  swap
  · rw [hp] at hzero
    exact absurd hzero.symm hrem
  obtain ⟨htake, hdrop, hfinal⟩ := hh.next_chunk hfits hnext
  have hstride : 2 ^ r.log2C + tagSize = h.chunkSize + tagSize := by rw [hh.log2C]; rfl
  have hlen := sealed_chunkAt_length (Sealer.of K dek h) h.chunkSize T r.next
  -- the block reaches beyond what is skipped
  have hblock : r.skip < (block h.chunkSize T r.next).length := by
    have := hfits.within
    rw [block_length]
    omega
  cases RangeReader.fill_cases hh.held with
  | cut e s _ _ why _ =>
    exfalso
    rw [hh.rng_eq, hstride] at why
    rcases why with hpast | ⟨hshort, hbad⟩ | ⟨e', he', hne⟩
    · omega
    · -- what there is of the source is a chunk with its tag
      have hall := take_of_length_le (hshort.le)
      rw [hall] at htake
      rw [htake, hlen] at hshort hbad
      rcases hbad with hbad | hbad
      · have hne := of_decide_eq_false (hfinal.symm.trans hbad)
        rw [block_length_of_lt hC (by omega)] at hshort
        omega
      · omega
    · exact hne (hh.ends e' he')
  | chunk s _ hs hrest _ heq =>
    rw [hstride] at hrest heq
    rw [htake, hfinal] at heq
    have hopen : r.sealer.openChunk ((Sealer.of K dek h).sealed (chunkAt h.chunkSize T r.next))
        r.next (decide (r.next + 1 = count h.chunkSize T.length))
          = .ok (block h.chunkSize T r.next) := by
      rw [hh.sealer]
      exact hopens r.next (by have := hfits.last_lt; omega)
    obtain ⟨tail', htail, hemits⟩ := hh.emits.next_block hp (fun _ => hblock) s
    refine ⟨_, ?_, tail', htail, hemits, hh.sealer, hh.log2C, hh.rng_eq, hh.held,
      hh.steps.trans hs, hh.ends.steps hs, hrest.trans hdrop, ?_⟩
    · rw [heq, RangeReader.openNext]
      rw [hopen]
      dsimp only
      rw [if_neg (by omega)]
    · have hmul : (r.next + 1) * h.chunkSize = r.next * h.chunkSize + h.chunkSize := by
        rw [Nat.add_mul, Nat.one_mul]
      have hplain : (((block h.chunkSize T r.next).drop r.skip).take r.remaining).length
          = min r.remaining ((block h.chunkSize T r.next).length - r.skip) := by
        rw [length_take, length_drop]
      rw [hp, length_nil] at hpos
      rcases Nat.lt_or_ge r.next rng.lastChunk with hlt | hge
      · -- not the last chunk of the range: all of it is emitted
        left
        have hfull := block_length_of_lt hC (P := T) (i := r.next) (by omega)
        have htouch := hfits.touches
        have hle : (r.next + 1) * h.chunkSize ≤ rng.lastChunk * h.chunkSize :=
          Nat.mul_le_mul_right _ hlt
        refine ⟨hlt, ?_, hC, ?_⟩
        · show (r.next + 1) * h.chunkSize + 0 + (r.remaining
            - (((block h.chunkSize T r.next).drop r.skip).take r.remaining).length) = _
          omega
        · show (r.next + 1) * h.chunkSize + 0 < _
          omega
      · right
        have heqn : r.next = rng.lastChunk := by omega
        have hwl := hfits.within_last
        rw [← heqn] at hwl
        have hwn := hfits.within
        have hb := block_length h.chunkSize T r.next
        refine ⟨congrArg (· + 1) heqn, ?_⟩
        show (((block h.chunkSize T r.next).drop r.skip).take r.remaining).length = r.remaining
        omega

/-- What is known when an honest range has been read. -/
def RangeRead (src : σ) (r : RangeReader σ) (e : Error) (rest : Bytes) : Prop :=
  e = .eof ∧ rest = [] ∧ content r.src = [] ∧ Steps src r.src

theorem rangeHonest_release (hopens : Opens K dek h T) (hfits : rng.Fits h.chunkSize T.length) (src : σ) :
    ReleaseInv (fun (r : RangeReader σ) data => ∃ tail, data = r.plain ++ tail
        ∧ RangeHonest K dek h T rng src r tail) (RangeRead src) := by
  apply RangeReader.filler_reads.releaseInv
  · intro r tail hh
    exact hh.emits.err
  · intro r tail k hh
    exact hh.serve k
  · intro r tail hh hp hd
    have hrem : r.remaining = 0 := hd.elim id hh.emits.done
    refine ⟨rfl, (hh.emits.finished hp hd).1, ?_, hh.steps⟩
    rcases hh.pos with ⟨_, hpos, _, hlt⟩ | ⟨hnext, _⟩
    · omega
    · show content r.src = []
      rw [hh.content_eq, drop_of_length_le, Sealer.sealAll_nil]
      rw [length_take]
      omega
  · intro r tail e r' hh hp hd hf
    obtain ⟨r'', hok, _⟩ := hh.fill_ok hopens hfits hp (fun h0 => hd (Or.inl h0))
    exact absurd (congrArg Prod.fst (hok.symm.trans hf)) (by simp)
  · intro r tail r' hh hp hd hf
    obtain ⟨r'', hok, hrest⟩ := hh.fill_ok hopens hfits hp (fun h0 => hd (Or.inl h0))
    obtain rfl := (Prod.mk.inj (hok.symm.trans hf)).2
    exact hrest

theorem RangeOpened.honest (hfits : rng.Fits h.chunkSize T.length) (ho : RangeOpened K src raw dek want rng h r)
    (hc : content src = rng.sealed K dek h T) (hends : EndsInEof src) :
    RangeHonest K dek h T rng src r (rng.slice h.chunkSize T) := by
  have hnext : r.next = rng.firstChunk := by rw [ho.fresh]
  have hsrc : r.src = src := by rw [ho.fresh]
  refine ⟨?_, by rw [ho.fresh], by rw [ho.fresh], by rw [ho.fresh], by rw [ho.fresh],
    by rw [hsrc]; exact Steps.refl _, by rw [hsrc]; exact hends, by rw [hsrc, hnext, hc]; rfl,
    Or.inl ⟨by rw [hnext]; exact ho.le, ?_, ?_, ?_⟩⟩
  · exact Emits.init hnext (by rw [ho.fresh]) (by rw [ho.fresh]) (by rw [ho.fresh])
      (by rw [ho.fresh]) (by rw [ho.fresh])
  · rw [ho.fresh]
    rfl
  · rw [ho.fresh]
    exact hfits.skip_lt
  · have := hfits.first_pos
    rw [ho.fresh]
    show rng.firstChunk * h.chunkSize + rng.skip < _
    omega

/-- An honest range is read to its end, whatever the buffers. -/
theorem RangeHonest.run (hopens : Opens K dek h T) (hfits : rng.Fits h.chunkSize T.length)
    (hh : RangeHonest K dek h T rng src r tail)
    (hplain : r.plain = []) (ks : List Nat) :
    (readMany r ks).out <+: tail
      ∧ (∀ e, (readMany r ks).err = some e → e = .eof ∧ (readMany r ks).out = tail)
      ∧ (tail.length < (ks.filter (0 < ·)).length → (readMany r ks).err = some .eof) := by
  have hinv : ∃ tail', tail = r.plain ++ tail' ∧ RangeHonest K dek h T rng src r tail' :=
    ⟨tail, by rw [hplain, nil_append], hh⟩
  obtain ⟨hout, hstop, hend⟩ := (rangeHonest_release hopens hfits src).reads_all
    RangeReader.filler_reads.progress (fun _ _ _ h => ⟨h.1, h.2.1⟩) hinv ks
  exact ⟨hout, fun e he => ⟨(hstop e he).1, (hstop e he).2.1⟩, hend⟩

/-- Verifying the first chunk of an honest range succeeds and releases nothing. -/
theorem RangeOpened.verifyFirst_ok (hopens : Opens K dek h T) (hfits : rng.Fits h.chunkSize T.length)
    (ho : RangeOpened K src raw dek want rng h r)
    (hc : content src = rng.sealed K dek h T) (hends : EndsInEof src) :
    ∃ r', r.verifyFirst = (none, r') ∧ ∃ tail, rng.slice h.chunkSize T = r'.plain ++ tail
      ∧ RangeHonest K dek h T rng src r' tail := by
  have hrem : r.remaining ≠ 0 := by
    have := hfits.first_pos
    rw [ho.fresh]
    show rng.length ≠ 0
    omega
  obtain ⟨r', hf, hrest⟩ := (ho.honest hfits hc hends).fill_ok hopens hfits (by rw [ho.fresh]) hrem
  refine ⟨r', ?_, hrest⟩
  unfold RangeReader.verifyFirst
  rw [show r.err = none by rw [ho.fresh]]
  rw [if_neg (by rw [ho.fresh]; simp), hf]

/-! ## Where the chunks of a range stand -/

theorem sealAll_take_length (K : Crypto) (dek : Bytes) (h : Header) (T : Bytes)
    (hj : j ≤ count h.chunkSize T.length) :
    headerSize + ((Sealer.of K dek h).sealAll ((segmentChunks h.chunkSize T).take j)).length
      = min (headerSize + j * (h.chunkSize + tagSize)) (sealedLen h.params.log2ChunkSize T.length) := by
  have hC := h.chunkSize_pos
  have hall := segmentBytes_length K dek h T
  unfold segmentBytes at hall
  rw [length_append, h.raw_length] at hall
  rcases Nat.lt_or_ge j (count h.chunkSize T.length) with hlt | hge
  · have htake : (segmentChunks h.chunkSize T).take j = openChunks h.chunkSize T j := by
      unfold segmentChunks openChunks
      rw [take_append_of_le_length (by rw [length_map, length_range]; omega),
        ← map_take, take_range, Nat.min_eq_left (by omega)]
    have hlen := sealAll_openChunks_length (Sealer.of K dek h) (mul_le_of_lt_count hC hlt)
    have hle : ((Sealer.of K dek h).sealAll ((segmentChunks h.chunkSize T).take j)).length
        ≤ ((Sealer.of K dek h).sealAll (segmentChunks h.chunkSize T)).length := by
      conv_rhs => rw [← take_append_drop j (segmentChunks h.chunkSize T),
        Sealer.sealAll_append, length_append]
      exact Nat.le_add_right _ _
    rw [htake] at hle ⊢
    omega
  · have hcount : j = count h.chunkSize T.length := by omega
    have hcover := le_count_mul hC T.length
    rw [take_of_length_le (by rw [segmentChunks_length]; omega), hcount]
    have hsize : sealedLen h.params.log2ChunkSize T.length
        = headerSize + T.length + tagSize * count h.chunkSize T.length := rfl
    rw [Nat.mul_add, Nat.mul_comm _ tagSize]
    omega

theorem strides_lt_sealedLen (hj : j < count (2 ^ log2C) n) :
    headerSize + j * (2 ^ log2C + tagSize) < sealedLen log2C n := by
  have hmul := mul_le_of_lt_count (two_pow_pos' log2C) hj
  have hsize : sealedLen log2C n = headerSize + n + tagSize * count (2 ^ log2C) n := rfl
  have htag : tagSize * j < tagSize * count (2 ^ log2C) n :=
    Nat.mul_lt_mul_of_pos_left hj (by decide)
  rw [Nat.mul_add, Nat.mul_comm _ tagSize]
  omega

/-- The ciphertext `MapRange` names holds the chunks of the range. -/
theorem segmentBytes_extract (K : Crypto) (dek : Bytes) (h : Header) (T : Bytes) (hae : a ≤ e)
    (heT : e < T.length) :
    (segmentBytes K dek h T).extract (rangeOf h.params.log2ChunkSize T.length a e).cipherStart
        ((rangeOf h.params.log2ChunkSize T.length a e).cipherEnd + 1)
      = (rangeOf h.params.log2ChunkSize T.length a e).sealed K dek h T := by
  have hfits : (rangeOf h.params.log2ChunkSize T.length a e).Fits h.chunkSize T.length :=
    rangeOf_fits hae heT
  have hlast := hfits.last_lt
  have hle := hfits.first_le
  generalize hrng : rangeOf h.params.log2ChunkSize T.length a e = rng at *
  have hstart : rng.cipherStart = headerSize + rng.firstChunk * (h.chunkSize + tagSize) := by
    rw [← hrng]; rfl
  have hend : rng.cipherEnd = min (headerSize + (rng.lastChunk + 1) * (h.chunkSize + tagSize))
      (sealedLen h.params.log2ChunkSize T.length) - 1 := by rw [← hrng]; rfl
  have h1 := sealAll_take_length K dek h T (j := rng.firstChunk) (by omega)
  have h2 := sealAll_take_length K dek h T (j := rng.lastChunk + 1) hlast
  have hfirst : headerSize + rng.firstChunk * (h.chunkSize + tagSize) ≤ sealedLen h.params.log2ChunkSize T.length :=
    Nat.le_of_lt (strides_lt_sealedLen (hle.trans_lt hlast))
  -- the chunks before the range, those of the range, and those after it
  have hsplit : segmentChunks h.chunkSize T = (segmentChunks h.chunkSize T).take rng.firstChunk
      ++ (rng.chunks h.chunkSize T ++ (segmentChunks h.chunkSize T).drop (rng.lastChunk + 1)) := by
    conv_lhs => rw [← take_append_drop (rng.lastChunk + 1) (segmentChunks h.chunkSize T),
      ← take_append_drop rng.firstChunk
        ((segmentChunks h.chunkSize T).take (rng.lastChunk + 1)), take_take,
      Nat.min_eq_left (by omega), append_assoc]
    rfl
  have hlen : ((Sealer.of K dek h).sealAll ((segmentChunks h.chunkSize T).take rng.firstChunk)
        ++ (Sealer.of K dek h).sealAll (rng.chunks h.chunkSize T)).length
      = ((Sealer.of K dek h).sealAll ((segmentChunks h.chunkSize T).take (rng.lastChunk + 1))).length := by
    rw [← Sealer.sealAll_append]
    conv_rhs => rw [← take_append_drop rng.firstChunk
      ((segmentChunks h.chunkSize T).take (rng.lastChunk + 1)), take_take,
      Nat.min_eq_left (by omega)]
    rfl
  rw [length_append] at hlen
  have hheader : 0 < headerSize := by decide
  unfold segmentBytes
  rw [hsplit, Sealer.sealAll_append, Sealer.sealAll_append, ← append_assoc,
    extract_eq_take_drop, drop_left' (by rw [length_append, h.raw_length]; omega),
    take_left']
  omega

end BlindBucket.Stream
