import BlindBucket.Stream.Range
import BlindBucket.Stream.Sound

/-!
# Soundness of range reads

The caller of a range reader chose the chunks, the flag and the offset from values the
storage provider may have made up. What is emitted are still bytes of one encoder run,
at the offset that the chunk size *in the authenticated header* gives, and a read that
reaches `EOF` has opened every chunk of the range under the flag the caller gave.
-/

namespace BlindBucket.Stream

open ByteIo Blocks List

variable {σ : Type}

/-- A range reader on a segment of the run `t`: it emits that run's bytes, and it has opened every
chunk behind it under the caller's flag. -/
structure RangeTraced (K : Crypto) (dek : Bytes) (t : Transcript) (rng : Range)
    (r : RangeReader σ) (tail : Bytes) : Prop where
  emits : Emits t.header.chunkSize t.plain (rng.slice t.header.chunkSize t.plain) rng.length r tail
  sealer : r.sealer = Sealer.of K dek t.header
  log2C : r.log2C = t.header.params.log2ChunkSize
  rng_eq : r.rng = rng
  opened : ∀ i, rng.firstChunk ≤ i → i < r.next →
    (⟨i, rng.flag i, block t.header.chunkSize t.plain i⟩ : Chunk) ∈ t.chunks
  fresh : r.next = rng.firstChunk → r.remaining = rng.length ∧ r.plain = []
  skip : r.skip = if r.next = rng.firstChunk then rng.skip else 0
  first_le : rng.firstChunk ≤ r.next
  reached : r.next = rng.firstChunk ∨ rng.firstChunk * t.header.chunkSize + rng.skip
    + (rng.length - r.remaining + r.plain.length) ≤ r.next * t.header.chunkSize

variable {K : Crypto} {dek raw : Bytes} {t : Transcript} {rng : Range} {r r' : RangeReader σ} {src : σ}
  {want : SegmentParams} {S : Set Transcript}

theorem RangeTraced.serve {tail : Bytes} (hr : RangeTraced K dek t rng r tail) (k : Nat) :
    RangeTraced K dek t rng (r.serve k) tail := by
  have hlen : (r.plain.take k).length + (r.plain.drop k).length = r.plain.length := by
    rw [length_take, length_drop]; omega
  refine ⟨hr.emits.serve k, hr.sealer, hr.log2C, hr.rng_eq, hr.opened, ?_, hr.skip, hr.first_le, ?_⟩
  · intro h
    obtain ⟨h1, h2⟩ := hr.fresh h
    show r.remaining - (r.plain.take k).length = rng.length ∧ r.plain.drop k = []
    rw [h2] at *
    simp [h1]
  · refine hr.reached.imp id ?_
    intro h
    show rng.firstChunk * t.header.chunkSize + rng.skip
      + (rng.length - (r.remaining - (r.plain.take k).length) + (r.plain.drop k).length)
        ≤ r.next * t.header.chunkSize
    omega

theorem RangeOpened.traced (ho : RangeOpened K src raw dek want rng t.header r) :
    RangeTraced K dek t rng r (rng.slice t.header.chunkSize t.plain) := by
  have hnext : r.next = rng.firstChunk := by rw [ho.fresh]
  refine ⟨?_, by rw [ho.fresh], by rw [ho.fresh], by rw [ho.fresh], ?_, ?_, ?_, ?_, Or.inl hnext⟩
  · exact Emits.init hnext (by rw [ho.fresh]) (by rw [ho.fresh]) (by rw [ho.fresh])
      (by rw [ho.fresh]) (by rw [ho.fresh])
  · omega
  · intro _
    rw [ho.fresh]
    exact ⟨rfl, rfl⟩
  · rw [if_pos hnext, ho.fresh]
  · omega

variable [ByteReader σ GoErr] [LawfulReader σ]

theorem RangeReader.fill_ne_eof {e : Error} (herr : r.err = none) (hf : r.fill = (some e, r')) : e ≠ .eof := by
  have hset : ∀ (q : RangeReader σ) (e' : Error), q.err = none → e' ≠ .eof → q.setErr e' = (some e, r') → e ≠ .eof := by
    intro q e' hq hne heq
    unfold RangeReader.setErr at heq
    rw [hq] at heq
    obtain rfl := Option.some.inj (Prod.mk.inj heq).1
    exact hne
  cases hheld : r.held with
  | false =>
    unfold RangeReader.fill at hf
    rw [if_pos hheld] at hf
    exact hset r _ herr (by simp [integrityf]) hf
  | true =>
    cases fill_cases hheld with
    | cut e' s hne _ _ heq =>
      rw [heq] at hf
      exact hset { r with src := s } e' herr hne hf
    | chunk s _ _ _ _ heq =>
      rw [heq] at hf
      unfold RangeReader.openNext at hf
      split at hf
      next e' he' =>
        exact hset { r with src := s } e' herr (fun h => Sealer.openChunk_ne_eof (h ▸ he')) hf
      · split at hf
        · exact hset { r with src := s } _ herr (by simp [chunkErrorf]) hf
        · exact absurd (congrArg Prod.fst hf) (by simp)

theorem RangeTraced.fill (hs : Secure K dek S) (ht : t ∈ S) (hlast : rng.lastChunk < 256 ^ 8) {tail : Bytes}
    (hr : RangeTraced K dek t rng r tail) (hp : r.plain = []) (hf : r.fill = (none, r')) :
    ∃ tail', tail = r'.plain ++ tail' ∧ RangeTraced K dek t rng r' tail' := by
  have hC := t.header.chunkSize_pos
  obtain ⟨src, p, hnext, _, _, _, hopen, hskip, rfl⟩ := RangeReader.fill_none hf
  have hflag : r.isFinal = rng.flag r.next := by
    unfold RangeReader.isFinal Range.flag
    rw [hr.rng_eq]
  rw [hr.rng_eq] at hnext
  rw [hr.sealer, hflag] at hopen
  obtain ⟨hmem, _⟩ := hs.opened_of ht (by omega) hopen
  have hplain : p = block t.header.chunkSize t.plain r.next := (t.shape.mem hC hmem).1
  rw [hplain] at hskip hmem ⊢
  obtain ⟨tail', htail, hemits⟩ := hr.emits.next_block hp hskip src
  refine ⟨tail', htail, hemits, hr.sealer, hr.log2C, hr.rng_eq, ?_, ?_, ?_, ?_, Or.inr ?_⟩
  · intro i hi hlt
    rcases Nat.lt_or_ge i r.next with h | h
    · exact hr.opened i hi h
    · obtain rfl : i = r.next := Nat.le_antisymm (Nat.le_of_lt_succ hlt) h
      exact hmem
  · intro h
    have := hr.first_le
    have h' : r.next + 1 = rng.firstChunk := h
    omega
  · have := hr.first_le
    show 0 = if r.next + 1 = rng.firstChunk then rng.skip else 0
    rw [if_neg (by omega)]
  · have := hr.first_le
    show rng.firstChunk ≤ r.next + 1
    omega
  · -- what was emitted so far lies within the chunks that were opened
    have hb := block_length_le t.header.chunkSize t.plain r.next
    have hlen : (((block t.header.chunkSize t.plain r.next).drop r.skip).take r.remaining).length
        ≤ t.header.chunkSize - r.skip := by
      rw [length_take, length_drop]
      omega
    show rng.firstChunk * t.header.chunkSize + rng.skip + (rng.length - r.remaining
      + (((block t.header.chunkSize t.plain r.next).drop r.skip).take r.remaining).length)
        ≤ (r.next + 1) * t.header.chunkSize
    rw [Nat.add_mul]
    have hsk := hr.skip
    rcases hr.reached with hfirst | hreached
    · obtain ⟨hrem, _⟩ := hr.fresh hfirst
      rw [if_pos hfirst] at hsk
      have hmul : r.next * t.header.chunkSize = rng.firstChunk * t.header.chunkSize := by
        rw [hfirst]
      rcases Nat.eq_zero_or_pos r.skip with h0 | h0
      · omega
      · omega
    · omega

/-- What is known when a range reader stops: `EOF` comes once everything that was asked for was
there, and every chunk it lies in was opened under the caller's flag. -/
def RangeStopped (t : Transcript) (rng : Range) (e : Error) (rest : Bytes) : Prop :=
  e = .eof → rest = [] ∧ (rng.slice t.header.chunkSize t.plain).length = rng.length
    ∧ ∀ i, rng.firstChunk ≤ i →
      i * t.header.chunkSize < rng.firstChunk * t.header.chunkSize + rng.skip + rng.length →
      (⟨i, rng.flag i, block t.header.chunkSize t.plain i⟩ : Chunk) ∈ t.chunks

theorem rangeTraced_release (hs : Secure K dek S) (ht : t ∈ S) (hlast : rng.lastChunk < 256 ^ 8) (hpos : 0 < rng.length) :
    ReleaseInv (fun (r : RangeReader σ) data => ∃ tail, data = r.plain ++ tail
        ∧ RangeTraced K dek t rng r tail) (fun _ => RangeStopped t rng) := by
  apply RangeReader.filler_reads.releaseInv
  · intro r tail hr
    exact hr.emits.err
  · intro r tail k hr
    exact hr.serve k
  · intro r tail hr hp hd _
    obtain ⟨htail, hD⟩ := hr.emits.finished hp hd
    have hrem : r.remaining = 0 := hd.elim id hr.emits.done
    refine ⟨htail, hD, ?_⟩
    intro i hi hlt
    rcases hr.reached with hfirst | hreached
    · -- nothing was asked for at all
      have := (hr.fresh hfirst).1
      omega
    · refine hr.opened i hi ?_
      by_contra hge
      have hmul : r.next * t.header.chunkSize ≤ i * t.header.chunkSize :=
        Nat.mul_le_mul_right _ (Nat.le_of_not_lt hge)
      omega
  · intro r tail e r' hr _ _ hf heof
    exact absurd heof (RangeReader.fill_ne_eof hr.emits.err hf)
  · intro r tail r' hr hp _ hf
    exact hr.fill hs ht hlast hp hf

/-- A first chunk that verifies belongs to a run of the encoder, and nothing of it was emitted. -/
theorem RangeOpened.verifyFirst (hs : Secure K dek S) {h : Header} (hlast : rng.lastChunk < 256 ^ 8)
    (ho : RangeOpened K src raw dek want rng h r) (hv : r.verifyFirst = (none, r')) :
    ∃ t ∈ S, t.header = h ∧ ∃ tail, rng.slice t.header.chunkSize t.plain = r'.plain ++ tail
      ∧ RangeTraced K dek t rng r' tail := by
  have hnext : r.next = rng.firstChunk := by rw [ho.fresh]
  have hf : r.fill = (none, r') := by
    unfold RangeReader.verifyFirst at hv
    rw [show r.err = none by rw [ho.fresh]] at hv
    rw [if_neg (by rw [ho.fresh]; simp)] at hv
    exact hv
  obtain ⟨_, p, _, _, _, _, hopen, _⟩ := RangeReader.fill_none hf
  rw [show r.sealer = Sealer.of K dek h by rw [ho.fresh]] at hopen
  have hle := ho.le
  obtain ⟨t, ht, rfl, _⟩ := hs.opened (by omega) hopen
  obtain ⟨tail', htail, hr'⟩ := ho.traced.fill hs ht hlast (by rw [ho.fresh]) hf
  exact ⟨t, ht, rfl, tail', htail, hr'⟩

/-- What a range reader that verified its first chunk makes of any bytes. -/
structure RangeVerdict (t : Transcript) (rng : Range) (q : ReadResult (RangeReader σ) GoErr) : Prop where
  released : q.out <+: rng.slice t.header.chunkSize t.plain
  /-- `EOF` comes only when all that was asked for was there and every chunk it lies in opened
  under the flag that the caller gave. -/
  eof : q.err = some .eof → q.out = rng.slice t.header.chunkSize t.plain ∧ q.out.length = rng.length
    ∧ ∀ i, rng.firstChunk ≤ i →
      i * t.header.chunkSize < rng.firstChunk * t.header.chunkSize + rng.skip + rng.length →
      (⟨i, rng.flag i, block t.header.chunkSize t.plain i⟩ : Chunk) ∈ t.chunks

/-- **Soundness of range reads.** Once the first chunk has verified, everything that is emitted is
what one run of the encoder has at the offset which the chunk size of *its* header gives. -/
theorem range_verdict (hs : Secure K dek S) (hlast : rng.lastChunk < 256 ^ 8) (hpos : 0 < rng.length)
    (hr : newRangeReader K src raw dek want rng = .ok r) (hv : r.verifyFirst = (none, r')) :
    ∃ t ∈ S, t.header.raw = raw ∧ t.header.params.Meets want
      ∧ (∃ N, ∀ ks : List Nat, N < (ks.filter (0 < ·)).length → (readMany r' ks).err ≠ none)
      ∧ ∀ ks : List Nat, RangeVerdict t rng (readMany r' ks) := by
  obtain ⟨h, ho⟩ := newRangeReader_ok hr
  obtain ⟨t, ht, rfl, hI⟩ := ho.verifyFirst hs hlast hv
  have hrel := rangeTraced_release (σ := σ) hs ht hlast hpos
  refine ⟨t, ht, ho.raw_eq, ho.params,
    ⟨_, fun ks hks => hrel.terminates RangeReader.filler_reads.progress ks hI hks⟩, ?_⟩
  intro ks
  obtain ⟨rest, hdata, hrun⟩ := hrel.readMany ks hI
  refine ⟨⟨rest, hdata.symm⟩, ?_⟩
  intro heof
  rw [heof] at hrun
  obtain ⟨rfl, hlen, hchunks⟩ := hrun rfl
  rw [append_nil] at hdata
  exact ⟨hdata.symm, by rw [← hdata]; exact hlen, hchunks⟩

end BlindBucket.Stream
