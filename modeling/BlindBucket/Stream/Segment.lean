import BlindBucket.Stream.Encrypt

/-!
# Segments

`segmentBytes` is the wire form of a plaintext: the header and its chunks. It depends
on nothing but the data key, the header and the plaintext, and its length is what
`SealedSize` announces. `encrypt_run` says that every way of writing the plaintext
and closing produces it.
-/

namespace BlindBucket.Stream

open ByteIo Blocks List

/-- The segment of `T` under header `h`. -/
def segmentBytes (K : Crypto) (dek : Bytes) (h : Header) (T : Bytes) : Bytes :=
  h.raw ++ (Sealer.of K dek h).sealAll (segmentChunks h.chunkSize T)

theorem segmentChunks_length (C : Nat) (T : Bytes) : (segmentChunks C T).length = count C T.length := by
  have := count_pos C T.length
  simp only [segmentChunks, openChunks, length_append, length_map, length_range,
    length_singleton]
  omega

/-- Chunk `i` of the segment of `T`: only the last one is final. -/
def chunkAt (C : Nat) (T : Bytes) (i : Nat) : Chunk :=
  ⟨i, decide (i + 1 = count C T.length), block C T i⟩

theorem segmentChunks_eq_map (C : Nat) (T : Bytes) :
    segmentChunks C T = (List.range (count C T.length)).map (chunkAt C T) := by
  obtain ⟨k, hk⟩ : ∃ k, count C T.length = k + 1 :=
    ⟨count C T.length - 1, by have := count_pos C T.length; omega⟩
  unfold segmentChunks finalChunk openChunks
  rw [hk, range_succ, map_append]
  congr 1
  · apply map_congr_left
    intro i hi
    have hik := mem_range.mp hi
    unfold chunkAt
    rw [decide_eq_false (by omega)]
  · simp [chunkAt, hk]

variable {C : Nat} {T : Bytes} {K : Crypto}

theorem drop_segmentChunks {i : Nat} (h : i < count C T.length) :
    (segmentChunks C T).drop i = chunkAt C T i :: (segmentChunks C T).drop (i + 1) := by
  rw [segmentChunks_eq_map]
  rw [drop_eq_getElem_cons (by simpa using h)]
  simp

theorem sealAll_openChunks_length (s : Sealer) {k : Nat} (hk : k * C ≤ T.length) :
    (s.sealAll (openChunks C T k)).length = k * (C + tagSize) := by
  induction k with
  | zero => rw [Nat.zero_mul]; rfl
  | succ k ih =>
    rw [Nat.add_mul] at hk
    have hblock : (block C T k).length = C := by rw [block_length]; omega
    rw [openChunks_succ, Sealer.sealAll_append, length_append, ih (by omega),
      Sealer.sealAll_singleton, Sealer.sealed, Sealer.sealChunk_length, hblock]
    ring

/-- **The length of a segment is what `SealedSize` says.** -/
theorem segmentBytes_length (K : Crypto) (dek : Bytes) (h : Header) (T : Bytes) :
    (segmentBytes K dek h T).length = sealedLen h.params.log2ChunkSize T.length := by
  have hC := h.chunkSize_pos
  have hpos := count_pos h.chunkSize T.length
  have hle : (count h.chunkSize T.length - 1) * h.chunkSize ≤ T.length :=
    mul_le_of_lt_count hC (by omega)
  have hlast := block_length_last hC (P := T) (i := count h.chunkSize T.length - 1) (by omega)
  unfold segmentBytes segmentChunks
  rw [length_append, h.raw_length, Sealer.sealAll_append, length_append,
    sealAll_openChunks_length _ hle, Sealer.sealAll_singleton, Sealer.sealed,
    Sealer.sealChunk_length, finalChunk]
  rw [hlast]
  show _ = headerSize + T.length + tagSize * count h.chunkSize T.length
  generalize count h.chunkSize T.length = c at *
  obtain ⟨k, rfl⟩ : ∃ k, c = k + 1 := ⟨c - 1, by omega⟩
  rw [Nat.add_sub_cancel] at *
  rw [Nat.mul_add k, Nat.mul_comm tagSize, Nat.add_mul k 1]
  omega

namespace EncryptWriter

variable {δ : Type} [ByteWriter δ GoErr]

theorem run_append (w : EncryptWriter δ) (as bs : List Op) : w.run (as ++ bs)
      = (((w.run as).1.run bs).1, (w.run as).2 ++ ((w.run as).1.run bs).2) := by
  induction as generalizing w with
  | nil => rfl
  | cons a as ih =>
    show ((((w.step a).1.run (as ++ bs)).1), (w.step a).2 ++ ((w.step a).1.run (as ++ bs)).2) = _
    rw [ih]
    simp only [run, append_assoc]

variable [LawfulWriter δ]

/-- An encoder that is open and without an error has `T`, and holds back its last block. -/
structure Holding (base : Bytes) (w : EncryptWriter δ) (T : Bytes) : Prop where
  assembling : w.Assembling base T
  held : w.next = 0 ∨ w.buf ≠ []
  total : w.total = T.length
  total_le : T.length ≤ maxPlaintextSize

variable {base dek : Bytes} {w : EncryptWriter δ} {dst : δ} {h : Header}

theorem EncInv.holding (h : w.EncInv base T) (herr : w.err = none) (hclosed : w.closed = false) : w.Holding base T := by
  rcases h.phase with ⟨hasm, hheld⟩ | hfin | hfail
  · exact ⟨hasm, hheld, h.total, h.total_le⟩
  · rw [hfin.closed] at hclosed
    simp at hclosed
  · exact absurd herr hfail.err

/-- A write is accepted whole, or it fails; it fails only with the sink or for its length. -/
theorem Holding.write (h : w.Holding base T) (p : Bytes) :
    ((w.write p).err = none ∧ (w.write p).n = p.length ∧ (w.write p).next.Holding base (T ++ p)
        ∧ Same w (w.write p).next)
      ∨ ((w.write p).err ≠ none ∧ ¬ (NeverFails δ ∧ T.length + p.length ≤ maxPlaintextSize)) := by
  have hw : w.write p = w.writeLoop p.length p 0 := by
    unfold EncryptWriter.write
    rw [h.assembling.err]
    rw [if_neg (by rw [h.assembling.closed]; simp)]
  obtain ⟨m, hm⟩ := writeLoop_spec p.length 0 le_rfl h.assembling h.total h.total_le
    (Or.inr h.held)
  rw [← hw] at hm
  by_cases hok : (w.write p).err = none
  · obtain ⟨hmlen, herr, hclosed⟩ := hm.ok hok
    have hinv := hm.inv
    rw [hmlen, take_length] at hinv
    refine Or.inl ⟨hok, ?_, hinv.holding herr hclosed, hm.same⟩
    rw [hm.count, Nat.zero_add, hmlen]
  · refine Or.inr ⟨hok, ?_⟩
    rintro ⟨hnever, hfits⟩
    exact hok (hm.total hnever hfits)

theorem run_writes (hnever : NeverFails δ) (ps : List Bytes) :
    ∀ {w : EncryptWriter δ} {T : Bytes}, w.Holding base T →
      T.length + ps.flatten.length ≤ maxPlaintextSize →
      (w.run (ps.map .write)).2 = ps.flatten
        ∧ (w.run (ps.map .write)).1.Holding base (T ++ ps.flatten) := by
  induction ps with
  | nil =>
    intro w T h _
    rw [flatten_nil, append_nil]
    exact ⟨rfl, h⟩
  | cons p ps ih =>
    intro w T h hle
    rw [flatten_cons, length_append] at hle
    rcases h.write p with ⟨-, hn, hnext, -⟩ | ⟨-, hbad⟩
    · obtain ⟨h1, h2⟩ := ih hnext (by rw [length_append]; omega)
      rw [append_assoc] at h2
      refine ⟨?_, h2⟩
      show p.take (w.write p).n ++ ((w.write p).next.run (ps.map .write)).2 = _
      rw [hn, take_length, h1, flatten_cons]
    · exact absurd ⟨hnever, by omega⟩ hbad

theorem holding_new (hw : newEncryptWriter K dst dek h = .ok w) : w.Holding (written dst) [] := by
  have hinv := (encInv_new hw).1
  rw [newEncryptWriter_ok dst h (encInv_new hw).2.2.2] at hw
  cases hw
  exact hinv.holding rfl rfl

/-- **Writing a plaintext in any pieces and closing produces its segment.** -/
theorem encrypt_run (hnever : NeverFails δ) (hw : newEncryptWriter K dst dek h = .ok w) (ps : List Bytes)
    (hle : ps.flatten.length ≤ maxPlaintextSize) :
    (w.run (ps.map .write ++ [.close])).2 = ps.flatten
      ∧ (w.run (ps.map .write ++ [.close])).1.err = none
      ∧ (w.run (ps.map .write ++ [.close])).1.sealed = segmentChunks h.chunkSize ps.flatten
      ∧ written (w.run (ps.map .write ++ [.close])).1.dst = written dst ++ segmentBytes K dek h ps.flatten := by
  obtain ⟨hinv, hheader, hsealer, _⟩ := encInv_new hw
  obtain ⟨hacc, hasm⟩ := run_writes hnever ps (holding_new hw) (by simpa using hle)
  rw [nil_append] at hasm
  have hsame := (encInv_run (ps.map .write) hinv).2
  obtain ⟨hsame', _, ⟨_, hfin⟩ | ⟨_, _, hnf⟩⟩ := hasm.assembling.close hasm.held
  · rw [run_append, hacc]
    have hsealed := hfin.sealed
    rw [hsame'.1, hsame.1, hheader] at hsealed
    refine ⟨append_nil _, hfin.err, hsealed, ?_⟩
    show written ((w.run (ps.map .write)).1.close.2).dst = _
    rw [hfin.written, hfin.sealed]
    unfold output segmentBytes
    rw [hsame'.1, hsame'.2, hsame.1, hsame.2, hheader, hsealer]
  · exact absurd hnever hnf

end EncryptWriter

/-- Every chunk of the segment of `T` opens where it stands. -/
def Opens (K : Crypto) (dek : Bytes) (h : Header) (T : Bytes) : Prop :=
  ∀ i, i < count h.chunkSize T.length →
    (Sealer.of K dek h).openChunk ((Sealer.of K dek h).sealed (chunkAt h.chunkSize T i)) i
      (decide (i + 1 = count h.chunkSize T.length)) = .ok (block h.chunkSize T i)

theorem Opens.of_correct (hK : K.gcm.Correct) (dek : Bytes) (h : Header) (T : Bytes) : Opens K dek h T := by
  intro i _
  exact Sealer.openChunk_ok.mpr (hK ..)

end BlindBucket.Stream
