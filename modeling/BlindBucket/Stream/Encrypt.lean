import BlindBucket.Stream.Chunk
import BlindBucket.Stream.Size
import BlindBucket.Lib.Writer

/-!
# The encoder

`EncryptWriter` collects plaintext into chunks. A full buffer is held back until more
plaintext arrives, since only then is it known not to be the last; `Close` seals what
is held as the final chunk.

What every run of the encoder keeps is `EncInv`: whatever was accepted so far, the
chunks handed to the cipher are its first blocks, sealed as non-final, and a final
chunk is sealed only by `Close` and only over all of it. `EncInv` holds for every
sequence of calls and for a sink that may fail at any point.
-/

namespace BlindBucket.Stream

open ByteIo Blocks List Option

/--
The state of an encoder. `buf` holds the plaintext of the chunk being assembled.
`sealed` is not in the source: it records what was handed to the cipher.
-/
structure EncryptWriter (δ : Type) where
  dst : δ
  header : Header
  sealer : Sealer
  buf : Bytes := []
  next : Nat := 0
  total : Nat := 0
  headerWritten : Bool := false
  closed : Bool := false
  err : Option Error := none
  sealed : List Chunk := []

variable {δ : Type}

def newEncryptWriter (K : Crypto) (dst : δ) (dek : Bytes) (h : Header) : Try (EncryptWriter δ) := do
  let s ← newSealer K dek h
  .ok { dst := dst, header := h, sealer := s }

variable {K : Crypto} {dek : Bytes} {k : Nat}

theorem newEncryptWriter_ok (dst : δ) (h : Header) (hlen : dek.length = keySize) : newEncryptWriter K dst dek h
      = .ok { dst := dst, header := h, sealer := Sealer.of K dek h } := by
  unfold newEncryptWriter
  rw [newSealer_ok_iff.mpr ⟨hlen, rfl⟩]
  rfl

variable [ByteWriter δ GoErr]

namespace EncryptWriter

variable (w : EncryptWriter δ)

/-- The first error stays. -/
def fail (e : Error) : EncryptWriter δ :=
  { w with err := w.err.or (some e) }

/-- The second half of `flush`: seal the buffer as chunk `next` and write it. -/
def flushChunk (final : Bool) : Option Error × EncryptWriter δ :=
  let c : Chunk := ⟨w.next, final, w.buf⟩
  let r := ByteWriter.write w.dst (w.sealer.sealed c)
  let w' := { w with dst := r.next, sealed := w.sealed ++ [c] }
  match r.err with
  | some e => ((w'.fail e).err, w'.fail e)
  | none => (none, { w' with next := w.next + 1, buf := [] })

/-- The header goes out before the first chunk. -/
def flush (final : Bool) : Option Error × EncryptWriter δ :=
  if w.headerWritten then w.flushChunk final
  else
    let r := ByteWriter.write w.dst w.header.raw
    let w' := { w with dst := r.next }
    match r.err with
    | some e => ((w'.fail e).err, w'.fail e)
    | none => ({ w' with headerWritten := true }).flushChunk final

/-- What `Write` returns: how much was accepted, and an error. -/
structure WriteReturn (δ : Type) where
  n : Nat
  err : Option Error
  next : EncryptWriter δ

def tooLong : Error :=
  errorf "stream: segment exceeds the maximum plaintext size of %d bytes" [.int maxPlaintextSize]

/-- Put the next bytes of `p` into the buffer, as many as fit. -/
def take (w : EncryptWriter δ) (p : Bytes) (k : Nat) : EncryptWriter δ :=
  { w with buf := w.buf ++ p.take k, total := w.total + k }

/-- The loop of `Write`. Every round takes at least one byte, so `p.length` rounds are enough. -/
def writeLoop : Nat → EncryptWriter δ → Bytes → Nat → WriteReturn δ
  | 0, w, _, n => ⟨n, none, w⟩
  | fuel + 1, w, p, n =>
    if p = [] then ⟨n, none, w⟩
    else
      -- more plaintext follows, so a full buffer is not the final chunk
      let f := if w.buf.length = w.header.chunkSize then w.flush false else (none, w)
      match f.1 with
      | some e => ⟨n, some e, f.2⟩
      | none =>
        let k := min (w.header.chunkSize - f.2.buf.length) p.length
        if maxPlaintextSize < f.2.total + k then ⟨n, (f.2.fail tooLong).err, f.2.fail tooLong⟩
        else writeLoop fuel (f.2.take p k) (p.drop k) (n + k)

def errWriterClosed : Error :=
  wrapf .writerClosed "stream: write to closed EncryptWriter" []

def write (p : Bytes) : WriteReturn δ :=
  match w.err with
  | some e => ⟨0, some e, w⟩
  | none => if w.closed then ⟨0, some errWriterClosed, w⟩ else w.writeLoop p.length p 0

/-- An empty buffer is flushed too, as the one chunk of an empty segment. -/
def close : Option Error × EncryptWriter δ :=
  if w.closed then (w.err, w)
  else
    match w.err with
    | some e => (some e, { w with closed := true })
    | none => ({ w with closed := true }).flush true

inductive Op where
  | write (p : Bytes)
  | close
deriving DecidableEq, Repr

/-- One call: the encoder afterwards and the plaintext it accepted. -/
def step : Op → EncryptWriter δ × Bytes
  | .write p => ((w.write p).next, p.take (w.write p).n)
  | .close => (w.close.2, [])

def run (w : EncryptWriter δ) : List Op → EncryptWriter δ × Bytes
  | [] => (w, [])
  | op :: ops =>
    let r := (w.step op).1.run ops
    (r.1, (w.step op).2 ++ r.2)

end EncryptWriter

/-! ## The chunks of a plaintext -/

/-- The first `k` chunks of `T`, sealed as non-final. -/
def openChunks (C : Nat) (T : Bytes) (k : Nat) : List Chunk :=
  (List.range k).map (fun i => ⟨i, false, block C T i⟩)

def finalChunk (C : Nat) (T : Bytes) : Chunk :=
  ⟨count C T.length - 1, true, block C T (count C T.length - 1)⟩

def segmentChunks (C : Nat) (T : Bytes) : List Chunk :=
  openChunks C T (count C T.length - 1) ++ [finalChunk C T]

theorem openChunks_succ (C : Nat) (T : Bytes) (k : Nat) :
    openChunks C T (k + 1) = openChunks C T k ++ [⟨k, false, block C T k⟩] := by
  simp [openChunks, range_succ]

theorem openChunks_append {C : Nat} {T Q : Bytes} (h : k * C ≤ T.length) :
    openChunks C (T ++ Q) k = openChunks C T k := by
  apply map_congr_left
  intro i hi
  have hik : i + 1 ≤ k := mem_range.mp hi
  rw [block_append (Nat.le_trans (Nat.mul_le_mul_right C hik) h)]

/-! ## What a run keeps -/

namespace EncryptWriter

variable [LawfulWriter δ]

/-- The bytes a sink should have once these chunks are out. -/
def output (w : EncryptWriter δ) (cs : List Chunk) : Bytes := w.header.raw ++ w.sealer.sealAll cs

/-- The sink holds what was flushed, after what it held before. -/
def Flushed (base : Bytes) (w : EncryptWriter δ) : Prop :=
  (w.headerWritten = false → w.sealed = []) ∧
    written w.dst = base ++ if w.headerWritten then w.output w.sealed else []

variable {w : EncryptWriter δ}

/-- How a flush goes: the chunk is out, or the sink failed before or while it took the chunk. -/
theorem flushChunk_spec {base : Bytes} (final : Bool) (herr : w.err = none)
    (hf : written w.dst = base ++ w.output w.sealed) :
    (∃ d, w.flushChunk final = (none, { w with
          dst := d, sealed := w.sealed ++ [⟨w.next, final, w.buf⟩], next := w.next + 1, buf := [] })
        ∧ written d = base ++ w.output (w.sealed ++ [⟨w.next, final, w.buf⟩]))
    ∨ (∃ e d, w.flushChunk final = (some e, { w with
          dst := d, sealed := w.sealed ++ [⟨w.next, final, w.buf⟩], err := some e })
        ∧ ¬ NeverFails δ
        ∧ ∃ pre, written d = base ++ pre ∧ pre <+: w.output (w.sealed ++ [⟨w.next, final, w.buf⟩])) := by
  have hout : w.output (w.sealed ++ [⟨w.next, final, w.buf⟩])
      = w.output w.sealed ++ w.sealer.sealed ⟨w.next, final, w.buf⟩ := by
    unfold output
    rw [Sealer.sealAll_append, Sealer.sealAll_singleton, append_assoc]
  unfold flushChunk
  dsimp only
  split
  next e he =>
    right
    obtain ⟨m, _, hm, _⟩ := LawfulWriter.written_write w.dst
      (w.sealer.sealed ⟨w.next, final, w.buf⟩)
    refine ⟨e, (ByteWriter.write w.dst (w.sealer.sealed ⟨w.next, final, w.buf⟩)).next,
      by simp only [fail, herr, none_or], ?_, ?_⟩
    · intro hnever
      rw [hnever] at he
      simp at he
    · refine ⟨w.output w.sealed ++ (w.sealer.sealed ⟨w.next, final, w.buf⟩).take m, ?_, ?_⟩
      · rw [hm, hf, append_assoc]
      · rw [hout]
        exact (prefix_append_right_inj _).mpr <| take_prefix _ _
  next he =>
    left
    refine ⟨_, rfl, ?_⟩
    rw [written_of_ok he, hf, hout, append_assoc]

theorem flush_spec {base : Bytes} (w : EncryptWriter δ) (final : Bool)
    (herr : w.err = none) (hf : w.Flushed base) :
    (∃ d, w.flush final = (none, { w with
          dst := d, headerWritten := true, sealed := w.sealed ++ [⟨w.next, final, w.buf⟩],
          next := w.next + 1, buf := [] })
        ∧ written d = base ++ w.output (w.sealed ++ [⟨w.next, final, w.buf⟩]))
    ∨ (∃ e d hw cs, w.flush final = (some e, { w with
          dst := d, headerWritten := hw, sealed := w.sealed ++ cs, err := some e })
        ∧ (cs = [] ∨ cs = [⟨w.next, final, w.buf⟩])
        ∧ ¬ NeverFails δ
        ∧ ∃ pre, written d = base ++ pre ∧ pre <+: w.output (w.sealed ++ cs)) := by
  obtain ⟨hempty, hwritten⟩ := hf
  unfold flush
  split
  next hw =>
    rw [if_pos hw] at hwritten
    rcases flushChunk_spec final herr hwritten with ⟨d, h1, h2⟩ | ⟨e, d, h1, h2, h3⟩
    · left
      exact ⟨d, by rw [h1, hw], h2⟩
    · right
      exact ⟨e, d, true, _, by rw [h1, hw], Or.inr rfl, h2, h3⟩
  next hw =>
    have hw' : w.headerWritten = false := by simpa using hw
    have hnil := hempty hw'
    rw [if_neg hw, append_nil] at hwritten
    dsimp only
    split
    · -- the sink failed on the header
      rename_i e he
      right
      obtain ⟨m, _, hm, _⟩ := LawfulWriter.written_write w.dst w.header.raw
      refine ⟨e, (ByteWriter.write w.dst w.header.raw).next, w.headerWritten, [], ?_,
        Or.inl rfl, ?_, w.header.raw.take m, ?_, ?_⟩
      · simp only [fail, herr, none_or, append_nil]
      · intro hnever
        rw [hnever] at he
        simp at he
      · rw [hm, hwritten]
      · refine IsPrefix.trans ?_ (prefix_append _ _)
        exact take_prefix _ _
    next he =>
      have hbase : written (ByteWriter.write w.dst w.header.raw).next = base ++ w.output w.sealed := by
        rw [written_of_ok he, hwritten, hnil, output, Sealer.sealAll_nil, append_nil]
      rcases flushChunk_spec (w := { w with dst := (ByteWriter.write w.dst w.header.raw).next, headerWritten := true })
          final herr hbase with ⟨d, h1, h2⟩ | ⟨e, d, h1, h2, h3⟩
      · left
        exact ⟨d, h1, h2⟩
      · right
        exact ⟨e, d, true, _, h1, Or.inr rfl, h2, h3⟩

/-- Between calls: the buffer holds what was accepted and not sealed yet. -/
structure Assembling (base : Bytes) (w : EncryptWriter δ) (T : Bytes) : Prop where
  err : w.err = none
  closed : w.closed = false
  sealed : w.sealed = openChunks w.header.chunkSize T w.next
  le : w.next * w.header.chunkSize ≤ T.length
  buf : w.buf = T.drop (w.next * w.header.chunkSize)
  room : w.buf.length ≤ w.header.chunkSize
  headerWritten : w.headerWritten = decide (0 < w.next)
  written : written w.dst = base ++ if 0 < w.next then w.output w.sealed else []

structure Finished (base : Bytes) (w : EncryptWriter δ) (T : Bytes) : Prop where
  err : w.err = none
  closed : w.closed = true
  sealed : w.sealed = segmentChunks w.header.chunkSize T
  written : written w.dst = base ++ w.output w.sealed

/-- After an error: some blocks were sealed, perhaps all of them and the final one. -/
structure Failed (base : Bytes) (w : EncryptWriter δ) (T : Bytes) : Prop where
  err : w.err ≠ none
  sealed : (∃ k, k * w.header.chunkSize ≤ T.length ∧ w.sealed = openChunks w.header.chunkSize T k)
    ∨ w.sealed = segmentChunks w.header.chunkSize T
  written : ∃ pre, written w.dst = base ++ pre ∧ pre <+: w.output w.sealed

/-- **What every run of an encoder keeps**, where `T` is the plaintext accepted so far. -/
structure EncInv (base : Bytes) (w : EncryptWriter δ) (T : Bytes) : Prop where
  total : w.total = T.length
  total_le : T.length ≤ maxPlaintextSize
  phase : (w.Assembling base T ∧ (w.next = 0 ∨ w.buf ≠ [])) ∨ w.Finished base T ∨ w.Failed base T

/-- The parts of an encoder that no call changes. -/
def Same (w w' : EncryptWriter δ) : Prop := w'.header = w.header ∧ w'.sealer = w.sealer

variable {base T : Bytes}

theorem Assembling.flushed (h : w.Assembling base T) : w.Flushed base := by
  refine ⟨?_, ?_⟩
  · intro hw
    rw [h.headerWritten] at hw
    have h0 : w.next = 0 := by simpa using hw
    rw [h.sealed, h0]
    rfl
  · rw [h.written, h.headerWritten]
    simp

theorem Assembling.full (h : w.Assembling base T) (hfull : w.buf.length = w.header.chunkSize) :
    block w.header.chunkSize T w.next = w.buf
      ∧ T.length = (w.next + 1) * w.header.chunkSize := by
  have hlen := congrArg List.length h.buf
  have hle := h.le
  rw [length_drop] at hlen
  constructor
  · unfold block
    rw [← h.buf, take_of_length_le (Nat.le_of_eq hfull)]
  · rw [Nat.add_mul]
    omega

theorem Assembling.flush_full (h : w.Assembling base T) (hfull : w.buf.length = w.header.chunkSize) :
    Same w (w.flush false).2 ∧ (w.flush false).2.total = w.total ∧
      (((w.flush false).1 = none ∧ (w.flush false).2.Assembling base T ∧ (w.flush false).2.buf = [])
        ∨ ((w.flush false).1 ≠ none ∧ (w.flush false).2.Failed base T ∧ ¬ NeverFails δ)) := by
  obtain ⟨hblock, hlen⟩ := h.full hfull
  have hsealed : w.sealed ++ [⟨w.next, false, w.buf⟩] = openChunks w.header.chunkSize T (w.next + 1) := by
    rw [openChunks_succ, ← h.sealed, hblock]
  rcases flush_spec w false h.err h.flushed with ⟨d, h1, h2⟩ | ⟨e, d, hw, cs, h1, hcs, hnf, hpre⟩
  · rw [h1]
    refine ⟨⟨rfl, rfl⟩, rfl, Or.inl ⟨rfl, ?_, rfl⟩⟩
    exact {
      err := h.err
      closed := h.closed
      sealed := hsealed
      le := Nat.le_of_eq hlen.symm
      buf := (drop_of_length_le (Nat.le_of_eq hlen)).symm
      room := Nat.zero_le _
      headerWritten := by simp
      written := by
        rw [h2]
        rfl }
  · rw [h1]
    refine ⟨⟨rfl, rfl⟩, rfl, Or.inr ⟨by simp, ?_, hnf⟩⟩
    refine ⟨by simp, Or.inl ?_, hpre⟩
    -- the failed chunk may or may not have reached the cipher
    rcases hcs with rfl | rfl
    · exact ⟨w.next, h.le, by simpa using h.sealed⟩
    · exact ⟨w.next + 1, Nat.le_of_eq hlen.symm, hsealed⟩

theorem Assembling.take (h : w.Assembling base T) (p : Bytes) (hk : k ≤ p.length)
    (hroom : w.buf.length + k ≤ w.header.chunkSize) :
    (w.take p k).Assembling base (T ++ p.take k) where
  err := h.err
  closed := h.closed
  sealed := by
    show w.sealed = openChunks w.header.chunkSize (T ++ p.take k) w.next
    rw [openChunks_append h.le, h.sealed]
  le := by
    rw [length_append]
    exact h.le.trans (Nat.le_add_right _ _)
  buf := by
    show w.buf ++ p.take k = (T ++ p.take k).drop (w.next * w.header.chunkSize)
    rw [drop_append_of_le_length h.le, ← h.buf]
  room := by
    show (w.buf ++ p.take k).length ≤ w.header.chunkSize
    rw [length_append, length_take]
    omega
  headerWritten := h.headerWritten
  written := h.written

theorem Assembling.fail (h : w.Assembling base T) (e : Error) : (w.fail e).Failed base T where
  err := by simp [EncryptWriter.fail, h.err]
  sealed := Or.inl ⟨w.next, h.le, h.sealed⟩
  written := by
    refine ⟨_, h.written, ?_⟩
    split
    · exact prefix_refl _
    · exact nil_prefix

/-- What the loop of `Write` does to an encoder that has `T` already. -/
structure LoopSpec (base T : Bytes) (w : EncryptWriter δ) (p : Bytes) (n : Nat)
    (r : WriteReturn δ) (m : Nat) : Prop where
  le : m ≤ p.length
  count : r.n = n + m
  inv : r.next.EncInv base (T ++ p.take m)
  same : Same w r.next
  ok : r.err = none → m = p.length ∧ r.next.err = none ∧ r.next.closed = false
  bad : r.err ≠ none → r.next.err ≠ none
  total : NeverFails δ → T.length + p.length ≤ maxPlaintextSize → r.err = none

/-- Making room in the buffer: nothing if there is some, a flush if it is full. -/
theorem Assembling.makeRoom (h : w.Assembling base T) {f : Option Error × EncryptWriter δ}
    (hf : f = if w.buf.length = w.header.chunkSize then w.flush false else (none, w)) :
    Same w f.2 ∧ f.2.total = w.total ∧
      ((f.1 = none ∧ f.2.Assembling base T ∧ f.2.buf.length < w.header.chunkSize)
        ∨ (f.1 ≠ none ∧ f.2.Failed base T ∧ ¬ NeverFails δ)) := by
  have hroom := h.room
  by_cases hfull : w.buf.length = w.header.chunkSize
  · rw [if_pos hfull] at hf
    subst hf
    obtain ⟨hsame, htotal, ⟨h1, h2, h3⟩ | hbad⟩ := h.flush_full hfull
    · refine ⟨hsame, htotal, Or.inl ⟨h1, h2, ?_⟩⟩
      rw [h3]
      exact w.header.chunkSize_pos
    · exact ⟨hsame, htotal, Or.inr hbad⟩
  · rw [if_neg hfull] at hf
    subst hf
    exact ⟨⟨rfl, rfl⟩, rfl, Or.inl ⟨rfl, h, by show w.buf.length < _; omega⟩⟩

theorem writeLoop_spec (fuel : Nat) : ∀ {w : EncryptWriter δ} {p T : Bytes} (n : Nat), p.length ≤ fuel →
      w.Assembling base T → w.total = T.length → T.length ≤ maxPlaintextSize →
      (p ≠ [] ∨ w.next = 0 ∨ w.buf ≠ []) →
      ∃ m, LoopSpec base T w p n (w.writeLoop fuel p n) m := by
  -- nothing left to write: the encoder stays as it is
  have hdone : ∀ {w : EncryptWriter δ} {T : Bytes} (n : Nat), w.Assembling base T →
      w.total = T.length → T.length ≤ maxPlaintextSize → (w.next = 0 ∨ w.buf ≠ []) →
      LoopSpec base T w [] n ⟨n, none, w⟩ 0 := by
    intro w T n h htotal hle hheld
    refine ⟨le_rfl, rfl, ?_, ⟨rfl, rfl⟩, fun _ => ⟨rfl, h.err, h.closed⟩,
      fun hbad => absurd rfl hbad, fun _ _ => rfl⟩
    rw [take_nil, append_nil]
    exact ⟨htotal, hle, Or.inl ⟨h, hheld⟩⟩
  induction fuel with
  | zero =>
    intro w p T n hfuel h htotal hle hheld
    obtain rfl : p = [] := length_eq_zero_iff.mp (Nat.le_zero.mp hfuel)
    exact ⟨0, hdone n h htotal hle (hheld.resolve_left (by simp))⟩
  | succ fuel ih =>
    intro w p T n hfuel h htotal hle hheld
    rw [writeLoop]
    split
    next hp =>
      subst hp
      exact ⟨0, hdone n h htotal hle (hheld.resolve_left (by simp))⟩
    next hp =>
      have hppos : 0 < p.length := length_pos_iff.mpr hp
      obtain ⟨hsame, hftotal, hcase⟩ := h.makeRoom rfl
      dsimp only
      generalize (if w.buf.length = w.header.chunkSize then w.flush false else (none, w)) = f at *
      split
      · -- the flush failed, and with it the write
        rename_i e he
        rcases hcase with ⟨h0, _⟩ | ⟨_, hfailed, hnf⟩
        · rw [he] at h0; simp at h0
        refine ⟨0, Nat.zero_le _, rfl, ⟨?_, ?_, Or.inr (Or.inr ?_)⟩, hsame,
          by simp, fun _ => hfailed.err, fun hnever => absurd hnever hnf⟩
        · simpa [hftotal] using htotal
        · simpa using hle
        · simpa using hfailed
      next he =>
        rcases hcase with ⟨_, hasm, hroom⟩ | ⟨h0, _⟩
        · split
          · -- too much plaintext for one segment
            rename_i hmax
            have hfailed := hasm.fail tooLong
            refine ⟨0, Nat.zero_le _, rfl, ⟨?_, ?_, Or.inr (Or.inr ?_)⟩, hsame,
              fun h0 => absurd h0 hfailed.err, fun h0 => h0, ?_⟩
            · show f.2.total = _
              simpa [hftotal] using htotal
            · simpa using hle
            · simpa using hfailed
            · omega
          next hmax =>
            have hk1 : 1 ≤ min (w.header.chunkSize - f.2.buf.length) p.length := by omega
            have hkp : min (w.header.chunkSize - f.2.buf.length) p.length ≤ p.length :=
              Nat.min_le_right _ _
            have hkr : f.2.buf.length + min (w.header.chunkSize - f.2.buf.length) p.length
                ≤ w.header.chunkSize := by omega
            generalize min (w.header.chunkSize - f.2.buf.length) p.length = k at *
            have hlen : (T ++ p.take k).length = T.length + k := by
              rw [length_append, length_take]; omega
            -- the buffer is not empty now, and the rest of `p` is shorter
            obtain ⟨m, hm⟩ := ih (p := p.drop k) (n + k)
              (by rw [length_drop]; omega)
              (hasm.take p hkp (by rw [hsame.1]; exact hkr))
              (by show f.2.total + k = _; rw [hftotal, htotal, hlen])
              (by rw [hlen]; omega)
              (Or.inr (Or.inr (by
                intro hnil
                have := congrArg List.length (append_eq_nil_iff.mp hnil).2
                rw [length_take, length_nil] at this
                omega)))
            have hmle := hm.le
            rw [length_drop] at hmle
            refine ⟨k + m, by omega, by rw [hm.count, Nat.add_assoc], ?_, ?_, ?_, hm.bad, ?_⟩
            · have hinv := hm.inv
              rwa [append_assoc, ← take_add] at hinv
            · exact ⟨hm.same.1.trans hsame.1, hm.same.2.trans hsame.2⟩
            · intro h0
              obtain ⟨h1, h2⟩ := hm.ok h0
              rw [length_drop] at h1
              exact ⟨by omega, h2⟩
            · intro hnever hfits
              refine hm.total hnever ?_
              rw [length_drop]
              omega
        · exact absurd he h0

/-- What is held back between calls is exactly the last block. -/
theorem Assembling.held (h : w.Assembling base T) (hheld : w.next = 0 ∨ w.buf ≠ []) :
    count w.header.chunkSize T.length = w.next + 1
      ∧ block w.header.chunkSize T w.next = w.buf := by
  have hlen := congrArg List.length h.buf
  rw [length_drop] at hlen
  have hroom := h.room
  constructor
  · refine (count_eq_iff w.header.chunkSize_pos _ _).mpr ⟨by omega, ?_, ?_⟩
    · rw [Nat.add_mul, Nat.one_mul]; omega
    · rcases hheld with h0 | hne
      · exact Or.inl (by omega)
      · have hpos : 0 < w.buf.length := length_pos_iff.mpr hne
        rw [Nat.add_sub_cancel]
        omega
  · unfold block
    rw [← h.buf, take_of_length_le hroom]

/-- `Close` on an encoder without errors seals what it holds as the final chunk. -/
theorem Assembling.close (h : w.Assembling base T) (hheld : w.next = 0 ∨ w.buf ≠ []) :
    Same w w.close.2 ∧ w.close.2.total = w.total ∧
      ((w.close.1 = none ∧ w.close.2.Finished base T)
        ∨ (w.close.1 ≠ none ∧ w.close.2.Failed base T ∧ ¬ NeverFails δ)) := by
  obtain ⟨hcount, hblock⟩ := h.held hheld
  have hclose : w.close = ({ w with closed := true } : EncryptWriter δ).flush true := by
    unfold EncryptWriter.close
    rw [if_neg (by rw [h.closed]; simp), h.err]
  have hall : w.sealed ++ [⟨w.next, true, w.buf⟩] = segmentChunks w.header.chunkSize T := by
    unfold segmentChunks finalChunk
    rw [hcount, Nat.add_sub_cancel, ← h.sealed, hblock]
  rw [hclose]
  rcases flush_spec { w with closed := true } true h.err h.flushed with
    ⟨d, h1, h2⟩ | ⟨e, d, hw, cs, h1, hcs, hnf, hpre⟩
  · rw [h1]
    refine ⟨⟨rfl, rfl⟩, rfl, Or.inl ⟨rfl, ?_⟩⟩
    exact ⟨h.err, rfl, hall, h2⟩
  · rw [h1]
    refine ⟨⟨rfl, rfl⟩, rfl, Or.inr ⟨by simp, ⟨by simp, ?_, hpre⟩, hnf⟩⟩
    rcases hcs with rfl | rfl
    · exact Or.inl ⟨w.next, h.le, by simpa using h.sealed⟩
    · exact Or.inr hall

theorem encInv_step (h : w.EncInv base T) (op : Op) :
    (w.step op).1.EncInv base (T ++ (w.step op).2) ∧ Same w (w.step op).1 := by
  cases op with
  | write p =>
    show (w.write p).next.EncInv base (T ++ p.take (w.write p).n) ∧ Same w (w.write p).next
    rcases h.phase with ⟨hasm, hheld⟩ | hfin | hfail
    · have hw : w.write p = w.writeLoop p.length p 0 := by
        unfold write
        rw [hasm.err]
        rw [if_neg (by rw [hasm.closed]; simp)]
      obtain ⟨m, hm⟩ := writeLoop_spec p.length 0 le_rfl hasm h.total h.total_le
        (Or.inr hheld)
      rw [hw, hm.count, Nat.zero_add]
      exact ⟨hm.inv, hm.same⟩
    · -- a closed writer refuses, and nothing changes
      have hw : w.write p = ⟨0, some errWriterClosed, w⟩ := by
        unfold write
        rw [hfin.err]
        rw [if_pos hfin.closed]
      rw [hw, take_zero, append_nil]
      exact ⟨h, rfl, rfl⟩
    · obtain ⟨e, he⟩ := ne_none_iff_exists'.mp hfail.err
      have hw : w.write p = ⟨0, some e, w⟩ := by
        unfold write
        rw [he]
      rw [hw, take_zero, append_nil]
      exact ⟨h, rfl, rfl⟩
  | close =>
    show w.close.2.EncInv base (T ++ []) ∧ Same w w.close.2
    rw [append_nil]
    rcases h.phase with ⟨hasm, hheld⟩ | hfin | hfail
    · obtain ⟨hsame, htotal, hcase⟩ := hasm.close hheld
      refine ⟨⟨htotal.trans h.total, h.total_le, Or.inr ?_⟩, hsame⟩
      rcases hcase with ⟨_, h1⟩ | ⟨_, h1, _⟩
      · exact Or.inl h1
      · exact Or.inr h1
    · have hc : w.close = (w.err, w) := by
        unfold EncryptWriter.close
        rw [if_pos hfin.closed]
      rw [hc]
      exact ⟨h, rfl, rfl⟩
    · obtain ⟨e, he⟩ := ne_none_iff_exists'.mp hfail.err
      unfold EncryptWriter.close
      split
      · exact ⟨h, rfl, rfl⟩
      · rw [he]
        exact ⟨⟨h.total, h.total_le, Or.inr (Or.inr ⟨by simp, hfail.sealed, hfail.written⟩)⟩,
          rfl, rfl⟩

/-- **Every run keeps the invariant**, whatever is called and however the sink fails. -/
theorem encInv_run (ops : List Op) : ∀ {w : EncryptWriter δ} {T : Bytes}, w.EncInv base T →
      (w.run ops).1.EncInv base (T ++ (w.run ops).2) ∧ Same w (w.run ops).1 := by
  induction ops with
  | nil =>
    intro w T h
    rw [run, append_nil]
    exact ⟨h, rfl, rfl⟩
  | cons op ops ih =>
    intro w T h
    obtain ⟨h1, hs1⟩ := encInv_step h op
    obtain ⟨h2, hs2⟩ := ih h1
    rw [append_assoc] at h2
    exact ⟨h2, hs2.1.trans hs1.1, hs2.2.trans hs1.2⟩

theorem encInv_new {dst : δ} {h : Header} (hw : newEncryptWriter K dst dek h = .ok w) :
    w.EncInv (written dst) [] ∧ w.header = h ∧ w.sealer = Sealer.of K dek h
      ∧ dek.length = keySize := by
  unfold newEncryptWriter at hw
  cases hs : newSealer K dek h with
  | error e => rw [hs] at hw; simp [bind, Except.bind] at hw
  | ok s =>
    rw [hs] at hw
    cases hw
    obtain ⟨hlen, rfl⟩ := newSealer_ok_iff.mp hs
    refine ⟨⟨rfl, Nat.zero_le _, Or.inl ⟨?_, Or.inl rfl⟩⟩, rfl, rfl, hlen⟩
    exact {
      err := rfl
      closed := rfl
      sealed := rfl
      le := by simp
      buf := by simp
      room := Nat.zero_le _
      headerWritten := rfl
      written := by simp }

end EncryptWriter

end BlindBucket.Stream
