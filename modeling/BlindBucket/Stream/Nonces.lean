import BlindBucket.Stream.RoundTrip
import Mathlib.Data.List.Nodup

/-!
# No nonce is used twice in a segment

The nonce of a chunk is its counter and the final flag. What a run of the encoder hands to the cipher is counted
here for any sink at all: one that fails at any write, with or without having taken the bytes.

A seal call may be followed by a failing write, and the counter is not advanced then. What keeps it from being
used again is that the error stays, so that no later call seals anything. `SealInv` says so: as long as a call
can still seal, the counter is the number of chunks that were sealed.
-/

namespace BlindBucket.Stream

open ByteIo List

variable {δ : Type}

/-- The nonce a chunk is sealed with. -/
def Chunk.nonce (c : Chunk) : Bytes := chunkNonce c.index c.final

/-- What the cipher answers when it is called for this chunk, with the chunk's nonce. -/
def Chunk.call (K : Crypto) (dek : Bytes) (h : Header) (c : Chunk) : Bytes :=
  K.gcm.sealBytes (K.subkey dek h.salt) c.nonce c.plain h.raw

theorem Sealer.sealed_eq_call (K : Crypto) (dek : Bytes) (h : Header) (c : Chunk) :
    (Sealer.of K dek h).sealed c = c.call K dek h := rfl

namespace EncryptWriter

/-- The seal calls of a segment with header `h`. -/
structure Counted (h : Header) (cs : List Chunk) : Prop where
  /-- The counters are 0, 1, 2 and so on. -/
  index : cs.map Chunk.index = range cs.length
  /-- Only the last call can have the final flag. -/
  last : ∀ c ∈ cs.dropLast, c.final = false
  /-- Without it a chunk is a full one. -/
  full : ∀ c ∈ cs, c.final = false → c.plain.length = h.chunkSize

/-- **What a run keeps of the seal calls.** -/
structure SealInv (h : Header) (s : Sealer) (w : EncryptWriter δ) : Prop where
  fixed : w.header = h ∧ w.sealer = s
  counted : Counted h w.sealed
  room : w.buf.length ≤ h.chunkSize
  total_le : w.total ≤ maxPlaintextSize
  /-- There are no more calls than bytes, and one. -/
  count : w.sealed.length ≤ w.total + 1
  /-- While a call can still seal, the counter has not been used, and nothing was sealed as final. -/
  live : w.err = none → w.closed = false → w.sealed.length = w.next ∧ (∀ c ∈ w.sealed, c.final = false) ∧
    w.next * h.chunkSize + w.buf.length = w.total

variable {h : Header} {s : Sealer} {w : EncryptWriter δ}

theorem sealInv_new {K : Crypto} {dst : δ} {dek : Bytes} (hw : newEncryptWriter K dst dek h = .ok w) :
    SealInv h (Sealer.of K dek h) w := by
  obtain ⟨s, hs, hok⟩ := bind_ok hw
  obtain ⟨-, rfl⟩ := newSealer_ok_iff.mp hs
  rw [← Except.ok.inj hok]
  refine ⟨⟨rfl, rfl⟩, ⟨rfl, by simp, by simp⟩, Nat.zero_le _, Nat.zero_le _, Nat.zero_le _, ?_⟩
  intro _ _
  exact ⟨rfl, by simp, by simp⟩

theorem Counted.push {cs : List Chunk} (hc : Counted h cs) (hopen : ∀ c ∈ cs, c.final = false) {c : Chunk}
    (hindex : c.index = cs.length) (hfull : c.final = false → c.plain.length = h.chunkSize) : Counted h (cs ++ [c]) := by
  refine ⟨?_, ?_, ?_⟩
  · rw [map_append, hc.index, length_append, length_singleton, range_succ, ← hindex]
    rfl
  · rw [dropLast_concat]
    exact hopen
  · intro d hd
    rcases mem_append.mp hd with hd | hd
    · exact hc.full d hd
    · rw [mem_singleton.mp hd]
      exact hfull

theorem SealInv.fail (hi : SealInv h s w) (e : Error) : SealInv h s (w.fail e) := by
  refine ⟨hi.fixed, hi.counted, hi.room, hi.total_le, hi.count, fun hno => ?_⟩
  have : (w.err.or (some e)) = none := hno
  simp at this

theorem SealInv.take (hi : SealInv h s w) (herr : w.err = none) (hclosed : w.closed = false) {p : Bytes} {k : Nat}
    (hk : k ≤ p.length) (hroom : k ≤ h.chunkSize - w.buf.length) (hle : w.total + k ≤ maxPlaintextSize) :
    SealInv h s (w.take p k) := by
  have hbuf : (w.take p k).buf.length = w.buf.length + k := by
    show (w.buf ++ p.take k).length = _
    rw [length_append, length_take, Nat.min_eq_left hk]
  have := hi.room
  obtain ⟨hnext, hopen, htotal⟩ := hi.live herr hclosed
  refine ⟨hi.fixed, hi.counted, by omega, hle, ?_, fun _ _ => ⟨hnext, hopen, ?_⟩⟩
  · show w.sealed.length ≤ w.total + k + 1
    have := hi.count
    omega
  · rw [hbuf]
    show w.next * h.chunkSize + (w.buf.length + k) = w.total + k
    omega

variable [ByteWriter δ GoErr]

/-- The encoder once its buffer is out as chunk `next`. -/
def flushed (w : EncryptWriter δ) (final : Bool) (d : δ) : EncryptWriter δ :=
  { w with
    dst := d, headerWritten := true, sealed := w.sealed ++ [⟨w.next, final, w.buf⟩],
    next := w.next + 1, buf := [] }

/-- The encoder once a write has failed, after these seal calls. -/
def stopped (w : EncryptWriter δ) (e : Error) (d : δ) (hw : Bool) (cs : List Chunk) : EncryptWriter δ :=
  { w with dst := d, headerWritten := hw, sealed := w.sealed ++ cs, err := some e }

theorem flushChunk_cases (final : Bool) (herr : w.err = none) (hw : w.headerWritten = true) :
    (∃ d, w.flushChunk final = (none, w.flushed final d)) ∨
      ∃ e d, w.flushChunk final = (some e, w.stopped e d true [⟨w.next, final, w.buf⟩]) := by
  unfold flushChunk
  dsimp only
  split
  next e _ =>
    refine Or.inr ⟨e, (ByteWriter.write w.dst (w.sealer.sealed ⟨w.next, final, w.buf⟩)).next, ?_⟩
    simp only [fail, herr, Option.none_or, stopped, hw]
  · refine Or.inl ⟨(ByteWriter.write w.dst (w.sealer.sealed ⟨w.next, final, w.buf⟩)).next, ?_⟩
    simp only [flushed, hw]

/-- A flush seals the buffer under the next counter, or fails before or after that. -/
theorem flush_cases (final : Bool) (herr : w.err = none) : (∃ d, w.flush final = (none, w.flushed final d)) ∨
      ∃ e d hw cs, w.flush final = (some e, w.stopped e d hw cs) ∧
        (cs = [] ∨ cs = [⟨w.next, final, w.buf⟩]) := by
  unfold flush
  by_cases hw : w.headerWritten = true
  · rw [if_pos hw]
    rcases flushChunk_cases final herr hw with h | ⟨e, d, h⟩
    · exact Or.inl h
    · exact Or.inr ⟨e, d, true, _, h, Or.inr rfl⟩
  · rw [if_neg hw]
    dsimp only
    split
    · -- the sink failed on the header, so nothing was sealed
      rename_i e _
      refine Or.inr ⟨e, (ByteWriter.write w.dst w.header.raw).next, w.headerWritten, [], ?_, Or.inl rfl⟩
      simp only [fail, herr, Option.none_or, stopped, append_nil]
    · generalize (ByteWriter.write w.dst w.header.raw).next = d'
      have hchunk := flushChunk_cases (w := { w with dst := d', headerWritten := true }) final herr rfl
      rcases hchunk with ⟨d, h⟩ | ⟨e, d, h⟩
      · exact Or.inl ⟨d, h⟩
      · exact Or.inr ⟨e, d, true, _, h, Or.inr rfl⟩

/-- A flush of a live encoder, which is of a full buffer unless it is the final one. -/
theorem SealInv.flush (hi : SealInv h s w) (herr : w.err = none) (hlive : w.sealed.length = w.next ∧ (∀ c ∈ w.sealed, c.final = false) ∧
      w.next * h.chunkSize + w.buf.length = w.total)
    (final : Bool) (hfull : final = false → w.buf.length = h.chunkSize) (hclosed : final = true → w.closed = true) :
    SealInv h s (w.flush final).2 ∧
      ((w.flush final).1 = none → (w.flush final).2.err = none ∧ (w.flush final).2.buf = [] ∧
        (w.flush final).2.closed = w.closed) := by
  obtain ⟨hnext, hopen, htotal⟩ := hlive
  have hpush : Counted h (w.sealed ++ [⟨w.next, final, w.buf⟩]) :=
    hi.counted.push hopen hnext.symm hfull
  have hpos : 0 < h.chunkSize := h.chunkSize_pos
  have hle : w.next ≤ w.total := by
    have := Nat.le_mul_of_pos_right w.next hpos
    omega
  rcases flush_cases final herr with ⟨d, hf⟩ | ⟨e, d, hw, cs, hf, hcs⟩
  · rw [hf]
    refine ⟨⟨hi.fixed, hpush, Nat.zero_le _, hi.total_le, ?_, ?_⟩, fun _ => ⟨herr, rfl, rfl⟩⟩
    · show (w.sealed ++ _).length ≤ w.total + 1
      rw [length_append, length_singleton]
      omega
    · intro _ hopened
      -- a final chunk is sealed by a call that has closed the encoder
      cases final with
      | true =>
        have hopened : w.closed = false := hopened
        rw [hclosed rfl] at hopened
        simp at hopened
      | false =>
        refine ⟨?_, ?_, ?_⟩
        · show (w.sealed ++ _).length = w.next + 1
          rw [length_append, length_singleton, hnext]
        · intro c hc
          rcases mem_append.mp hc with hc | hc
          · exact hopen c hc
          · rw [mem_singleton.mp hc]
        · show (w.next + 1) * h.chunkSize + 0 = w.total
          rw [Nat.add_one_mul, ← htotal, hfull rfl]
          rfl
  · rw [hf]
    refine ⟨⟨hi.fixed, ?_, hi.room, hi.total_le, ?_, fun hno => absurd hno (by simp [stopped])⟩,
      by simp⟩
    · rcases hcs with rfl | rfl
      · show Counted h (w.sealed ++ [])
        rw [append_nil]
        exact hi.counted
      · exact hpush
    · show (w.sealed ++ cs).length ≤ w.total + 1
      rw [length_append]
      rcases hcs with rfl | rfl
      · rw [length_nil]
        omega
      · rw [length_singleton]
        omega

theorem sealInv_writeLoop (fuel : Nat) : ∀ {w : EncryptWriter δ} (p : Bytes) (n : Nat),
    SealInv h s w → w.err = none → w.closed = false → SealInv h s (w.writeLoop fuel p n).next := by
  induction fuel with
  | zero => intro w p n hi _ _; exact hi
  | succ fuel ih =>
    intro w p n hi herr hclosed
    rw [writeLoop]
    by_cases hp : p = []
    · rw [if_pos hp]
      exact hi
    · rw [if_neg hp, hi.fixed.1]
      dsimp only
      -- the encoder after the flush of a full buffer, if there was one
      generalize hf : (if w.buf.length = h.chunkSize then w.flush false else (none, w)) = f
      have hroom : SealInv h s f.2 ∧ (f.1 = none → f.2.err = none ∧ f.2.closed = false) := by
        rw [← hf]
        by_cases hfull : w.buf.length = h.chunkSize
        · rw [if_pos hfull]
          obtain ⟨hi', hok⟩ := hi.flush herr (hi.live herr hclosed) false (fun _ => hfull) (by simp)
          refine ⟨hi', fun hnone => ⟨(hok hnone).1, ?_⟩⟩
          rw [(hok hnone).2.2, hclosed]
        · rw [if_neg hfull]
          exact ⟨hi, fun _ => ⟨herr, hclosed⟩⟩
      split
      · exact hroom.1
      next hnone =>
        obtain ⟨he, hc⟩ := hroom.2 hnone
        by_cases hbig : maxPlaintextSize < f.2.total + min (h.chunkSize - f.2.buf.length) p.length
        · rw [if_pos hbig]
          exact hroom.1.fail tooLong
        · rw [if_neg hbig]
          exact ih _ _ (hroom.1.take he hc (Nat.min_le_right _ _) (Nat.min_le_left _ _) (by omega)) he hc

theorem sealInv_step (hi : SealInv h s w) (op : Op) : SealInv h s (w.step op).1 := by
  cases op with
  | write p =>
    show SealInv h s (w.write p).next
    unfold write
    cases herr : w.err with
    | some e => exact hi
    | none =>
      by_cases hclosed : w.closed = true
      · rw [if_pos hclosed]
        exact hi
      · rw [if_neg hclosed]
        exact sealInv_writeLoop _ p 0 hi herr (by simpa using hclosed)
  | close =>
    show SealInv h s w.close.2
    have hshut : SealInv h s { w with closed := true } :=
      ⟨hi.fixed, hi.counted, hi.room, hi.total_le, hi.count, by simp⟩
    unfold close
    by_cases hclosed : w.closed = true
    · rw [if_pos hclosed]
      exact hi
    · rw [if_neg hclosed]
      split
      · exact hshut
      next herr =>
        exact (hshut.flush herr (hi.live herr (by simpa using hclosed)) true
          (by simp) (fun _ => rfl)).1

theorem sealInv_run (ops : List Op) : ∀ {w : EncryptWriter δ}, SealInv h s w → SealInv h s (w.run ops).1 := by
  induction ops with
  | nil => intro w hi; exact hi
  | cons op ops ih => intro w hi; exact ih (sealInv_step hi op)

end EncryptWriter

open EncryptWriter

/-- What is in the sink is the header and the answers of the cipher, in order, or the beginning of it. -/
theorem written_calls [ByteWriter δ GoErr] [LawfulWriter δ] {K : Crypto} {dst : δ} {dek : Bytes} {h : Header}
    {w : EncryptWriter δ} (hw : newEncryptWriter K dst dek h = .ok w) (ops : List Op) :
    ∃ out, written (w.run ops).1.dst = written dst ++ out
      ∧ out <+: h.raw ++ (w.run ops).1.sealed.flatMap (Chunk.call K dek h) := by
  obtain ⟨hinv, hheader, hsealer, -⟩ := encInv_new hw
  obtain ⟨hrun, hsame⟩ := encInv_run ops hinv
  have hout : (w.run ops).1.output (w.run ops).1.sealed
      = h.raw ++ (w.run ops).1.sealed.flatMap (Chunk.call K dek h) := by
    rw [output, hsame.1, hsame.2, hheader, hsealer]
    rfl
  rw [← hout]
  rcases hrun.phase with ⟨hasm, -⟩ | hfin | hfail
  · refine ⟨_, hasm.written, ?_⟩
    split
    · exact prefix_rfl
    · exact nil_prefix
  · exact ⟨_, hfin.written, prefix_rfl⟩
  · exact hfail.written

/-- **No nonce is ever used twice in a segment**, whatever the calls and whichever writes of the sink fail.
What the encoder makes of a chunk is the answer of the cipher to one call, with that chunk's nonce, and
nothing else follows the header in a sink. -/
theorem nonces_never_reused [ByteWriter δ GoErr] {K : Crypto} {dst : δ} {dek : Bytes} {h : Header}
    {w : EncryptWriter δ} (hw : newEncryptWriter K dst dek h = .ok w) (ops : List Op) :
    ((w.run ops).1.sealed.map Chunk.nonce).Nodup ∧ Counted h (w.run ops).1.sealed
      ∧ (∀ c ∈ (w.run ops).1.sealed, (w.run ops).1.sealer.sealed c
        = K.gcm.sealBytes (K.subkey dek h.salt) c.nonce c.plain h.raw)
      ∧ ∀ [LawfulWriter δ], ∃ out, written (w.run ops).1.dst = written dst ++ out
        ∧ out <+: h.raw ++ (w.run ops).1.sealed.flatMap (Chunk.call K dek h) := by
  have hi := sealInv_run ops (sealInv_new hw)
  have hcall : ∀ c ∈ (w.run ops).1.sealed, (w.run ops).1.sealer.sealed c
      = K.gcm.sealBytes (K.subkey dek h.salt) c.nonce c.plain h.raw := by
    intro c _
    rw [hi.fixed.2, Sealer.sealed_eq_call, Chunk.call]
  refine ⟨?_, hi.counted, hcall, written_calls hw ops⟩
  generalize hcs : (w.run ops).1.sealed = cs
  have hcounted : Counted h cs := hcs ▸ hi.counted
  have hlen : cs.length ≤ maxPlaintextSize + 1 := by
    have h1 := hi.count
    have h2 := hi.total_le
    rw [hcs] at h1
    omega
  have hsmall : ∀ c ∈ cs, c.index < 256 ^ 8 := by
    intro c hc
    have hin : c.index ∈ range cs.length := hcounted.index ▸ mem_map.mpr ⟨c, hc, rfl⟩
    have hlt := mem_range.mp hin
    have hmax : maxPlaintextSize + 1 ≤ 256 ^ 8 := by decide
    omega
  -- the counters are distinct, and a nonce tells its counter
  have hnodup : cs.Nodup := Nodup.of_map Chunk.index (hcounted.index ▸ nodup_range)
  refine Nodup.map_on ?_ hnodup
  intro c hc d hd heq
  have hindex := (chunkNonce_inj (hsmall c hc) (hsmall d hd) heq).1
  exact inj_on_of_nodup_map (hcounted.index ▸ nodup_range) hc hd hindex

/-- A segment of one byte that is closed, written to and closed again. -/
theorem nonces_never_reused_closed_twice : ∃ h w, newHeaderWithSalt smallParams zeroSalt = .ok h
      ∧ newEncryptWriter plainCrypto (⟨[]⟩ : Buffer GoErr) (replicate keySize 7) h = .ok w
      ∧ ((w.run [.write [97], .close, .write [98], .close]).1.sealed.map Chunk.nonce).Nodup
      ∧ ∃ out, written (w.run [.write [97], .close, .write [98], .close]).1.dst = [] ++ out
        ∧ out <+: h.raw ++ (w.run [.write [97], .close, .write [98], .close]).1.sealed.flatMap
          (Chunk.call plainCrypto (replicate keySize 7) h) := by
  have hw := newEncryptWriter_ok (K := plainCrypto) (⟨[]⟩ : Buffer GoErr)
    (Header.make smallParams zeroSalt (by decide))
    (show (replicate keySize (7 : UInt8)).length = keySize by decide)
  obtain ⟨hnodup, -, -, hwritten⟩ := nonces_never_reused hw [.write [97], .close, .write [98], .close]
  exact ⟨_, _, newHeaderWithSalt_ok (by decide), hw, hnodup, hwritten⟩

end BlindBucket.Stream
