import BlindBucket.Lib.Reader

/-!
# Writers

A byte sink in the sense of Go's `io.Writer`. A write may fail, and one that fails may
have taken a part of its bytes; one that does not fail has taken them all.
-/

namespace ByteIo

/-- What one call of `Write` returns, and the sink afterwards. -/
structure WriteResult (δ ε : Type) where
  err : Option (ReadErr ε)
  next : δ

/-- Anything with a `Write` method. -/
class ByteWriter (δ : Type) (ε : outParam Type) where
  write : δ → Bytes → WriteResult δ ε

/-- A sink that keeps what it is given, in order. -/
class LawfulWriter (δ : Type) {ε : outParam Type} [ByteWriter δ ε] where
  /-- The bytes taken so far. -/
  written : δ → Bytes
  written_write : ∀ (d : δ) (bs : Bytes), ∃ m ≤ bs.length,
    written (ByteWriter.write d bs).next = written d ++ bs.take m
      ∧ ((ByteWriter.write d bs).err = none → m = bs.length)

export LawfulWriter (written)

variable {δ ε : Type} [ByteWriter δ ε]

theorem written_of_ok [LawfulWriter δ] {d : δ} {bs : Bytes} (h : (ByteWriter.write d bs).err = none) :
    written (ByteWriter.write d bs).next = written d ++ bs := by
  obtain ⟨m, _, hw, hall⟩ := LawfulWriter.written_write d bs
  rw [hw, hall h, List.take_length]

/-- A sink that never fails. -/
def NeverFails (δ : Type) [ByteWriter δ ε] : Prop :=
  ∀ (d : δ) (bs : Bytes), (ByteWriter.write d bs).err = none

structure Buffer (ε : Type) where
  bytes : Bytes := []

instance : ByteWriter (Buffer ε) ε where
  write d bs := ⟨none, ⟨d.bytes ++ bs⟩⟩

instance : LawfulWriter (Buffer ε) where
  written d := d.bytes
  written_write d bs := ⟨bs.length, Nat.le_refl _, by rw [List.take_length]; rfl, fun _ => rfl⟩

theorem Buffer.neverFails : NeverFails (Buffer ε) := fun _ _ => rfl

end ByteIo
