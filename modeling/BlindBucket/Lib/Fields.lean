import BlindBucket.Lib.Bytes

/-!
# Fields that carry their length

A field is written after its length, in `w` bytes. What follows a field is found again, so a list of
fields is read off its encoding in one way only.
-/

namespace Fields

open ByteIo

def field (w : Nat) (x : Bytes) : Bytes := beBytes w x.length ++ x

/-- The length of `x` fits. -/
def Short (w : Nat) (x : Bytes) : Prop := x.length < 256 ^ w

variable {w : Nat} {x y : Bytes}

/-- **A field ends where its length says.** -/
theorem field_append_inj {s t : Bytes} (hx : Short w x) (hy : Short w y) (h : field w x ++ s = field w y ++ t) :
    x = y ∧ s = t := by
  unfold field at h
  rw [List.append_assoc, List.append_assoc] at h
  obtain ⟨hlen, hrest⟩ := List.append_inj h (by rw [beBytes_length, beBytes_length])
  exact List.append_inj hrest (beBytes_inj hx hy hlen)

theorem field_inj (hx : Short w x) (hy : Short w y) (h : field w x = field w y) : x = y := by
  have h' : field w x ++ [] = field w y ++ [] := by rw [h]
  exact (field_append_inj hx hy h').1

end Fields
