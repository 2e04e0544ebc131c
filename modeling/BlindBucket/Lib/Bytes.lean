import Mathlib.Data.List.Basic
import Mathlib.Algebra.Order.Ring.Nat
import Mathlib.Tactic.Ring

/-!
# Byte strings and big-endian integers

`Bytes` is the type of byte strings. `beBytes w n` is the `w`-byte big-endian encoding of `n`, which like the
fixed-width types it stands for keeps `n` modulo `256 ^ w`, and `ofBe` reads one
back.
-/

abbrev Bytes := List UInt8

namespace ByteIo

/-- `n` as `w` bytes, most significant first. -/
def beBytes : Nat → Nat → Bytes
  | 0, _ => []
  | w + 1, n => UInt8.ofNat (n / 256 ^ w) :: beBytes w n

/-- The number a big-endian byte string denotes. -/
def ofBe : Bytes → Nat
  | [] => 0
  | b :: bs => b.toNat * 256 ^ bs.length + ofBe bs

@[simp] theorem beBytes_length (w n : Nat) : (beBytes w n).length = w := by
  induction w with
  | zero => rfl
  | succ w ih => rw [beBytes, List.length_cons, ih]

theorem ofBe_lt (bs : Bytes) : ofBe bs < 256 ^ bs.length := by
  induction bs with
  | nil => simp [ofBe]
  | cons b bs ih =>
    have hb : b.toNat + 1 ≤ 256 := b.toNat_lt
    calc ofBe (b :: bs) = b.toNat * 256 ^ bs.length + ofBe bs := rfl
      _ < b.toNat * 256 ^ bs.length + 256 ^ bs.length := by omega
      _ = (b.toNat + 1) * 256 ^ bs.length := by ring
      _ ≤ 256 * 256 ^ bs.length := Nat.mul_le_mul_right _ hb
      _ = 256 ^ (b :: bs).length := by rw [List.length_cons, pow_succ, Nat.mul_comm]

theorem ofBe_beBytes_mod (w n : Nat) : ofBe (beBytes w n) = n % 256 ^ w := by
  induction w with
  | zero => simp [beBytes, ofBe, Nat.mod_one]
  | succ w ih =>
    have hbyte : (UInt8.ofNat (n / 256 ^ w)).toNat = n / 256 ^ w % 256 := UInt8.toNat_ofNat'
    rw [beBytes, ofBe, beBytes_length, ih, hbyte, pow_succ,
      Nat.mod_mul]
    ring

theorem ofBe_beBytes {w n : Nat} (h : n < 256 ^ w) : ofBe (beBytes w n) = n := by
  rw [ofBe_beBytes_mod, Nat.mod_eq_of_lt h]

theorem beBytes_inj {w m n : Nat} (hm : m < 256 ^ w) (hn : n < 256 ^ w) (h : beBytes w m = beBytes w n) : m = n := by
  rw [← ofBe_beBytes hm, ← ofBe_beBytes hn, h]

theorem beBytes_ofBe (bs : Bytes) : beBytes bs.length (ofBe bs) = bs := by
  have hmod : ∀ (l : Bytes) (m : Nat), beBytes l.length (m * 256 ^ l.length + ofBe l) = l := by
    intro l
    induction l with
    | nil => intro m; rfl
    | cons b l ih =>
      intro m
      have hlt := ofBe_lt l
      have hpos : 0 < 256 ^ l.length := Nat.pow_pos (by decide)
      have hsplit : m * 256 ^ (b :: l).length + ofBe (b :: l) = (m * 256 + b.toNat) * 256 ^ l.length + ofBe l := by
        rw [List.length_cons, pow_succ, ofBe]; ring
      rw [hsplit, List.length_cons, beBytes, ih]
      congr 1
      rw [Nat.mul_comm, Nat.mul_add_div hpos, Nat.div_eq_of_lt hlt]
      apply UInt8.toNat_inj.mp
      rw [UInt8.toNat_ofNat']
      have hb : b.toNat < 256 := b.toNat_lt
      omega
  have := hmod bs 0
  rwa [Nat.zero_mul, Nat.zero_add] at this

end ByteIo
