import BlindBucket.Lib.Bytes
import Mathlib.Data.List.GetD
import Mathlib.Data.List.Nodup

/-!
# Bytes as text over a small alphabet

`encode` cuts a byte string into digits of `width` bits, most significant first, and writes each as a
character of an alphabet. The last digit is filled up with zero bits, and there is no padding. `decode`
reads the digits back and drops the bits that do not make a byte, so it takes several texts to the same
bytes; `decodeStrict` takes one.
-/

namespace BaseText

open ByteIo List Option

/-- `2 ^ width` characters. -/
structure Alphabet where
  width : Nat
  chars : Bytes
  /-- A digit has at least one bit and at most those of a byte. -/
  width_pos : 0 < width
  width_le : width ≤ 8
  size : chars.length = 2 ^ width
  /-- No character stands for two digits. -/
  nodup : chars.Nodup
  /-- A line break is not a character. -/
  no_lf : 0x0A ∉ chars
  no_cr : 0x0D ∉ chars

namespace Alphabet

variable (A : Alphabet)

def char (d : Nat) : UInt8 := A.chars.getD d 0

def value (c : UInt8) : Option Nat := if c ∈ A.chars then some (A.chars.idxOf c) else none

/-- The number of digits that `n` bytes take. -/
def count (n : Nat) : Nat := (8 * n + A.width - 1) / A.width

/-- `v` as `d` digits. -/
def write : Nat → Nat → Bytes
  | 0, _ => []
  | d + 1, v => A.char (v / 2 ^ (A.width * d) % 2 ^ A.width) :: write d v

/-- The number that digits stand for, after those that make `acc`. -/
def read (acc : Nat) : Bytes → Option Nat
  | [] => some acc
  | c :: cs =>
    match A.value c with
    | none => none
    | some d => read (acc * 2 ^ A.width + d) cs

/-- The bits that a text of `d` digits has beyond its last whole byte. -/
def spare (d : Nat) : Nat := A.width * d - 8 * (A.width * d / 8)

def encode (x : Bytes) : Bytes :=
  A.write (A.count x.length) (ofBe x * 2 ^ (A.width * A.count x.length - 8 * x.length))

def skipBreaks (s : Bytes) : Bytes := s.filter fun c => c != 0x0A && c != 0x0D

/-- The bytes of a number of `d` digits. -/
def bytes (d v : Nat) : Bytes := beBytes (A.width * d / 8) (v / 2 ^ A.spare d)

def decode (s : Bytes) : Option Bytes :=
  (A.read 0 (skipBreaks s)).map (A.bytes (skipBreaks s).length)

/-- The bytes that a text stands for, if its spare bits are zero and none of its digits is spare. -/
def decodeStrict (s : Bytes) : Option Bytes :=
  match A.read 0 (skipBreaks s) with
  | none => none
  | some v =>
    if A.spare (skipBreaks s).length < A.width ∧ v % 2 ^ A.spare (skipBreaks s).length = 0 then
      some (A.bytes (skipBreaks s).length v)
    else
      none

/-! ## Digits -/

variable {d v : Nat} {c : UInt8} {x s : Bytes}

theorem char_mem (h : d < 2 ^ A.width) : A.char d ∈ A.chars := by
  have hd : d < A.chars.length := by rw [A.size]; exact h
  unfold char
  rw [getD_eq_getElem _ _ hd]
  exact getElem_mem hd

theorem value_char (h : d < 2 ^ A.width) : A.value (A.char d) = some d := by
  have hd : d < A.chars.length := by rw [A.size]; exact h
  unfold value
  rw [if_pos (A.char_mem h)]
  unfold char
  rw [getD_eq_getElem _ _ hd, A.nodup.idxOf_getElem d hd]

@[simp] theorem write_length (d v : Nat) : (A.write d v).length = d := by
  induction d with
  | zero => rfl
  | succ d ih => rw [write, length_cons, ih]

theorem mem_write (h : c ∈ A.write d v) : c ∈ A.chars := by
  induction d with
  | zero => simp [write] at h
  | succ d ih =>
    rcases mem_cons.mp h with rfl | h
    · exact A.char_mem (Nat.mod_lt _ (Nat.two_pow_pos _))
    · exact ih h

/-- What was written is read back, up to the digits that were not written. -/
theorem read_write (d acc v : Nat) :
    A.read acc (A.write d v) = some (acc * 2 ^ (A.width * d) + v % 2 ^ (A.width * d)) := by
  induction d generalizing acc with
  | zero => simp [write, read, Nat.mod_one]
  | succ d ih =>
    have hdigit : v / 2 ^ (A.width * d) % 2 ^ A.width < 2 ^ A.width := Nat.mod_lt _ (Nat.two_pow_pos _)
    rw [write, read, A.value_char hdigit]
    simp only
    rw [ih, Nat.mul_succ, pow_add, Nat.mod_mul]
    ring_nf

/-! ## Texts -/

/-- The digits of `n` bytes hold their bits, and less than one digit more. -/
theorem count_bounds (n : Nat) : 8 * n ≤ A.width * A.count n ∧ A.width * A.count n < 8 * n + A.width := by
  have hpos := A.width_pos
  have hle : A.width * A.count n ≤ 8 * n + A.width - 1 := Nat.mul_div_le _ _
  have hlt : 8 * n + A.width - 1 < A.width * (A.count n + 1) := Nat.lt_mul_div_succ _ hpos
  rw [Nat.mul_succ] at hlt
  constructor <;> omega

theorem count_bytes (n : Nat) : A.width * A.count n / 8 = n := by
  obtain ⟨hge, hlt⟩ := A.count_bounds n
  have hle := A.width_le
  omega

theorem spare_count (n : Nat) : A.spare (A.count n) = A.width * A.count n - 8 * n := by
  unfold spare
  rw [A.count_bytes]

@[simp] theorem encode_length (x : Bytes) : (A.encode x).length = A.count x.length :=
  A.write_length _ _

theorem mem_encode (h : c ∈ A.encode x) : c ∈ A.chars := A.mem_write h

theorem skipBreaks_encode (x : Bytes) : skipBreaks (A.encode x) = A.encode x := by
  refine filter_eq_self.mpr fun c hc => ?_
  have hlf : c ≠ 0x0A := fun h => A.no_lf (h ▸ A.mem_encode hc)
  have hcr : c ≠ 0x0D := fun h => A.no_cr (h ▸ A.mem_encode hc)
  simp [hlf, hcr]

/-- The digits of a text are the bits of the bytes, with the spare ones zero. -/
theorem read_encode (x : Bytes) : A.read 0 (A.encode x) = some (ofBe x * 2 ^ A.spare (A.count x.length)) := by
  obtain ⟨hge, -⟩ := A.count_bounds x.length
  unfold encode
  rw [A.read_write, A.spare_count, Nat.zero_mul, Nat.zero_add, Nat.mod_eq_of_lt]
  have hlt := ofBe_lt x
  have hpow : 256 ^ x.length = 2 ^ (8 * x.length) := by rw [pow_mul]; norm_num
  calc ofBe x * 2 ^ (A.width * A.count x.length - 8 * x.length)
      < 256 ^ x.length * 2 ^ (A.width * A.count x.length - 8 * x.length) :=
        Nat.mul_lt_mul_of_pos_right hlt (Nat.two_pow_pos _)
    _ = 2 ^ (A.width * A.count x.length) := by rw [hpow, ← pow_add, Nat.add_sub_cancel' hge]

theorem bytes_encode (x : Bytes) : A.bytes (A.count x.length) (ofBe x * 2 ^ A.spare (A.count x.length)) = x := by
  unfold bytes
  rw [A.count_bytes, Nat.mul_div_cancel _ (Nat.two_pow_pos _), beBytes_ofBe]

/-- **A text stands for the bytes it was made from.** -/
theorem decode_encode (x : Bytes) : A.decode (A.encode x) = some x := by
  unfold decode
  rw [A.skipBreaks_encode, A.read_encode, map_some, A.encode_length, A.bytes_encode]

theorem decodeStrict_encode (x : Bytes) : A.decodeStrict (A.encode x) = some x := by
  unfold decodeStrict
  rw [A.skipBreaks_encode, A.read_encode, A.encode_length]
  have hspare : A.spare (A.count x.length) < A.width := by
    obtain ⟨hge, hlt⟩ := A.count_bounds x.length
    rw [A.spare_count]
    omega
  simp only
  rw [if_pos ⟨hspare, Nat.mul_mod_left _ _⟩, A.bytes_encode]

/-! ## What a strict decoder accepts -/

theorem char_of_value (h : A.value c = some d) : A.char d = c ∧ d < 2 ^ A.width := by
  obtain ⟨hmem, h⟩ := ite_none_right_eq_some.mp h
  cases h
  have hlt := idxOf_lt_length_of_mem hmem
  unfold char
  rw [getD_eq_getElem _ _ hlt]
  exact ⟨getElem_idxOf hlt, A.size ▸ hlt⟩

theorem write_read {acc : Nat} {cs : Bytes} (h : A.read acc cs = some v) :
    A.write cs.length v = cs ∧ v / 2 ^ (A.width * cs.length) = acc := by
  induction cs generalizing acc with
  | nil =>
    cases h
    exact ⟨rfl, by simp⟩
  | cons c cs ih =>
    unfold read at h
    split at h
    · simp at h
    next d hd =>
      obtain ⟨hchar, hlt⟩ := A.char_of_value hd
      obtain ⟨hwrite, hdiv⟩ := ih h
      refine ⟨?_, ?_⟩
      · rw [length_cons, write, hwrite, hdiv, Nat.mul_add_mod_self_right, Nat.mod_eq_of_lt hlt, hchar]
      · rw [length_cons, Nat.mul_succ, Nat.pow_add, ← Nat.div_div_eq_div_mul, hdiv, Nat.mul_comm acc,
          Nat.mul_add_div (Nat.two_pow_pos _), Nat.div_eq_of_lt hlt, Nat.add_zero]

/-- **What a strict decoder accepts is the encoding of what it returns, but for line breaks.** -/
theorem decodeStrict_some (h : A.decodeStrict s = some x) : skipBreaks s = A.encode x := by
  unfold decodeStrict at h
  split at h
  · simp at h
  next v hread =>
    obtain ⟨hstrict, h⟩ := ite_none_right_eq_some.mp h
    obtain ⟨hspare, hzero⟩ := hstrict
    obtain ⟨hwrite, hdiv⟩ := A.write_read hread
    generalize skipBreaks s = cs at *
    cases h
    have hbits : A.width * cs.length = 8 * (A.width * cs.length / 8) + A.spare cs.length := by
      unfold spare
      omega
    have hlen : (A.bytes cs.length v).length = A.width * cs.length / 8 := beBytes_length _ _
    have hcount : A.count (A.width * cs.length / 8) = cs.length := by
      refine Nat.div_eq_of_lt_le ?_ ?_
      · rw [Nat.mul_comm cs.length]
        omega
      · rw [Nat.add_mul, Nat.mul_comm cs.length]
        omega
    -- the number has no bits beyond its digits, and none among the spare ones
    have hsmall : v < 2 ^ (A.width * cs.length) := (Nat.div_eq_zero_iff_lt (Nat.two_pow_pos _)).mp hdiv
    have hquot : v / 2 ^ A.spare cs.length < 256 ^ (A.width * cs.length / 8) := by
      refine Nat.div_lt_of_lt_mul ?_
      rw [show (256 : Nat) = 2 ^ 8 from rfl, ← Nat.pow_mul, ← Nat.pow_add, Nat.add_comm, ← hbits]
      exact hsmall
    have hvalue : ofBe (A.bytes cs.length v) * 2 ^ A.spare cs.length = v := by
      unfold bytes
      rw [ofBe_beBytes hquot]
      exact Nat.div_mul_cancel (Nat.dvd_of_mod_eq_zero hzero)
    unfold encode
    rw [hlen, hcount, show A.width * cs.length - 8 * (A.width * cs.length / 8) = A.spare cs.length from rfl,
      hvalue, hwrite]

/-- Two texts are accepted as the same bytes exactly if they are equal but for line breaks. -/
theorem decodeStrict_eq_iff {t y : Bytes} (hs : A.decodeStrict s = some x) (ht : A.decodeStrict t = some y) :
    x = y ↔ skipBreaks s = skipBreaks t := by
  constructor
  · intro h
    rw [A.decodeStrict_some hs, A.decodeStrict_some ht, h]
  · intro h
    unfold decodeStrict at hs ht
    rw [h] at hs
    exact some.inj (hs.symm.trans ht)

end Alphabet

end BaseText
