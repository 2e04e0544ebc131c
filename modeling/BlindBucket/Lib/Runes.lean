import BlindBucket.Lib.GoText
import Mathlib.Data.FinEnum

/-!
# Runes

A text is read rune by rune. A byte that does not begin the encoding of a rune stands for the replacement rune and is
passed over on its own, so that every text is a sequence of runes; it is valid if there is no such byte in it. A rune
takes four bytes at most, which bounds the bytes of a text by its runes.
-/

namespace GoText

open List

/-- A rune of a text: its code point, the bytes it takes, and whether they are its encoding. -/
structure Rune where
  value : Nat
  size : Nat
  valid : Bool
deriving DecidableEq

/-- What a byte that encodes nothing is read as. -/
def runeError : Rune := ⟨0xFFFD, 1, false⟩

/-- The length of an encoding by its first byte, and the range of its second one. -/
def leadByte (b : UInt8) : Option (Nat × UInt8 × UInt8) :=
  if b < 0xC2 then none
  else if b < 0xE0 then some (2, 0x80, 0xBF)
  else if b = 0xE0 then some (3, 0xA0, 0xBF)
  else if b = 0xED then some (3, 0x80, 0x9F)
  else if b < 0xF0 then some (3, 0x80, 0xBF)
  else if b = 0xF0 then some (4, 0x90, 0xBF)
  else if b < 0xF4 then some (4, 0x80, 0xBF)
  else if b = 0xF4 then some (4, 0x80, 0x8F)
  else none

/-- The bits of a first byte that belong to the code point. -/
def leadBits (b : UInt8) (size : Nat) : Nat := b.toNat % 2 ^ (7 - size)

/-- `utf8.DecodeRuneInString` of a text that begins with `b`. -/
def decodeRune (b : UInt8) (rest : Bytes) : Rune :=
  if b < 0x80 then ⟨b.toNat, 1, true⟩
  else
    match leadByte b, rest with
    | some (size, lo, hi), second :: more =>
      let tail := more.take (size - 2)
      if lo ≤ second ∧ second ≤ hi ∧ tail.length = size - 2 ∧ ∀ c ∈ tail, 0x80 ≤ c ∧ c ≤ 0xBF then
        ⟨(second :: tail).foldl (fun v c => v * 64 + c.toNat % 64) (leadBits b size), size, true⟩
      else runeError
    | _, _ => runeError

/-- The runes of a text, for enough fuel. -/
def readRunes : Nat → Bytes → List Rune
  | 0, _ => []
  | _ + 1, [] => []
  | fuel + 1, b :: rest =>
    decodeRune b rest :: readRunes fuel (rest.drop ((decodeRune b rest).size - 1))

/-- What a loop over a string ranges over. -/
def runes (s : Bytes) : List Rune := readRunes s.length s

/-- `utf8.RuneCountInString`. -/
def runeCount (s : Bytes) : Nat := (runes s).length

def validString (s : Bytes) : Bool := (runes s).all Rune.valid

theorem decodeRune_size (b : UInt8) (rest : Bytes) : (decodeRune b rest).size ≤ 4 := by
  have hlead : ∀ {size : Nat} {lo hi : UInt8}, leadByte b = some (size, lo, hi) → size ≤ 4 := by
    intro size lo hi h
    unfold leadByte at h
    grind
  unfold decodeRune
  split
  · exact Nat.le_of_ble_eq_true rfl
  · split
    next hsize =>
      dsimp only
      split
      · exact hlead hsize
      · exact Nat.le_of_ble_eq_true rfl
    · exact Nat.le_of_ble_eq_true rfl

/-- **A text is at most four times as long as it has runes.** -/
theorem length_le_runeCount (s : Bytes) : s.length ≤ 4 * runeCount s := by
  have hread : ∀ (fuel : Nat) (s : Bytes), s.length ≤ fuel → s.length ≤ 4 * (readRunes fuel s).length := by
    intro fuel
    induction fuel with
    | zero => intro s hs; omega
    | succ fuel ih =>
      intro s hs
      cases s with
      | nil => exact Nat.zero_le _
      | cons b rest =>
        have hsize := decodeRune_size b rest
        rw [readRunes, length_cons, length_cons]
        rw [length_cons] at hs
        have hrest := ih (rest.drop ((decodeRune b rest).size - 1)) (by rw [length_drop]; omega)
        rw [length_drop] at hrest
        omega
  exact hread s.length s le_rfl

end GoText
