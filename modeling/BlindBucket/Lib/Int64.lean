import Mathlib.Data.Int.Basic
import Mathlib.Algebra.Order.Ring.Nat

/-!
# Arithmetic that does not overflow

A computation on signed 64-bit integers, written over the integers with a check at every operation. It
is stuck as soon as a result does not fit. A computation that is shown not to get stuck is one in which
nothing overflows, and its result is the one over the integers.
-/

namespace Machine

def InInt64 (x : Int) : Prop := -2 ^ 63 ≤ x ∧ x < 2 ^ 63

instance (x : Int) : Decidable (InInt64 x) := inferInstanceAs (Decidable (_ ∧ _))

/-- A computation that may fail, and that is stuck where a result does not fit. -/
abbrev Checked (ε α : Type) := ExceptT ε Option α

variable {ε α : Type}

/-- The result of one operation. -/
def int64 (x : Int) : Checked ε Int := if InInt64 x then pure x else ExceptT.mk none

/-- A step that computes nothing. -/
def given (r : Except ε α) : Checked ε α := ExceptT.mk (some r)

variable {x : Int}

theorem int64_fits (h : -2 ^ 62 ≤ x) (h' : x ≤ 2 ^ 62) : (int64 x : Checked ε Int) = pure x :=
  if_pos ⟨by omega, by omega⟩

theorem given_ok (a : α) : (given (.ok a) : Checked ε α) = pure a := rfl

end Machine
