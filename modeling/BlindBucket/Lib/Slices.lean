import Mathlib.Data.List.Basic
import Mathlib.Tactic.Common
import Mathlib.Algebra.Order.Ring.Nat

/-!
# Slices of a concatenation

A list that is the concatenation of segments, and where the segments stand in it.
`List.extract l a b` is the part of `l` from position `a` up to `b`.
-/

namespace Slices

open List

variable {α : Type}

variable {l : List α} {a b i : Nat}

theorem extract_append_extract {c : Nat} (hab : a ≤ b) (hbc : b ≤ c) :
    l.extract a b ++ l.extract b c = l.extract a c := by
  have hb : l.drop b = (l.drop a).drop (b - a) := by
    rw [drop_drop, show a + (b - a) = b by omega]
  rw [extract_eq_take_drop, extract_eq_take_drop, hb,
    ← take_add, show b - a + (c - b) = c - a by omega]

theorem extract_eq_nil (h : b ≤ a) : l.extract a b = [] := by
  rw [extract_eq_take_drop, Nat.sub_eq_zero_of_le h, take_zero]

theorem extract_length (hb : b ≤ l.length) : (l.extract a b).length = b - a := by
  rw [length_take, length_drop]
  omega

variable (sizes : List Nat)

/-- Where segment `i` of a concatenation of segments with these sizes begins. -/
def start (i : Nat) : Nat := (sizes.take i).sum

theorem start_zero : start sizes 0 = 0 := rfl

theorem start_cons_succ (n : Nat) (sizes : List Nat) (i : Nat) : start (n :: sizes) (i + 1) = n + start sizes i := by
  unfold start
  rw [take_succ_cons, sum_cons]

theorem start_succ {sizes : List Nat} {n : Nat} (h : sizes[i]? = some n) : start sizes (i + 1) = start sizes i + n := by
  unfold start
  rw [take_add_one, h]
  simp

theorem start_length : start sizes sizes.length = sizes.sum := by
  unfold start
  rw [take_length]

theorem start_le (i : Nat) : start sizes i ≤ start sizes (i + 1) := by
  cases h : sizes[i]? with
  | none =>
    have hlen := getElem?_eq_none_iff.mp h
    unfold start
    exact Nat.le_of_eq (by rw [take_of_length_le hlen, take_of_length_le (by omega)])
  | some n => rw [start_succ h]; exact Nat.le_add_right _ _

theorem start_mono {j : Nat} (h : i ≤ j) : start sizes i ≤ start sizes j := by
  induction h with
  | refl => exact le_rfl
  | step _ ih => exact ih.trans (start_le sizes _)

theorem start_le_sum (i : Nat) : start sizes i ≤ sizes.sum := by
  rcases Nat.le_total i sizes.length with h | h
  · rw [← start_length]; exact start_mono sizes h
  · unfold start
    exact Nat.le_of_eq (by rw [take_of_length_le h])

/-- A slice that lies within segment `i` is a slice of it. -/
theorem extract_flatten {segs : List (List α)} {s : List α} (h : segs[i]? = some s) (hb : b ≤ s.length) :
    segs.flatten.extract (start (segs.map length) i + a) (start (segs.map length) i + b)
      = s.extract a b := by
  obtain ⟨hi, hs⟩ := List.getElem?_eq_some_iff.mp h
  have hsplit : segs.flatten = (segs.take i).flatten ++ (s ++ (segs.drop (i + 1)).flatten) := by
    conv_lhs => rw [← take_append_drop i segs, drop_eq_getElem_cons hi, hs]
    rw [flatten_append, flatten_cons]
  have hstart : start (segs.map length) i = (segs.take i).flatten.length := by
    unfold start
    rw [← map_take, length_flatten]
  rw [hstart, hsplit, extract_eq_take_drop,
    ← drop_drop, drop_left, drop_append, take_append,
    show (segs.take i).flatten.length + b - ((segs.take i).flatten.length + a) = b - a by omega]
  rw [show b - a - (s.drop a).length = 0 by rw [length_drop]; omega, take_zero,
    append_nil]

end Slices
