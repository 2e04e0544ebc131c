import Mathlib.Data.List.Basic
import Mathlib.Data.List.GetD
import Mathlib.Tactic.Common

/-!
# Arrays and the slices into them

An arena is the memory for the arrays of one element type: an array is reached by its address and never
moves. A slice is an array's address and how much of the array it shows. Appending to a slice writes behind
it, into the array that other slices may show too, if the array is long enough, and otherwise makes a new
array.

`Writes owned` says what a piece of code may do to an arena: of the arrays that were there it wrote only to
those that are `owned`, and it may have made new ones. What a slice shows is then the same as before, if its
array was there and is not owned. The same relation serves for a list of objects, where a cell is an object.
-/

/-- The arrays of one element type, by address. -/
abbrev Arena (α : Type) := List (List α)

/-- The beginning of an array. -/
structure Slice where
  addr : Nat
  len : Nat
deriving DecidableEq

namespace Arena

open List

variable {α : Type}

def read (a : Arena α) (s : Slice) : List α := (a.getD s.addr []).take s.len

def alloc (a : Arena α) (xs : List α) : Arena α × Slice := (a ++ [xs], ⟨a.length, xs.length⟩)

/-- Behind the slice if its array has room, and else in a new array with room for `spare`. -/
def append (a : Arena α) (s : Slice) (xs spare : List α) : Arena α × Slice :=
  let array := a.getD s.addr []
  if s.len + xs.length ≤ array.length then
    (a.set s.addr (array.take s.len ++ xs ++ array.drop (s.len + xs.length)), ⟨s.addr, s.len + xs.length⟩)
  else
    (a ++ [array.take s.len ++ xs ++ spare], ⟨a.length, (array.take s.len ++ xs).length⟩)

/-- Of the cells that were there, only the owned ones may have changed. -/
structure Writes (owned : Nat → Prop) (a a' : List α) : Prop where
  length : a.length ≤ a'.length
  frame : ∀ i, i < a.length → ¬ owned i → a'[i]? = a[i]?

namespace Writes

variable {owned owned' : Nat → Prop} {a a' a'' : List α}

theorem refl (owned : Nat → Prop) (a : List α) : Writes owned a a := ⟨Nat.le_refl _, fun _ _ _ => rfl⟩

theorem push (owned : Nat → Prop) (a new : List α) : Writes owned a (a ++ new) := by
  refine ⟨by rw [length_append]; exact Nat.le_add_right _ _, ?_⟩
  intro i hi _
  rw [getElem?_append_left hi]

theorem set {i : Nat} (hi : owned i) (a : List α) (x : α) : Writes owned a (a.set i x) := by
  refine ⟨Nat.le_of_eq length_set.symm, ?_⟩
  intro j _ hno
  have hne : i ≠ j := fun heq => hno (heq ▸ hi)
  rw [getElem?_set_ne hne]

end Writes

variable {s : Slice}

theorem append_writes {owned : Nat → Prop} (hs : owned s.addr) (a : Arena α) (xs spare : List α) :
    Writes owned a (append a s xs spare).1 := by
  unfold append
  dsimp only
  split
  · exact Writes.set hs a _
  · exact Writes.push owned a _

theorem append_addr (a : Arena α) (s : Slice) (xs spare : List α) :
    (append a s xs spare).2.addr = s.addr ∨ a.length ≤ (append a s xs spare).2.addr := by
  unfold append
  dsimp only
  split
  · exact Or.inl rfl
  · exact Or.inr (Nat.le_refl _)

theorem read_append (a : Arena α) (s : Slice) (xs spare : List α) :
    read (append a s xs spare).1 (append a s xs spare).2 = read a s ++ xs := by
  unfold append read
  dsimp only
  generalize harray : a.getD s.addr [] = array
  split
  next hroom =>
    by_cases hs : s.addr < a.length
    · have hlen : (array.take s.len ++ xs).length = s.len + xs.length := by
        rw [length_append, length_take, Nat.min_eq_left (by omega)]
      rw [getD_eq_getElem?_getD, getElem?_set_self hs, Option.getD_some, ← hlen, take_left' rfl]
    · -- there is no array, so there was nothing to append
      have hnone : array = [] := harray ▸ getD_eq_default _ _ (Nat.not_lt.mp hs)
      have hxs : xs = [] := by
        rw [hnone, length_nil] at hroom
        exact eq_nil_of_length_eq_zero (by omega)
      rw [getD_eq_default _ _ (by rw [length_set]; exact Nat.not_lt.mp hs), hnone, hxs]
      simp
  · rw [getD_eq_getElem?_getD, getElem?_concat_length, Option.getD_some, take_left' rfl]

theorem Writes.read {owned : Nat → Prop} {a a' : Arena α} (h : Writes owned a a') (hs : s.addr < a.length)
    (hno : ¬ owned s.addr) : Arena.read a' s = Arena.read a s := by
  unfold Arena.read
  rw [getD_eq_getElem?_getD, getD_eq_getElem?_getD, h.frame s.addr hs hno]

theorem read_alloc (a : Arena α) (xs : List α) : read (a ++ [xs]) ⟨a.length, xs.length⟩ = xs := by
  unfold read
  rw [getD_eq_getElem?_getD, getElem?_concat_length]
  exact take_length

end Arena
