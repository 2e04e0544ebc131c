import Mathlib.Data.List.Basic
import Mathlib.Algebra.Order.Ring.Nat
import Mathlib.Tactic.Ring
import Mathlib.Tactic.Linarith

/-!
# Cutting a list into blocks

A list of length `n` is cut into `count C n` blocks of `C` elements, the last of which
may be shorter. There is always at least one block, so the empty list is one empty
block. Block `i` is a slice, which is the form random access needs; `drop_block` is the
step a front-to-back reader takes.
-/

namespace Blocks

open List

variable {α : Type}

/-- How many blocks of `C` a list of length `n` makes. -/
def count (C n : Nat) : Nat := max 1 ((n + C - 1) / C)

/-- The `i`-th block of `C` elements. -/
def block (C : Nat) (P : List α) (i : Nat) : List α := (P.drop (i * C)).take C

theorem count_pos (C n : Nat) : 0 < count C n := by unfold count; omega

variable {C a n i : Nat} {P : List α}

theorem count_eq_iff (hC : 0 < C) (n k : Nat) : count C n = k ↔ 1 ≤ k ∧ n ≤ k * C ∧ (k = 1 ∨ (k - 1) * C < n) := by
  have hdiv := Nat.div_add_mod (n + C - 1) C
  have hmod := Nat.mod_lt (n + C - 1) hC
  unfold count
  generalize (n + C - 1) / C = q at *
  constructor
  · rintro rfl
    rcases Nat.eq_zero_or_pos q with rfl | hq
    · refine ⟨by omega, ?_, Or.inl (by omega)⟩
      omega
    · have hmax : max 1 q = q := Nat.max_eq_right hq
      obtain ⟨m, rfl⟩ : ∃ m, q = m + 1 := ⟨q - 1, by omega⟩
      rw [hmax]
      rw [Nat.mul_add, Nat.mul_comm] at hdiv
      refine ⟨by omega, ?_, ?_⟩
      · rw [Nat.add_mul, Nat.one_mul]; omega
      · rcases Nat.eq_zero_or_pos m with rfl | hm
        · exact Or.inl rfl
        · rw [Nat.add_sub_cancel]
          omega
  · rintro ⟨h1, h2, h3⟩
    have hle : q ≤ k := by
      by_contra hlt
      have : (k + 1) * C ≤ q * C := Nat.mul_le_mul_right C (by omega)
      rw [Nat.add_mul] at this
      rw [Nat.mul_comm] at hdiv
      omega
    rcases h3 with rfl | h3
    · omega
    · have hge : k ≤ q := by
        by_contra hlt
        have : q * C ≤ (k - 1) * C := Nat.mul_le_mul_right C (by omega)
        rw [Nat.mul_comm] at hdiv
        omega
      omega

theorem count_add {b : Nat} (hC : 0 < C) (hdvd : C ∣ a) (ha : 0 < a) (hb : 0 < b) :
    count C (a + b) = count C a + count C b := by
  obtain ⟨m, rfl⟩ := hdvd
  have hm : 0 < m := Nat.pos_of_mul_pos_left ha
  have hfull : count C (C * m) = m := by
    refine (count_eq_iff hC _ _).mpr ⟨hm, le_of_eq (Nat.mul_comm C m), ?_⟩
    right
    rw [Nat.mul_comm C m]
    exact Nat.mul_lt_mul_of_pos_right (by omega) hC
  obtain ⟨hpos, hle, hlast⟩ := (count_eq_iff hC b _).mp rfl
  rw [hfull]
  generalize count C b = k at *
  refine (count_eq_iff hC _ _).mpr ⟨by omega, ?_, .inr ?_⟩
  · rw [Nat.add_mul, Nat.mul_comm m C]
    omega
  · have hsub : m + k - 1 = m + (k - 1) := by omega
    rw [hsub, Nat.add_mul, Nat.mul_comm m C]
    rcases hlast with rfl | hlast
    · omega
    · omega

theorem le_count_mul (hC : 0 < C) (n : Nat) : n ≤ count C n * C :=
  ((count_eq_iff hC n _).mp rfl).2.1

theorem mul_le_of_lt_count (hC : 0 < C) (h : i < count C n) : i * C ≤ n := by
  obtain ⟨_, _, h1 | h1⟩ := (count_eq_iff hC n _).mp rfl
  · have : i = 0 := by omega
    rw [this, Nat.zero_mul]
    exact Nat.zero_le _
  · exact Nat.le_trans (Nat.mul_le_mul_right C (by omega)) (h1.le)

theorem mul_lt_of_lt_count (hC : 0 < C) (h : i < count C n) (hi : 0 < i) : i * C < n := by
  obtain ⟨_, _, h1 | h1⟩ := (count_eq_iff hC n _).mp rfl
  · omega
  · exact Nat.lt_of_le_of_lt (Nat.mul_le_mul_right C (by omega)) h1

theorem div_lt_count (hC : 0 < C) (h : a < n) : a / C < count C n := by
  have := le_count_mul hC n
  rw [Nat.div_lt_iff_lt_mul hC]
  omega

theorem block_length_le (C : Nat) (P : List α) (i : Nat) : (block C P i).length ≤ C := by
  unfold block
  rw [length_take]
  exact Nat.min_le_left _ _

theorem block_length (C : Nat) (P : List α) (i : Nat) : (block C P i).length = min C (P.length - i * C) := by
  unfold block
  rw [length_take, length_drop]

theorem block_length_of_lt (hC : 0 < C) (h : i + 1 < count C P.length) : (block C P i).length = C := by
  have hle := mul_le_of_lt_count hC h
  rw [Nat.add_mul] at hle
  rw [block_length]
  omega

theorem block_length_last (hC : 0 < C) (h : i + 1 = count C P.length) : (block C P i).length = P.length - i * C := by
  have hle := le_count_mul hC P.length
  rw [← h, Nat.add_mul] at hle
  rw [block_length]
  omega

theorem drop_block (C : Nat) (P : List α) (i : Nat) : P.drop (i * C) = block C P i ++ P.drop ((i + 1) * C) := by
  unfold block
  rw [Nat.add_mul, Nat.one_mul, ← drop_drop, take_append_drop]

theorem drop_count (hC : 0 < C) (P : List α) : P.drop (count C P.length * C) = [] :=
  drop_of_length_le (le_count_mul hC P.length)

theorem block_take {m : Nat} (h : (i + 1) * C ≤ m) : block C (P.take m) i = block C P i := by
  unfold block
  rw [Nat.add_mul] at h
  rw [drop_take, take_take]
  congr 1
  omega

theorem block_append {Q : List α} (h : (i + 1) * C ≤ P.length) : block C (P ++ Q) i = block C P i := by
  rw [← block_take h, take_left']
  rfl

end Blocks
