import Mathlib.Data.Finset.Card
import Mathlib.Algebra.Order.Ring.Nat

/-!
# Loops over pages that somebody else sends

A loop asks for a page, and returns or asks for the next one. A page is idle if it has no entry and a
marker that an earlier page had. Every other page brings an entry or a new marker, so that entries and
markers bound the number of requests if, and only if, they bound the number of idle pages.
-/

namespace Pager

open List

variable {σ π ρ μ : Type}

/-- What a loop does with a page. -/
inductive Turn (σ ρ : Type) where
  | again (s : σ)
  | returns (r : ρ)
deriving DecidableEq

/-- A loop over the pages that arrive, one for each request. -/
def turns (turn : σ → π → Turn σ ρ) : σ → List π → Turn σ ρ
  | s, [] => .again s
  | s, p :: ps =>
    match turn s p with
    | .again s' => turns turn s' ps
    | .returns r => .returns r

theorem turns_returns {turn : σ → π → Turn σ ρ} {s : σ} {ps : List π} {r : ρ}
    (h : turns turn s ps = .returns r) : ∃ s' p, turn s' p = .returns r := by
  induction ps generalizing s with
  | nil => cases h
  | cons p ps ih =>
    rw [turns] at h
    cases hp : turn s p with
    | again s' =>
      rw [hp] at h
      exact ih h
    | returns r' =>
      rw [hp] at h
      exact ⟨s, p, hp.trans h⟩

variable [DecidableEq μ] (entries : π → Nat) (marker : π → μ)

/-- The pages without an entry whose marker came before. -/
def idle (seen : Finset μ) : List π → Nat
  | [] => 0
  | p :: ps => (if entries p = 0 ∧ marker p ∈ seen then 1 else 0) + idle (insert (marker p) seen) ps

def markers (ps : List π) : Finset μ := (ps.map marker).toFinset

theorem idle_le (seen : Finset μ) (ps : List π) : idle entries marker seen ps ≤ ps.length := by
  induction ps generalizing seen with
  | nil => exact le_rfl
  | cons p ps ih =>
    have := ih (insert (marker p) seen)
    rw [idle, length_cons]
    split <;> omega

/-- A page that is not idle brings an entry or a new marker. -/
theorem length_le (seen : Finset μ) (ps : List π) : ps.length + seen.card
    ≤ (ps.map entries).sum + (seen ∪ markers marker ps).card + idle entries marker seen ps := by
  induction ps generalizing seen with
  | nil => simp [markers, idle]
  | cons p ps ih =>
    have hunion : seen ∪ markers marker (p :: ps) = insert (marker p) seen ∪ markers marker ps := by
      rw [markers, map_cons, toFinset_cons, Finset.union_insert, Finset.insert_union, markers]
    have := ih (insert (marker p) seen)
    rw [hunion, idle, map_cons, sum_cons, length_cons]
    by_cases hnew : marker p ∈ seen
    · rw [Finset.insert_eq_of_mem hnew] at this ⊢
      by_cases he : entries p = 0
      · rw [if_pos ⟨he, hnew⟩]
        omega
      · omega
    · rw [Finset.card_insert_of_notMem hnew] at this
      omega

/-- The loop returns, after a number of requests that the entries and the markers of its pages bound. -/
def ReturnsWithin (run : List π → Turn σ ρ) (S : Set (List π)) : Prop :=
  ∀ e m, ∃ b, ∀ ps ∈ S, (ps.map entries).sum ≤ e → (markers marker ps).card ≤ m →
    b < ps.length → ∃ r, run ps = .returns r

/-- Of the pages on which the loop goes on, the entries and the markers bound the number of idle ones. -/
def FewIdle (GoesOn : List π → Prop) (S : Set (List π)) : Prop :=
  ∀ e m, ∃ b, ∀ ps ∈ S, GoesOn ps → (ps.map entries).sum ≤ e → (markers marker ps).card ≤ m →
    idle entries marker ∅ ps ≤ b

theorem returnsWithin_iff_fewIdle {run : List π → Turn σ ρ} {GoesOn : List π → Prop}
    (hrun : ∀ ps, (∃ s, run ps = .again s) ↔ GoesOn ps) (S : Set (List π)) :
    ReturnsWithin entries marker run S ↔ FewIdle entries marker GoesOn S := by
  constructor
  · intro h e m
    obtain ⟨b, hb⟩ := h e m
    refine ⟨b, fun ps hps hgo he hm => (idle_le entries marker ∅ ps).trans ?_⟩
    by_contra hlong
    obtain ⟨s, hs⟩ := (hrun ps).mpr hgo
    obtain ⟨r, hr⟩ := hb ps hps he hm (by omega)
    cases hs.symm.trans hr
  · intro h e m
    obtain ⟨b, hb⟩ := h e m
    refine ⟨e + m + b, fun ps hps he hm hlong => ?_⟩
    cases hps' : run ps with
    | returns r => exact ⟨r, rfl⟩
    | again s =>
      have hidle := hb ps hps ((hrun ps).mp ⟨s, hps'⟩) he hm
      have := length_le entries marker ∅ ps
      rw [Finset.empty_union] at this
      omega

end Pager
