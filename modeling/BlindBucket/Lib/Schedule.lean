import BlindBucket.Lib.Service
import Mathlib.Data.List.Infix

/-!
# Runs that are given

A run of a system as a list of steps, each with what the step leaves open. It is computed step by
step, and what it ends in can be reached. What happened since a request of some kind is decided from
the history.
-/

namespace Service

open List

variable {S Q : Type} {A : Q → Type} {ρ : Type} {M : System S Q A ρ}

section

variable {C : Type} (perform : S → (q : Q) → C → A q × S) (move : S → C → S)
  (program : Nat → Prog Q A ρ) (ready : Nat → World S Q A → Bool)

inductive Move (C : Type) where
  | start (i : Nat)
  | ask (i : Nat) (ch : C)
  | crash (i : Nat)
  | drift (ch : C)

/-- The configuration after a step. A step that is not possible changes nothing. -/
def Conf.exec (c : Conf S Q A ρ) : Move C → Conf S Q A ρ
  | .start i =>
    match c.threads i with
    | .idle =>
      if ready i c.world then { c with threads := Function.update c.threads i (.running (program i)) }
      else c
    | _ => c
  | .ask i ch =>
    match c.threads i with
    | .running (.ask q next) =>
      ⟨c.world.after i q (perform c.world.state q ch).1 (perform c.world.state q ch).2,
        Function.update c.threads i (.running (next (perform c.world.state q ch).1))⟩
    | _ => c
  | .crash i => { c with threads := Function.update c.threads i .crashed }
  | .drift ch => { c with world := c.world.moved (move c.world.state ch) }

def Conf.execAll (c : Conf S Q A ρ) (ms : List (Move C)) : Conf S Q A ρ :=
  ms.foldl (fun c m => c.exec perform move program ready m) c

variable {perform move program ready}

variable {s₀ : S} {c : Conf S Q A ρ}

/-- All requests of a run are let through. -/
def Conf.letsAll (lets : Nat → World S Q A → Q → Prop) [∀ i w q, Decidable (lets i w q)]
    (perform : S → (q : Q) → C → A q × S) (move : S → C → S) (program : Nat → Prog Q A ρ)
    (ready : Nat → World S Q A → Bool) : Conf S Q A ρ → List (Move C) → Bool
  | _, [] => true
  | c, m :: ms =>
    (match m with
      | .ask i _ =>
        match c.threads i with
        | .running (.ask q _) => decide (lets i c.world q)
        | _ => true
      | _ => true)
      && Conf.letsAll lets perform move program ready (c.exec perform move program ready m) ms

variable (hserve : ∀ s q ch, M.serve s q (perform s q ch).1 (perform s q ch).2) (hdrift : ∀ s ch, M.drift s (move s ch))
  (hstarts : ∀ i w, ready i w = true → M.starts i w (program i))

include hserve hdrift hstarts

theorem Reach.exec (h : Reach M s₀ c) (m : Move C)
    (hlets : ∀ i ch q next, m = .ask i ch → c.threads i = .running (.ask q next) → M.lets i c.world q) :
    Reach M s₀ (c.exec perform move program ready m) := by
  cases m with
  | start i =>
    unfold Conf.exec
    dsimp only
    split
    next hidle =>
      split
      next hready =>
        exact h.step (.start i hidle (hstarts i _ hready))
      · exact h
    · exact h
  | ask i ch =>
    unfold Conf.exec
    dsimp only
    split
    next q next hrun =>
      exact h.step (.ask i hrun (hlets i ch q next rfl hrun) (hserve _ q ch))
    · exact h
  | crash i => exact h.step (.crash i)
  | drift ch => exact h.step (.drift (hdrift _ ch))

theorem Reach.execAll (hlets : ∀ i w q, M.lets i w q) (h : Reach M s₀ c) (ms : List (Move C)) :
    Reach M s₀ (c.execAll perform move program ready ms) := by
  induction ms generalizing c with
  | nil => exact h
  | cons m ms ih => exact ih (h.exec hserve hdrift hstarts m fun i _ q _ _ _ => hlets i _ q)

theorem Reach.execLets {lets : Nat → World S Q A → Q → Prop} [∀ i w q, Decidable (lets i w q)]
    (himp : ∀ i w q, lets i w q → M.lets i w q) (h : Reach M s₀ c) (ms : List (Move C))
    (hlets : c.letsAll lets perform move program ready ms = true) :
    Reach M s₀ (c.execAll perform move program ready ms) := by
  induction ms generalizing c with
  | nil => exact h
  | cons m ms ih =>
    obtain ⟨hm, hrest⟩ := Bool.and_eq_true_iff.mp hlets
    refine ih (h.exec hserve hdrift hstarts m ?_) hrest
    rintro i ch q next rfl hrun
    dsimp only at hm
    rw [hrun] at hm
    exact himp i _ q (of_decide_eq_true hm)

end

/-! ## Deciding what happened since -/

section

variable (p stop p' : Event Q A → Prop) [DecidablePred p] [DecidablePred stop] [DecidablePred p']

/-- A request of the kind that this entry of the history is, if it is one. -/
def isKind (r : Event Q A → Prop) [DecidablePred r] (x : Option (Event Q A) × S) : Bool :=
  match x.1 with
  | some e => decide (r e)
  | none => false

/-- A history that begins with a request of one kind, has one of another after it, and none that stops it. -/
def sinceHead : List (Option (Event Q A) × S) → Bool
  | [] => false
  | x :: rest => isKind p x && rest.all (fun y => !isKind stop y) && rest.any (isKind p')

variable {p stop p'}

variable {x : Option (Event Q A) × S}

theorem isKind_some {r : Event Q A → Prop} [DecidablePred r] : isKind r x = true ↔ ∃ e, x.1 = some e ∧ r e := by
  obtain ⟨o, s⟩ := x
  cases o <;> simp [isKind]

theorem since_iff (w : World S Q A) : (∃ l ∈ w.trace.tails, sinceHead p stop p' l = true) ↔ w.Since p stop p' := by
  constructor
  · rintro ⟨_ | ⟨⟨o, t⟩, since⟩, hl, h⟩
    · simp [sinceHead] at h
    · rw [sinceHead, Bool.and_eq_true, Bool.and_eq_true, all_eq_true, any_eq_true] at h
      obtain ⟨⟨hk, hall⟩, ⟨o', s'⟩, hy, hy'⟩ := h
      obtain ⟨e, rfl, hkind⟩ := isKind_some.mp hk
      obtain ⟨e', rfl, hp'⟩ := isKind_some.mp hy'
      obtain ⟨before, hsplit⟩ := (mem_tails _ _).mp hl
      refine ⟨e, t, since, ⟨⟨before, hsplit.symm⟩, hkind, fun e'' t' hx hs => ?_⟩, e', s', hy, hp'⟩
      have hno := hall _ hx
      rw [isKind_some.mpr ⟨e'', rfl, hs⟩] at hno
      simp at hno
  · rintro ⟨e, t, since, ⟨⟨before, hsplit⟩, hkind, hclear⟩, e', s', hx, hp'⟩
    refine ⟨_, (mem_tails _ _).mpr ⟨before, hsplit.symm⟩, ?_⟩
    rw [sinceHead, Bool.and_eq_true, Bool.and_eq_true, all_eq_true, any_eq_true]
    refine ⟨⟨isKind_some.mpr ⟨e, rfl, hkind⟩, fun y hy => ?_⟩, _, hx, isKind_some.mpr ⟨e', rfl, hp'⟩⟩
    by_contra hstop
    obtain ⟨e'', hy', hs⟩ := isKind_some.mp (by simpa using hstop)
    exact hclear e'' y.2 (hy' ▸ hy) hs

/-- A request of a kind that is found in the history, with nothing since that stops it. -/
theorem World.mark_of_check {w : World S Q A} (k : Nat) (hk : (w.trace[k]?).any (isKind p) = true)
    (hclear : (w.trace.drop (k + 1)).all (fun y => !isKind stop y) = true) :
    ∃ e s, w.Mark p stop e s (w.trace.drop (k + 1)) := by
  cases hx : w.trace[k]? with
  | none =>
    rw [hx] at hk
    simp at hk
  | some x =>
    rw [hx] at hk
    obtain ⟨o, s⟩ := x
    obtain ⟨e, rfl, he⟩ := isKind_some.mp hk
    obtain ⟨hlt, hget⟩ := List.getElem?_eq_some_iff.mp hx
    refine ⟨e, s, ⟨w.trace.take k, ?_⟩, he, fun e' s' hx' hs => ?_⟩
    · rw [← hget, getElem_cons_drop, take_append_drop]
    · have hno := all_eq_true.mp hclear _ hx'
      rw [isKind_some.mpr ⟨e', rfl, hs⟩] at hno
      simp at hno

instance (w : World S Q A) : Decidable (w.Since p stop p') :=
  decidable_of_iff _ (since_iff w)

end

end Service
