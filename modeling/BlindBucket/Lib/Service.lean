import Mathlib.Logic.Function.Basic
import Mathlib.Data.List.Basic

/-!
# Programs that share a service

A program makes requests to a service and goes on with the answers. Many programs run at once,
each request is served in one step, and the steps of different programs interleave in any order;
a program may be cut off after any step, and the service may move on its own.

The rule for such systems is one of rely and guarantee. `Rules` says which requests a program may
make in which world and what the service keeps if all programs hold to that. A program is proved
on its own (`Prog.Keeps`): each of its requests is allowed by what it knows, and what it knows is
not undone by what the others are allowed to do. `Reach.inv` is the rule.
-/

namespace Service

open List

/-- A program with requests `Q`, answers `A` and result `α`. -/
inductive Prog (Q : Type) (A : Q → Type) (α : Type) where
  | done (a : α)
  | ask (q : Q) (next : A q → Prog Q A α)

variable {S Q : Type} {A : Q → Type} {α β ρ : Type}

namespace Prog

def bind : Prog Q A α → (α → Prog Q A β) → Prog Q A β
  | .done a, f => f a
  | .ask q next, f => .ask q fun a => (next a).bind f

instance : Monad (Prog Q A) where
  pure := .done
  bind := Prog.bind

/-- Make one request. -/
def call (q : Q) : Prog Q A (A q) := .ask q .done

end Prog

/-- A program makes no requests but those of `C`. -/
def Prog.Asks (C : Q → Prop) : Prog Q A α → Prop
  | .done _ => True
  | .ask q next => C q ∧ ∀ a, (next a).Asks C

variable {p : Prog Q A α}

theorem Prog.Asks.bind {C : Q → Prop} {f : α → Prog Q A β} (h : p.Asks C)
    (hf : ∀ a, (f a).Asks C) : (p >>= f).Asks C := by
  induction p with
  | done a => exact hf a
  | ask q next ih => exact ⟨h.1, fun a => ih a (h.2 a)⟩

/-- What a program answers if nothing else runs, and the state it leaves. -/
def Prog.alone (perform : S → (q : Q) → A q × S) : Prog Q A α → S → α × S
  | .done a, s => (a, s)
  | .ask q next, s => (next (perform s q).1).alone perform (perform s q).2

theorem Prog.alone_bind (perform : S → (q : Q) → A q × S) (p : Prog Q A α) (f : α → Prog Q A β) (s : S) :
    (p >>= f).alone perform s = (f (p.alone perform s).1).alone perform (p.alone perform s).2 := by
  induction p generalizing s with
  | done a => rfl
  | ask q next ih => exact ih _ _

/-- A request that was made, by whom, and its answer. -/
structure Event (Q : Type) (A : Q → Type) where
  who : Nat
  q : Q
  a : A q

/-- The state of the service, and what happened so far, each with the state in which it happened:
requests, and moves of the service on its own. -/
structure World (S Q : Type) (A : Q → Type) where
  state : S
  trace : List (Option (Event Q A) × S)

def World.after (w : World S Q A) (i : Nat) (q : Q) (a : A q) (s : S) : World S Q A :=
  ⟨s, w.trace ++ [(some ⟨i, q, a⟩, w.state)]⟩

/-- The world after a move of the service on its own. -/
def World.moved (w : World S Q A) (s : S) : World S Q A := ⟨s, w.trace ++ [(none, w.state)]⟩

/-- What was asked at some time. -/
def World.Asked (w : World S Q A) (e : Event Q A) : Prop := ∃ s, (some e, s) ∈ w.trace

variable {e : Event Q A} {Mid : α → World S Q A → Prop} {ι : Type} {w w' : World S Q A} {s₀ : S}
  {i : Nat} {q : Q} {a : A q} {s : S}

theorem World.asked_after :
    (w.after i q a s).Asked e ↔ w.Asked e ∨ e = ⟨i, q, a⟩ := by
  constructor
  · intro h
    obtain ⟨t, h⟩ := h
    rcases mem_append.mp h with h | h
    · exact .inl ⟨t, h⟩
    · exact .inr (Option.some.inj (Prod.mk.inj (mem_singleton.mp h)).1)
  · intro h
    rcases h with ⟨t, h⟩ | h
    · exact ⟨t, mem_append_left _ h⟩
    · rw [h]
      exact ⟨w.state, mem_append_right _ (mem_singleton.mpr rfl)⟩

theorem World.Asked.after (h : w.Asked e) :
    (w.after i q a s).Asked e := asked_after.mpr (.inl h)

theorem World.asked_now (w : World S Q A) (i : Nat) (q : Q) (a : A q) (s : S) :
    (w.after i q a s).Asked ⟨i, q, a⟩ := asked_after.mpr (.inr rfl)

@[simp] theorem World.asked_moved : (w.moved s).Asked e ↔ w.Asked e := by
  constructor
  · intro h
    obtain ⟨t, h⟩ := h
    rcases mem_append.mp h with h | h
    · exact ⟨t, h⟩
    · exact absurd (Prod.mk.inj (mem_singleton.mp h)).1 (by simp)
  · intro h
    obtain ⟨t, h⟩ := h
    exact ⟨t, mem_append_left _ h⟩

@[simp] theorem World.asked_init (s : S) (e : Event Q A) : ¬ (⟨s, []⟩ : World S Q A).Asked e :=
  fun h => absurd h.choose_spec not_mem_nil

/-- The service is or was in such a state. -/
def World.Ever (w : World S Q A) (P : S → Prop) : Prop := P w.state ∨ ∃ x ∈ w.trace, P x.2

theorem World.ever_snoc {t : List (Option (Event Q A) × S)} {e : Option (Event Q A)} {s s' : S} {P : S → Prop} :
    (⟨s', t ++ [(e, s)]⟩ : World S Q A).Ever P ↔ (⟨s, t⟩ : World S Q A).Ever P ∨ P s' := by
  simp only [World.Ever, mem_append, mem_singleton]
  constructor
  · intro h
    rcases h with h | ⟨x, hx | hx, h⟩
    · exact .inr h
    · exact .inl (.inr ⟨x, hx, h⟩)
    · rw [hx] at h
      exact .inl (.inl h)
  · intro h
    rcases h with (h | ⟨x, hx, h⟩) | h
    · exact .inr ⟨(e, s), .inr rfl, h⟩
    · exact .inr ⟨x, .inl hx, h⟩
    · exact .inl h

theorem World.ever_after {P : S → Prop} :
    (w.after i q a s).Ever P ↔ w.Ever P ∨ P s := ever_snoc

theorem World.ever_moved {P : S → Prop} : (w.moved s).Ever P ↔ w.Ever P ∨ P s := ever_snoc

/-- A request of a kind, the state it was made in, and what happened since: nothing that stops it. -/
structure World.Mark (w : World S Q A) (p stop : Event Q A → Prop) (e : Event Q A) (s : S)
    (since : List (Option (Event Q A) × S)) : Prop where
  split : ∃ before, w.trace = before ++ (some e, s) :: since
  kind : p e
  clear : ∀ e' s', (some e', s') ∈ since → ¬ stop e'

/-- The state that a request left, given what happened since. -/
def World.next (w : World S Q A) : List (Option (Event Q A) × S) → S
  | [] => w.state
  | x :: _ => x.2

/-- Since a request of one kind there was one of another kind, and nothing that stops it. -/
def World.Since (w : World S Q A) (p stop p' : Event Q A → Prop) : Prop :=
  ∃ e s since, w.Mark p stop e s since ∧ ∃ e' s', (some e', s') ∈ since ∧ p' e'

/-- The same, or `P` holds. -/
def World.Unless (w : World S Q A) (p stop p' : Event Q A → Prop) (P : S → Prop) : Prop :=
  ∃ e s since, w.Mark p stop e s since ∧ ((∃ e' s', (some e', s') ∈ since ∧ p' e') ∨ P w.state)

section

variable {p stop p' : Event Q A → Prop} {P : S → Prop}

variable {since : List (Option (Event Q A) × S)}

theorem World.Mark.snoc {t : S} (h : w.Mark p stop e t since) (o : Option (Event Q A)) (s : S)
    (ho : ∀ e', o = some e' → ¬ stop e') :
    World.Mark ⟨s, w.trace ++ [(o, w.state)]⟩ p stop e t (since ++ [(o, w.state)]) := by
  obtain ⟨before, hsplit⟩ := h.split
  refine ⟨⟨before, ?_⟩, h.kind, fun e' s' hx => ?_⟩
  · simp only [hsplit, append_assoc, cons_append]
  · rcases mem_append.mp hx with hx | hx
    · exact h.clear e' s' hx
    · exact ho e' (Prod.mk.inj (mem_singleton.mp hx)).1.symm

theorem World.Mark.after {t : S} (h : w.Mark p stop e t since) (s : S) (hstop : ¬ stop ⟨i, q, a⟩) :
    (w.after i q a s).Mark p stop e t (since ++ [(some ⟨i, q, a⟩, w.state)]) :=
  h.snoc _ s fun e' he => by rw [← Option.some.inj he]; exact hstop

theorem World.Mark.moved {t : S} (h : w.Mark p stop e t since) (s : S) :
    (w.moved s).Mark p stop e t (since ++ [(none, w.state)]) :=
  h.snoc _ s fun e' he => absurd he (by simp)

theorem World.mark_now (s : S) (hp : p ⟨i, q, a⟩) : (w.after i q a s).Mark p stop ⟨i, q, a⟩ w.state [] :=
  ⟨⟨w.trace, rfl⟩, hp, fun _ _ h => absurd h not_mem_nil⟩

theorem World.unless_now (hp : p ⟨i, q, a⟩) (hP : P s) : (w.after i q a s).Unless p stop p' P :=
  ⟨_, _, _, World.mark_now s hp, .inr hP⟩

theorem World.Unless.after (h : w.Unless p stop p' P) (hstop : ¬ stop ⟨i, q, a⟩)
    (hstep : P w.state → P s ∨ p' ⟨i, q, a⟩) : (w.after i q a s).Unless p stop p' P := by
  obtain ⟨e, t, since, hmark, hor⟩ := h
  refine ⟨e, t, _, hmark.after s hstop, ?_⟩
  rcases hor with ⟨e', s', hx, hp'⟩ | hP
  · exact .inl ⟨e', s', mem_append_left _ hx, hp'⟩
  · rcases hstep hP with hP | hp'
    · exact .inr hP
    · exact .inl ⟨_, _, mem_append_right _ (mem_singleton.mpr rfl), hp'⟩

theorem World.Unless.moved (h : w.Unless p stop p' P) (hstep : P w.state → P s) :
    (w.moved s).Unless p stop p' P := by
  obtain ⟨e, t, since, hmark, hor⟩ := h
  refine ⟨e, t, _, hmark.moved s, ?_⟩
  rcases hor with ⟨e', s', hx, hp'⟩ | hP
  · exact .inl ⟨e', s', mem_append_left _ hx, hp'⟩
  · exact .inr (hstep hP)

theorem World.Unless.elim (h : w.Unless p stop p' P) (hnot : ¬ w.Since p stop p') : P w.state := by
  obtain ⟨e, t, since, hmark, hor⟩ := h
  rcases hor with hx | hP
  · exact absurd ⟨e, t, since, hmark, hx⟩ hnot
  · exact hP

theorem World.Mark.of_snoc {o : Option (Event Q A)} {s t : S}
    (h : World.Mark ⟨s, w.trace ++ [(o, w.state)]⟩ p stop e t since) :
    (o = some e ∧ since = []) ∨ ∃ since', since = since' ++ [(o, w.state)] ∧ w.Mark p stop e t since' := by
  obtain ⟨before, hsplit⟩ := h.split
  rcases eq_nil_or_concat since with rfl | ⟨since', x, rfl⟩
  · obtain ⟨-, he⟩ := append_inj' hsplit rfl
    exact .inl ⟨(Prod.mk.inj (List.cons.inj he).1).1, rfl⟩
  · rw [concat_eq_append] at hsplit h ⊢
    rw [← cons_append, ← append_assoc] at hsplit
    obtain ⟨htrace, hx⟩ := append_inj' hsplit rfl
    obtain rfl := (List.cons.inj hx).1
    exact .inr ⟨since', rfl, ⟨before, htrace⟩, h.kind, fun e' s' hx => h.clear e' s' (mem_append_left _ hx)⟩

/-- The last request of a kind was made just now, or it was the last one before. -/
theorem World.Mark.of_after {t : S} (h : (w.after i q a s).Mark p stop e t since) :
    (e = ⟨i, q, a⟩ ∧ since = []) ∨ ¬ stop ⟨i, q, a⟩ ∧ ∃ since',
      since = since' ++ [(some ⟨i, q, a⟩, w.state)] ∧ w.Mark p stop e t since' := by
  rcases h.of_snoc with ⟨he, hnil⟩ | ⟨since', rfl, hm⟩
  · exact .inl ⟨(Option.some.inj he).symm, hnil⟩
  · exact .inr ⟨h.clear _ _ (mem_append_right _ (mem_singleton.mpr rfl)), since', rfl, hm⟩

theorem World.Mark.of_moved {t : S} (h : (w.moved s).Mark p stop e t since) :
    ∃ since', since = since' ++ [(none, w.state)] ∧ w.Mark p stop e t since' :=
  h.of_snoc.resolve_left (by simp)

theorem World.next_snoc (since : List (Option (Event Q A) × S)) (o : Option (Event Q A)) (s : S) :
    World.next ⟨s, w.trace ++ [(o, w.state)]⟩ (since ++ [(o, w.state)]) = w.next since := by
  cases since <;> rfl

end

/-- A service and the programs that use it. -/
structure System (S Q : Type) (A : Q → Type) (ρ : Type) where
  serve : S → (q : Q) → A q → S → Prop
  /-- What the service does on its own. -/
  drift : S → S → Prop
  /-- The programs that may start, in which world and under which number. -/
  starts : Nat → World S Q A → Prog Q A ρ → Prop
  /-- The requests that are let through: a condition on the schedules under consideration. -/
  lets : Nat → World S Q A → Q → Prop

/-- A program that was not started, is running, or was cut off. -/
inductive Thread (Q : Type) (A : Q → Type) (ρ : Type) where
  | idle
  | running (p : Prog Q A ρ)
  | crashed

structure Conf (S Q : Type) (A : Q → Type) (ρ : Type) where
  world : World S Q A
  threads : Nat → Thread Q A ρ

inductive Step (M : System S Q A ρ) : Conf S Q A ρ → Conf S Q A ρ → Prop where
  | start {c : Conf S Q A ρ} (i : Nat) {p : Prog Q A ρ} (hidle : c.threads i = .idle) (hp : M.starts i c.world p) :
      Step M c { c with threads := Function.update c.threads i (.running p) }
  | ask {c : Conf S Q A ρ} (i : Nat) {q : Q} {next : A q → Prog Q A ρ} {a : A q} {s : S}
      (hi : c.threads i = .running (.ask q next)) (hlets : M.lets i c.world q)
      (hserve : M.serve c.world.state q a s) :
      Step M c ⟨c.world.after i q a s, Function.update c.threads i (.running (next a))⟩
  | crash {c : Conf S Q A ρ} (i : Nat) : Step M c { c with threads := Function.update c.threads i .crashed }
  | drift {c : Conf S Q A ρ} {s : S} (hs : M.drift c.world.state s) : Step M c { c with world := c.world.moved s }

/-- What can be reached from a state in which nothing runs. -/
inductive Reach (M : System S Q A ρ) (s₀ : S) : Conf S Q A ρ → Prop where
  | init : Reach M s₀ ⟨⟨s₀, []⟩, fun _ => .idle⟩
  | step {c c' : Conf S Q A ρ} (h : Reach M s₀ c) (hs : Step M c c') : Reach M s₀ c'

/-- **The rule of invariants**: of the requests that are let through, whatever programs make them. -/
theorem Reach.always {M : System S Q A ρ} {I : World S Q A → Prop} {s₀ : S} {c : Conf S Q A ρ}
    (hmoves : ∀ i w q a s, I w → M.lets i w q → M.serve w.state q a s → I (w.after i q a s))
    (hdrifts : ∀ w s, I w → M.drift w.state s → I (w.moved s)) (hinit : I ⟨s₀, []⟩) (h : Reach M s₀ c) :
    I c.world := by
  induction h with
  | init => exact hinit
  | step _ hs ih =>
    cases hs with
    | start i hidle hp => exact ih
    | ask i hi hlets hserve => exact hmoves _ _ _ _ _ ih hlets hserve
    | crash i => exact ih
    | drift hd => exact hdrifts _ _ ih hd

/-! ## Rely and guarantee -/

/-- Rules that the programs of a system hold to. -/
structure Rules (S Q : Type) (A : Q → Type) where
  inv : World S Q A → Prop
  /-- The requests that program `i` may make. -/
  may : Nat → World S Q A → Q → Prop

/-- A system, and rules for its programs. -/
structure Regime (S Q : Type) (A : Q → Type) (ρ : Type) extends System S Q A ρ, Rules S Q A

variable (M : Regime S Q A ρ)

/-- A request that the rules allow is made and served. -/
def Moves (i : Nat) (w w' : World S Q A) : Prop :=
  ∃ q a s, M.lets i w q ∧ M.may i w q ∧ M.serve w.state q a s ∧ w' = w.after i q a s

def Drifts (w w' : World S Q A) : Prop := ∃ s, M.drift w.state s ∧ w' = w.moved s

structure Sound : Prop where
  moves : ∀ i w w', M.inv w → Moves M i w w' → M.inv w'
  drifts : ∀ w w', M.inv w → Drifts M w w' → M.inv w'

/-- What program `i` knows is not undone by the others. -/
structure Stable (i : Nat) (K : World S Q A → Prop) : Prop where
  moves : ∀ j w w', j ≠ i → M.inv w → K w → Moves M j w w' → K w'
  drifts : ∀ w w', M.inv w → K w → Drifts M w w' → K w'

/-- Program `i`, knowing `K`, holds to the rules and ends with `Post`. -/
def Prog.Keeps (i : Nat) : (World S Q A → Prop) → Prog Q A α → (α → World S Q A → Prop) → Prop
  | K, .done a, Post => ∀ w, M.inv w → K w → Post a w
  | K, .ask q next, Post =>
    (∀ w, M.inv w → K w → M.lets i w q → M.may i w q) ∧
      ∀ a, ∃ K', Stable M i K'
        ∧ (∀ w s, M.inv w → K w → M.lets i w q → M.serve w.state q a s → K' (w.after i q a s))
        ∧ (next a).Keeps i K' Post

variable {M} {i : Nat}

theorem Prog.Keeps.weaken {K K' : World S Q A → Prop} {Post : α → World S Q A → Prop} (h : p.Keeps M i K Post)
    (hK : ∀ w, M.inv w → K' w → K w) : p.Keeps M i K' Post := by
  cases p with
  | done a => exact fun w hw hk => h w hw (hK w hw hk)
  | ask q next =>
    obtain ⟨hmay, hnext⟩ := h
    refine ⟨fun w hw hk => hmay w hw (hK w hw hk), ?_⟩
    intro a
    obtain ⟨K₁, hst, hest, hkeeps⟩ := hnext a
    exact ⟨K₁, hst, fun w s hw hk => hest w s hw (hK w hw hk), hkeeps⟩

variable {K : World S Q A → Prop}

theorem Prog.Keeps.imp {Post Post' : α → World S Q A → Prop} (h : p.Keeps M i K Post)
    (hpost : ∀ a w, M.inv w → Post a w → Post' a w) : p.Keeps M i K Post' := by
  induction p generalizing K with
  | done a => exact fun w hw hk => hpost a w hw (h w hw hk)
  | ask q next ih =>
    refine ⟨h.1, ?_⟩
    intro a
    obtain ⟨K₁, hst, hest, hkeeps⟩ := h.2 a
    exact ⟨K₁, hst, hest, ih a hkeeps⟩

theorem Prog.Keeps.bind {f : α → Prog Q A β} {Post : β → World S Q A → Prop} (h : p.Keeps M i K Mid)
    (hf : ∀ a, (f a).Keeps M i (Mid a) Post) : (p >>= f).Keeps M i K Post := by
  induction p generalizing K with
  | done a => exact (hf a).weaken h
  | ask q next ih =>
    refine ⟨h.1, ?_⟩
    intro a
    obtain ⟨K₁, hst, hest, hkeeps⟩ := h.2 a
    exact ⟨K₁, hst, hest, ih a hkeeps⟩

theorem Prog.Keeps.never {Post : α → World S Q A → Prop} (hK : ∀ w, ¬ K w) : p.Keeps M i K Post := by
  induction p generalizing K with
  | done a => exact fun w _ hk => absurd hk (hK w)
  | ask q next ih =>
    refine ⟨fun w _ hk => absurd hk (hK w), fun a => ⟨fun _ => False, ?_, ?_, ih a fun _ h => h⟩⟩
    · exact ⟨fun _ _ _ _ _ hk _ => hk, fun _ _ _ hk _ => hk⟩
    · exact fun w _ _ hk => absurd hk (hK w)

theorem Prog.Keeps.call {q : Q} {f : A q → Prog Q A β} {Mid : A q → World S Q A → Prop} {Post : β → World S Q A → Prop}
    (hmay : ∀ w, M.inv w → K w → M.lets i w q → M.may i w q)
    (hstable : ∀ a, Stable M i (Mid a))
    (hserve : ∀ a w s, M.inv w → K w → M.lets i w q → M.serve w.state q a s → Mid a (w.after i q a s))
    (hf : ∀ a, (f a).Keeps M i (Mid a) Post) : (Prog.call q >>= f).Keeps M i K Post :=
  ⟨hmay, fun a => ⟨Mid a, hstable a, hserve a, hf a⟩⟩

theorem Stable.true : Stable M i fun _ => True :=
  ⟨fun _ _ _ _ _ _ _ => trivial, fun _ _ _ _ _ => trivial⟩

theorem Stable.and {K' : World S Q A → Prop} (h : Stable M i K) (h' : Stable M i K') :
    Stable M i fun w => K w ∧ K' w where
  moves j w w' hj hw hk hm := ⟨h.moves j w w' hj hw hk.1 hm, h'.moves j w w' hj hw hk.2 hm⟩
  drifts w w' hw hk hd := ⟨h.drifts w w' hw hk.1 hd, h'.drifts w w' hw hk.2 hd⟩

theorem Stable.forall {K : ι → World S Q A → Prop} (h : ∀ x, Stable M i (K x)) :
    Stable M i fun w => ∀ x, K x w where
  moves j w w' hj hw hk hm := fun x => (h x).moves j w w' hj hw (hk x) hm
  drifts w w' hw hk hd := fun x => (h x).drifts w w' hw (hk x) hd

theorem Stable.exists {K : ι → World S Q A → Prop} (h : ∀ x, Stable M i (K x)) :
    Stable M i fun w => ∃ x, K x w where
  moves j w w' hj hw hk hm := hk.imp fun x hk => (h x).moves j w w' hj hw hk hm
  drifts w w' hw hk hd := hk.imp fun x hk => (h x).drifts w w' hw hk hd

theorem Prog.Keeps.exists {K : ι → World S Q A → Prop} {Post : α → World S Q A → Prop}
    (h : ∀ x, p.Keeps M i (K x) Post) :
    p.Keeps M i (fun w => ∃ x, K x w) Post := by
  induction p generalizing K with
  | done a =>
    intro w hw hk
    obtain ⟨x, hk⟩ := hk
    exact h x w hw hk
  | ask q next ih =>
    refine ⟨fun w hw hk hlets => ?_, fun a => ?_⟩
    · obtain ⟨x, hk⟩ := hk
      exact (h x).1 w hw hk hlets
    · choose K' hst hest hkeeps using fun x => (h x).2 a
      refine ⟨fun w => ∃ x, K' x w, Stable.exists hst, fun w s hw hk hlets hs => ?_, ih a hkeeps⟩
      obtain ⟨x, hk⟩ := hk
      exact ⟨x, hest x w s hw hk hlets hs⟩

theorem Stable.const {P : Prop} : Stable M i fun _ => P :=
  ⟨fun _ _ _ _ _ hk _ => hk, fun _ _ _ hk _ => hk⟩

theorem Stable.imp {P : Prop} (h : P → Stable M i K) : Stable M i fun w => P → K w where
  moves j w w' hj hw hk hm := fun hp => (h hp).moves j w w' hj hw (hk hp) hm
  drifts w w' hw hk hd := fun hp => (h hp).drifts w w' hw (hk hp) hd

/-- What nobody undoes, the program itself included. -/
structure Firm (M : Regime S Q A ρ) (F : World S Q A → Prop) : Prop where
  moves : ∀ i w w', M.inv w → F w → Moves M i w w' → F w'
  drifts : ∀ w w', M.inv w → F w → Drifts M w w' → F w'

variable {F : World S Q A → Prop}

theorem Firm.stable (h : Firm M F) : Stable M i F :=
  ⟨fun j w w' _ => h.moves j w w', h.drifts⟩

theorem Firm.const {P : Prop} : Firm M fun _ => P := ⟨fun _ _ _ _ hk _ => hk, fun _ _ _ hk _ => hk⟩

theorem Firm.and {F' : World S Q A → Prop} (h : Firm M F) (h' : Firm M F') : Firm M fun w => F w ∧ F' w where
  moves i w w' hw hk hm := ⟨h.moves i w w' hw hk.1 hm, h'.moves i w w' hw hk.2 hm⟩
  drifts w w' hw hk hd := ⟨h.drifts w w' hw hk.1 hd, h'.drifts w w' hw hk.2 hd⟩

theorem Firm.forall {ι : Sort*} {F : ι → World S Q A → Prop} (h : ∀ x, Firm M (F x)) :
    Firm M fun w => ∀ x, F x w where
  moves i w w' hw hk hm := fun x => (h x).moves i w w' hw (hk x) hm
  drifts w w' hw hk hd := fun x => (h x).drifts w w' hw (hk x) hd

theorem Firm.imp {P : Prop} (h : P → Firm M F) : Firm M fun w => P → F w where
  moves i w w' hw hk hm := fun hp => (h hp).moves i w w' hw (hk hp) hm
  drifts w w' hw hk hd := fun hp => (h hp).drifts w w' hw (hk hp) hd

/-- **The frame rule.** What nobody undoes is known after a program if it was known before. -/
theorem Prog.Keeps.frame {Post : α → World S Q A → Prop} (h : p.Keeps M i K Post) (hF : Firm M F) :
    p.Keeps M i (fun w => K w ∧ F w) fun a w => Post a w ∧ F w := by
  induction p generalizing K with
  | done a => exact fun w hw hk => ⟨h w hw hk.1, hk.2⟩
  | ask q next ih =>
    obtain ⟨hmay, hnext⟩ := h
    refine ⟨fun w hw hk => hmay w hw hk.1, ?_⟩
    intro a
    obtain ⟨K₁, hst, hest, hkeeps⟩ := hnext a
    refine ⟨fun w => K₁ w ∧ F w, hst.and hF.stable, ?_, ih a hkeeps⟩
    intro w s hw hk hlets hserve
    refine ⟨hest w s hw hk.1 hlets hserve, hF.moves i w _ hw hk.2 ?_⟩
    exact ⟨q, a, s, hlets, hmay w hw hk.1 hlets, hserve, rfl⟩

/-- What the others leave alone, and all requests that a program makes, is known after it. -/
theorem Prog.Asks.keeps {C : Q → Prop} (h : p.Asks C)
    (hK : Stable M i K) (hmay : ∀ q w, C q → M.inv w → K w → M.lets i w q → M.may i w q)
    (hserve : ∀ q a w s, C q → M.inv w → K w → M.lets i w q → M.serve w.state q a s →
      K (w.after i q a s)) : p.Keeps M i K fun _ => K := by
  induction p with
  | done a => exact fun _ _ hk => hk
  | ask q next ih =>
    refine ⟨fun w hw hk hlets => hmay q w h.1 hw hk hlets, fun a => ⟨K, hK, ?_, ih a (h.2 a)⟩⟩
    exact fun w s hw hk hlets hs => hserve q a w s h.1 hw hk hlets hs

/-! ## The rule -/

/-- What is known of a running program. -/
def Thread.Known (M : Regime S Q A ρ) (Post : Nat → ρ → World S Q A → Prop)
    (i : Nat) (w : World S Q A) : Thread Q A ρ → Prop
  | .running p => ∃ K, Stable M i K ∧ K w ∧ p.Keeps M i K (Post i)
  | _ => True

/-- Every program that starts holds to the rules. -/
def Starters (M : Regime S Q A ρ) (Post : Nat → ρ → World S Q A → Prop) : Prop :=
  ∀ i w p, M.inv w → M.starts i w p → ∃ K, Stable M i K ∧ K w ∧ p.Keeps M i K (Post i)

variable {Post : Nat → ρ → World S Q A → Prop}

variable {t : Thread Q A ρ} {c : Conf S Q A ρ}

theorem Thread.Known.moves {j : Nat} (h : t.Known M Post i w) (hj : j ≠ i) (hw : M.inv w)
    (hm : Moves M j w w') : t.Known M Post i w' := by
  cases t with
  | running p =>
    obtain ⟨K, hst, hk, hkeeps⟩ := h
    exact ⟨K, hst, hst.moves j w w' hj hw hk hm, hkeeps⟩
  | idle => trivial
  | crashed => trivial

theorem Thread.Known.drifts (h : t.Known M Post i w) (hw : M.inv w) (hd : Drifts M w w') :
    t.Known M Post i w' := by
  cases t with
  | running p =>
    obtain ⟨K, hst, hk, hkeeps⟩ := h
    exact ⟨K, hst, hst.drifts w w' hw hk hd, hkeeps⟩
  | idle => trivial
  | crashed => trivial

theorem Thread.Known.update {threads : Nat → Thread Q A ρ}
    (hothers : ∀ j, j ≠ i → (threads j).Known M Post j w) (ht : t.Known M Post i w) (j : Nat) :
    (Function.update threads i t j).Known M Post j w := by
  by_cases hj : j = i
  · subst hj
    rw [Function.update_self]
    exact ht
  · rw [Function.update_of_ne hj]
    exact hothers j hj

/-- The same system, whose requests are known to hold to the rules. -/
def Regime.under (M : Regime S Q A ρ) : System S Q A ρ :=
  { M.toSystem with lets := fun i w q => M.lets i w q ∧ M.inv w ∧ M.may i w q }

section

variable (hsound : Sound M) (hstart : Starters M Post) (hinit : M.inv ⟨s₀, []⟩) (h : Reach M.toSystem s₀ c)

include hsound hstart hinit h

/-- **The rule of rely and guarantee.** If the rules keep their invariant and every program holds to
them, the invariant holds in everything that can be reached, and of each running program what it
knows. -/
theorem Reach.known :
    M.inv c.world ∧ ∀ i, (c.threads i).Known M Post i c.world := by
  induction h with
  | init => exact ⟨hinit, fun _ => trivial⟩
  | step _ hs ih =>
    obtain ⟨hinv, hknown⟩ := ih
    cases hs with
    | start i hidle hp =>
      exact ⟨hinv, Thread.Known.update (fun j _ => hknown j) (hstart i _ _ hinv hp)⟩
    | ask i hi hlets hserve =>
      have hi' := hknown i
      rw [hi] at hi'
      obtain ⟨K, -, hk, hmay, hnext⟩ := hi'
      have hmove : Moves M i _ _ := ⟨_, _, _, hlets, hmay _ hinv hk hlets, hserve, rfl⟩
      refine ⟨hsound.moves i _ _ hinv hmove, Thread.Known.update (fun j hj => ?_) ?_⟩
      · exact (hknown j).moves (Ne.symm hj) hinv hmove
      · obtain ⟨K', hst, hest, hkeeps⟩ := hnext _
        exact ⟨K', hst, hest _ _ hinv hk hlets hserve, hkeeps⟩
    | crash i => exact ⟨hinv, Thread.Known.update (fun j _ => hknown j) trivial⟩
    | drift hd =>
      have hdrift : Drifts M _ _ := ⟨_, hd, rfl⟩
      exact ⟨hsound.drifts _ _ hinv hdrift, fun j => (hknown j).drifts hinv hdrift⟩

theorem Reach.inv : M.inv c.world := (h.known hsound hstart hinit).1

theorem Reach.post {a : ρ} (hi : c.threads i = .running (.done a)) : Post i a c.world := by
  obtain ⟨hinv, hknown⟩ := h.known hsound hstart hinit
  have hi' := hknown i
  rw [hi] at hi'
  obtain ⟨K, -, hk, hdone⟩ := hi'
  exact hdone _ hinv hk

theorem Reach.may {q : Q} {next : A q → Prog Q A ρ} (hi : c.threads i = .running (.ask q next)) (hlets : M.lets i c.world q) :
    M.may i c.world q := by
  obtain ⟨hinv, hknown⟩ := h.known hsound hstart hinit
  have hi' := hknown i
  rw [hi] at hi'
  obtain ⟨K, -, hk, hmay, -⟩ := hi'
  exact hmay _ hinv hk hlets

/-- What was proved of a system can be assumed in what is proved of it next. -/
theorem Reach.under : Reach M.under s₀ c := by
  induction h with
  | init => exact .init
  | step hr hs ih =>
    obtain ⟨hinv, hknown⟩ := hr.known hsound hstart hinit
    refine ih.step ?_
    cases hs with
    | start i hidle hp => exact .start i hidle hp
    | ask i hi hlets hserve =>
      have hi' := hknown i
      rw [hi] at hi'
      obtain ⟨K, -, hk, hmay, -⟩ := hi'
      exact .ask i hi ⟨hlets, hinv, hmay _ hinv hk hlets⟩ hserve
    | crash i => exact .crash i
    | drift hd => exact .drift hd

end

/-- More rules, for a system whose requests are known to hold to some. -/
def Rules.over (R : Rules S Q A) (I : World S Q A → Prop) (may : Nat → World S Q A → Q → Prop) : Rules S Q A :=
  ⟨fun w => R.inv w ∧ I w, may⟩

theorem Sound.over {I : World S Q A → Prop} {may : Nat → World S Q A → Q → Prop} (hR : Sound M)
    (hmoves : ∀ i w q a s, M.inv w → M.lets i w q → M.may i w q → I w → may i w q →
      M.serve w.state q a s → I (w.after i q a s))
    (hdrifts : ∀ w s, M.inv w → I w → M.drift w.state s → I (w.moved s)) :
    Sound ⟨M.under, M.toRules.over I may⟩ where
  moves i w w' hw hm := by
    obtain ⟨q, a, s, hlets, hmay, hserve, rfl⟩ := hm
    obtain ⟨hlets, -, hmayR⟩ := hlets
    exact ⟨hR.moves i w _ hw.1 ⟨q, a, s, hlets, hmayR, hserve, rfl⟩,
      hmoves i w q a s hw.1 hlets hmayR hw.2 hmay hserve⟩
  drifts w w' hw hd := by
    obtain ⟨s, hs, rfl⟩ := hd
    exact ⟨hR.drifts w _ hw.1 ⟨s, hs, rfl⟩, hdrifts w s hw.1 hw.2 hs⟩

theorem Prog.Keeps.free (h : ∀ w q, M.may i w q) : p.Keeps M i (fun _ => True) fun _ _ => True := by
  induction p with
  | done a => exact fun _ _ _ => trivial
  | ask q next ih =>
    exact ⟨fun w _ _ _ => h w q, fun a => ⟨fun _ => True, Stable.true, fun _ _ _ _ _ _ => trivial, ih a⟩⟩

/-! ## Programs that may fail -/

/-- A program that may fail with an `ε`. -/
abbrev Act (Q : Type) (A : Q → Type) (ε α : Type) := ExceptT ε (Prog Q A) α

namespace Act

variable {ε ε' : Type}

/-- Run a program that may fail, and go on whatever comes of it. -/
def attempt (p : Act Q A ε α) : Act Q A ε' (Except ε α) := ExceptT.lift p.run

/-- The same program, with its errors reported as others. -/
def mapErr (f : ε → ε') (p : Act Q A ε α) : Act Q A ε' α :=
  ExceptT.mk (p.run >>= fun r => .done (r.mapError f))

variable {p : Act Q A ε α}

variable {f : α → Act Q A ε β}

section

variable {perform : S → (q : Q) → A q × S} {s s' : S}

theorem alone_bind_ok {a : α} (h : p.run.alone perform s = (.ok a, s')) :
    (p >>= f).run.alone perform s = (f a).run.alone perform s' := by
  have hb : (p >>= f).run = p.run >>= ExceptT.bindCont f := rfl
  rw [hb, Prog.alone_bind, h]
  rfl

theorem alone_bind_error {e : ε} (h : p.run.alone perform s = (.error e, s')) :
    (p >>= f).run.alone perform s = (.error e, s') := by
  have hb : (p >>= f).run = p.run >>= ExceptT.bindCont f := rfl
  rw [hb, Prog.alone_bind, h]
  rfl

end

/-- Program `i`, knowing `K`, holds to the rules, and if it succeeds ends with `Good`. -/
def Keeps (M : Regime S Q A ρ) (i : Nat) (K : World S Q A → Prop) (p : Act Q A ε α)
    (Good : α → World S Q A → Prop) : Prop :=
  Prog.Keeps M i K p.run fun r w => ∀ a, r = .ok a → Good a w

variable {K K' : World S Q A → Prop} {Good : α → World S Q A → Prop}

theorem Keeps.weaken (h : p.Keeps M i K Good) (hK : ∀ w, M.inv w → K' w → K w) : p.Keeps M i K' Good :=
  Prog.Keeps.weaken h hK

theorem Keeps.imp {Good' : α → World S Q A → Prop} (h : p.Keeps M i K Good)
    (hgood : ∀ a w, M.inv w → Good a w → Good' a w) : p.Keeps M i K Good' :=
  Prog.Keeps.imp h fun _ w hw hr a ha => hgood a w hw (hr a ha)

theorem Keeps.pure {a : α} (h : ∀ w, M.inv w → K w → Good a w) : (Pure.pure a : Act Q A ε α).Keeps M i K Good := by
  intro w hw hk b hb
  rw [← Except.ok.inj hb]
  exact h w hw hk

theorem Keeps.throw {e : ε} : (MonadExcept.throw e : Act Q A ε α).Keeps M i K Good :=
  fun _ _ _ _ ha => absurd ha (by simp)

theorem Keeps.bind {Good : β → World S Q A → Prop} (h : p.Keeps M i K Mid) (hf : ∀ a, (f a).Keeps M i (Mid a) Good) :
    (p >>= f).Keeps M i K Good := by
  refine Prog.Keeps.bind h fun r => ?_
  cases r with
  | ok a => exact (hf a).weaken fun w _ hk => hk a rfl
  | error e => exact fun _ _ _ _ ha => absurd ha (by simp)

theorem Keeps.mapErr (h : p.Keeps M i K Good) (f : ε → ε') : (p.mapErr f).Keeps M i K Good := by
  refine Prog.Keeps.bind h fun r => ?_
  cases r with
  | ok a =>
    intro w _ hk b hb
    rw [← Except.ok.inj hb]
    exact hk a rfl
  | error e => exact fun _ _ _ _ ha => absurd ha (by simp [Except.mapError])

theorem Keeps.attempt {Post : Except ε α → World S Q A → Prop} (h : Prog.Keeps M i K p.run Post) :
    (p.attempt : Act Q A ε' (Except ε α)).Keeps M i K Post := by
  refine Prog.Keeps.bind h fun r => ?_
  intro w _ hk b hb
  rw [← Except.ok.inj hb]
  exact hk

theorem Keeps.frame (h : p.Keeps M i K Good)
    (hF : Firm M F) : p.Keeps M i (fun w => K w ∧ F w) fun a w => Good a w ∧ F w :=
  Prog.Keeps.imp (Prog.Keeps.frame h hF) fun _ _ _ hr a ha => ⟨hr.1 a ha, hr.2⟩

/-- What does not depend on the world is known from there on. -/
theorem Keeps.given {P : Prop} (h : P → p.Keeps M i K Good) : p.Keeps M i (fun w => P ∧ K w) Good := by
  by_cases hp : P
  · exact (h hp).weaken fun _ _ hk => hk.2
  · exact Prog.Keeps.never fun _ hk => hp hk.1

theorem Keeps.exists {K : ι → World S Q A → Prop} (h : ∀ x, p.Keeps M i (K x) Good) :
    p.Keeps M i (fun w => ∃ x, K x w) Good :=
  Prog.Keeps.exists h

/-- What nobody undoes, beside a program that needs to know nothing. -/
theorem Keeps.beside (h : p.Keeps M i (fun _ => True) Good) (hF : Firm M F) :
    p.Keeps M i F fun a w => Good a w ∧ F w :=
  (h.frame hF).weaken fun _ _ hk => ⟨trivial, hk⟩

/-- A program that may fail and makes no requests but those of `C`. -/
def Asks (C : Q → Prop) (p : Act Q A ε α) : Prop := Prog.Asks C p.run

section

variable {C : Q → Prop}

theorem Asks.pure (a : α) : (Pure.pure a : Act Q A ε α).Asks C := trivial

theorem Asks.throw (e : ε) : (MonadExcept.throw e : Act Q A ε α).Asks C := trivial

theorem Asks.bind (h : p.Asks C) (hf : ∀ a, (f a).Asks C) : (p >>= f).Asks C := by
  refine Prog.Asks.bind h fun r => ?_
  cases r with
  | ok a => exact hf a
  | error e => exact trivial

theorem Asks.mapErr (h : p.Asks C) (f : ε → ε') : (p.mapErr f).Asks C :=
  Prog.Asks.bind h fun _ => trivial

theorem Asks.attempt (h : p.Asks C) : (p.attempt : Act Q A ε' (Except ε α)).Asks C :=
  Prog.Asks.bind h fun _ => trivial

theorem Asks.keeps (h : p.Asks C) (hK : Stable M i K) (hmay : ∀ q w, C q → M.inv w → K w → M.lets i w q → M.may i w q)
    (hserve : ∀ q a w s, C q → M.inv w → K w → M.lets i w q → M.serve w.state q a s →
      K (w.after i q a s)) : p.Keeps M i K fun _ => K :=
  Prog.Keeps.imp (Prog.Asks.keeps h hK hmay hserve) fun _ _ _ hk _ _ => hk

end

/-- The same for a program of which it matters too how it fails: with `Good` if it succeeds, and with
`Bad` if it does not. -/
def Ends (M : Regime S Q A ρ) (i : Nat) (K : World S Q A → Prop) (p : Act Q A ε α)
    (Good : α → World S Q A → Prop) (Bad : World S Q A → Prop) : Prop :=
  Prog.Keeps M i K p.run fun r w => match r with
    | .ok a => Good a w
    | .error _ => Bad w

section

variable {Bad : World S Q A → Prop}

theorem Ends.weaken (h : p.Ends M i K Good Bad) (hK : ∀ w, M.inv w → K' w → K w) : p.Ends M i K' Good Bad :=
  Prog.Keeps.weaken h hK

theorem Ends.pure {a : α} (h : ∀ w, M.inv w → K w → Good a w) : (Pure.pure a : Act Q A ε α).Ends M i K Good Bad := h

theorem Ends.bind {Good : β → World S Q A → Prop} (h : p.Ends M i K Mid Bad)
    (hf : ∀ a, (f a).Ends M i (Mid a) Good Bad) : (p >>= f).Ends M i K Good Bad := by
  refine Prog.Keeps.bind h fun r => ?_
  cases r with
  | ok a => exact hf a
  | error e => exact fun _ _ hk => hk

theorem Ends.given {P : Prop} (h : P → p.Ends M i K Good Bad) : p.Ends M i (fun w => P ∧ K w) Good Bad := by
  by_cases hp : P
  · exact (h hp).weaken fun _ _ hk => hk.2
  · exact Prog.Keeps.never fun _ hk => hp hk.1

end

/-- A program that needs to know nothing to hold to the rules. -/
def Tame (M : Regime S Q A ρ) (i : Nat) (p : Act Q A ε α) : Prop :=
  p.Keeps M i (fun _ => True) fun _ _ => True

theorem Tame.pure (a : α) : (Pure.pure a : Act Q A ε α).Tame M i := Keeps.pure fun _ _ _ => trivial

theorem Tame.throw (e : ε) : (MonadExcept.throw e : Act Q A ε α).Tame M i := Keeps.throw

theorem Tame.bind (h : p.Tame M i) (hf : ∀ a, (f a).Tame M i) : (p >>= f).Tame M i :=
  Keeps.bind h hf

theorem Tame.mapErr (h : p.Tame M i) (f : ε → ε') : (p.mapErr f).Tame M i :=
  Keeps.mapErr h f

theorem Tame.attempt (h : p.Tame M i) : (p.attempt : Act Q A ε' (Except ε α)).Tame M i :=
  Keeps.attempt (Prog.Keeps.imp h fun _ _ _ _ => trivial)

theorem Keeps.tame (h : p.Keeps M i (fun _ => True) Good) : p.Tame M i :=
  h.imp fun _ _ _ _ => trivial

theorem Asks.tame (h : p.Asks fun q => ∀ w, M.may i w q) : p.Tame M i :=
  h.keeps Stable.true (fun _ w hq _ _ _ => hq w) fun _ _ _ _ _ _ _ _ _ => trivial

/-- What nobody undoes may be all that a program needs to know. -/
theorem Asks.firm (h : p.Asks fun q => ∀ w, F w → M.may i w q) (hF : Firm M F) : p.Keeps M i F fun _ => F :=
  h.keeps hF.stable (fun _ w hq _ hk _ => hq w hk) fun q a w s hq hw hk hlets hs =>
    hF.moves i w _ hw hk ⟨q, a, s, hlets, hq w hk, hs, rfl⟩

/-- What nobody undoes is kept by a program that needs to know nothing. -/
theorem Tame.frame (h : p.Tame M i) (hF : Firm M F) : p.Keeps M i F fun _ => F :=
  ((Keeps.frame h hF).weaken fun _ _ hk => ⟨trivial, hk⟩).imp fun _ _ _ hk => hk.2

end Act

end Service
