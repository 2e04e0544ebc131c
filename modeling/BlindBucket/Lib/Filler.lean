import BlindBucket.Lib.Reader

/-!
# Readers that fill a buffer

A decoder that works piece by piece serves a read from the piece at hand, and fills in
the next one when that is used up, until it has ended. What it does over a whole run
follows from what one `fill` does.
-/

namespace ByteIo

open List

/-- What one read has to do for a `ReleaseInv`. -/
def ReadResult.Releases {ρ ε : Type} (I : ρ → Bytes → Prop) (Fin : ρ → ReadErr ε → Bytes → Prop)
    (data : Bytes) (q : ReadResult ρ ε) : Prop :=
  ∃ rest, data = q.out ++ rest ∧ match q.err with
    | none => I q.next rest
    | some e => Fin q.next e rest

/-- What such a reader consists of. -/
structure Filler (ρ ε : Type) where
  err : ρ → Option (ReadErr ε)
  plain : ρ → Bytes
  ended : ρ → Prop
  release : ρ → ρ
  serve : ρ → Nat → ρ
  fill : ρ → Option (ReadErr ε) × ρ

namespace Filler

variable {ρ ε : Type} (F : Filler ρ ε)

def loop [DecidablePred F.ended] (k : Nat) : Nat → ρ → ReadResult ρ ε
  | 0, r => ⟨[], none, r⟩
  | fuel + 1, r =>
    if F.plain r = [] then
      if F.ended r then ⟨[], some .eof, F.release r⟩
      else
        match F.fill r with
        | (some e, r') => ⟨[], some e, r'⟩
        | (none, r') => loop k fuel r'
    else ⟨(F.plain r).take k, none, F.serve r k⟩

/-- How a round of the loop returns. -/
inductive Returns (r : ρ) (k : Nat) : ReadResult ρ ε → Prop where
  /-- A piece is at hand. -/
  | copy (hp : F.plain r ≠ []) : Returns r k ⟨(F.plain r).take k, none, F.serve r k⟩
  /-- The last piece is used up. -/
  | eof (hp : F.plain r = []) (hd : F.ended r) : Returns r k ⟨[], some .eof, F.release r⟩
  /-- The next piece could not be had. -/
  | bad (e : ReadErr ε) (r' : ρ) (hp : F.plain r = []) (hd : ¬ F.ended r) (hf : F.fill r = (some e, r')) :
      Returns r k ⟨[], some e, r'⟩

inductive ReadCase (r : ρ) (k : Nat) (q : ReadResult ρ ε) : Prop where
  /-- The terminal error is repeated. -/
  | failed (e : ReadErr ε) (he : F.err r = some e) (eq : q = ⟨[], some e, r⟩)
  | now (he : F.err r = none) (h : F.Returns r k q)
  /-- The next piece is filled in first. -/
  | filled (r' : ρ) (he : F.err r = none) (hp : F.plain r = []) (hd : ¬ F.ended r) (hf : F.fill r = (none, r'))
      (h : F.Returns r' k q)

/-- The reads of `ρ` are those of `F`. A piece with nothing to serve has no other after it, so two
rounds of the loop are enough. -/
structure Reads [ByteReader ρ ε] [DecidablePred F.ended] : Prop where
  failed : ∀ r k e, F.err r = some e → read r k = ⟨[], some e, r⟩
  reads : ∀ r k, F.err r = none → read r k = F.loop k 2 r
  serve : ∀ r k, F.plain (F.serve r k) = (F.plain r).drop k
  last : ∀ r r', ¬ F.ended r → F.fill r = (none, r') → F.plain r' = [] → F.ended r' ∨ (F.fill r').1 ≠ none

variable {F} [DecidablePred F.ended] {r : ρ} {k : Nat}

theorem loop_cases (k n : Nat) (r : ρ) : F.Returns r k (F.loop k (n + 1) r)
    ∨ ∃ r', F.plain r = [] ∧ ¬ F.ended r ∧ F.fill r = (none, r') ∧ F.loop k (n + 1) r = F.loop k n r' := by
  rw [loop]
  by_cases hp : F.plain r = []
  · rw [if_pos hp]
    by_cases hd : F.ended r
    · rw [if_pos hd]
      exact Or.inl (.eof hp hd)
    · rw [if_neg hd]
      cases hf : F.fill r with
      | mk e r' =>
        cases e with
        | some e => exact Or.inl (.bad e r' hp hd hf)
        | none => exact Or.inr ⟨r', hp, hd, rfl, rfl⟩
  · rw [if_neg hp]
    exact Or.inl (.copy hp)

namespace Reads

variable [ByteReader ρ ε] (h : F.Reads)
include h

theorem read_cases (r : ρ) (k : Nat) : F.ReadCase r k (read r k) := by
  cases he : F.err r with
  | some e => exact .failed e he (h.failed r k e he)
  | none =>
    rw [h.reads r k he]
    rcases loop_cases (F := F) k 1 r with hret | ⟨r', hp, hd, hf, heq⟩
    · exact .now he hret
    · refine .filled r' he hp hd hf ?_
      show F.Returns r' k (F.loop k 2 r)
      rw [heq]
      rcases loop_cases (F := F) k 0 r' with hret | ⟨r'', hp', hd', hf', _⟩
      · exact hret
      · rcases h.last r r' hd hf hp' with hend | hne
        · exact absurd hend hd'
        · exact absurd (congrArg Prod.fst hf') hne

theorem read_oneOrOther (r : ρ) (k : Nat) : (read r k).OneOrOther k := by
  have hret : ∀ {r : ρ} {q : ReadResult ρ ε}, F.Returns r k q → q.OneOrOther k := by
    intro r q hq
    cases hq with
    | copy hp => exact Or.inr ⟨_, hp, rfl, rfl⟩
    | eof | bad => exact Or.inl ⟨rfl, by simp⟩
  cases h.read_cases r k with
  | failed e _ eq =>
    rw [eq]
    exact Or.inl ⟨rfl, by simp⟩
  | now _ hq => exact hret hq
  | filled _ _ _ _ _ hq => exact hret hq

theorem progress : Progress ρ :=
  fun r k hk hnone => (h.read_oneOrOther r k).nonempty hk hnone

theorem tidy (r : ρ) (k : Nat) (hout : (read r k).out ≠ []) : (read r k).err = none :=
  (h.read_oneOrOther r k).tidy hout

/--
**From `fill` to whole runs.** `Core r tail` says that `tail` is what follows the piece
at hand. It has to survive serving and a `fill`, and to say what is known at the end.
-/
theorem releaseInv {Core : ρ → Bytes → Prop} {Fin : ρ → ReadErr ε → Bytes → Prop}
    (herr : ∀ r tail, Core r tail → F.err r = none)
    (hserve : ∀ r tail k, Core r tail → Core (F.serve r k) tail)
    (hdone : ∀ r tail, Core r tail → F.plain r = [] → F.ended r → Fin (F.release r) .eof tail)
    (hfail : ∀ r tail e r', Core r tail → F.plain r = [] → ¬ F.ended r → F.fill r = (some e, r') → Fin r' e tail)
    (hfill : ∀ r tail r', Core r tail → F.plain r = [] → ¬ F.ended r → F.fill r = (none, r') →
      ∃ tail', tail = F.plain r' ++ tail' ∧ Core r' tail') :
    ReleaseInv (fun r data => ∃ tail, data = F.plain r ++ tail ∧ Core r tail) Fin := by
  have hret : ∀ {r : ρ} {tail : Bytes} {k : Nat} {q : ReadResult ρ ε}, Core r tail → F.Returns r k q →
      q.Releases (fun r data => ∃ tail, data = F.plain r ++ tail ∧ Core r tail) Fin (F.plain r ++ tail) := by
    intro r tail k q hc hq
    cases hq with
    | copy hp =>
      refine ⟨(F.plain r).drop k ++ tail, ?_, tail, ?_, hserve r tail k hc⟩
      · rw [← append_assoc, take_append_drop]
      · rw [h.serve]
    | eof hp hd =>
      rw [hp]
      exact ⟨tail, rfl, hdone r tail hc hp hd⟩
    | bad e r' hp hd hf =>
      rw [hp]
      exact ⟨tail, rfl, hfail r tail e r' hc hp hd hf⟩
  rintro r data k ⟨tail, rfl, hc⟩
  cases h.read_cases r k with
  | failed e he eq => rw [herr r tail hc] at he; simp at he
  | now _ hq => exact hret hc hq
  | filled r' _ hp hd hf hq =>
    obtain ⟨tail', rfl, hc'⟩ := hfill r tail r' hc hp hd hf
    rw [hp]
    exact hret hc' hq

end Reads

end Filler

end ByteIo
