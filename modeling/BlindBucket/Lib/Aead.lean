import BlindBucket.Lib.Bytes
import Mathlib.Data.List.Basic
import Mathlib.Tactic.Common

/-!
# Authenticated encryption

An AEAD is taken as a pair of functions of which only the lengths are known: sealing
adds a tag of fixed size, and what opens was longer than its plaintext by that much.

Two assumptions about it are used. `Aead.Correct` says that what was sealed opens
again; a round trip needs no more. `Aead.Ideal` is the idealisation a security
argument starts from: under the keys in question nothing opens except what is in a
log of sealed messages, each at the nonce and the associated data it was sealed
with. A real cipher comes close to this; `tableAead` satisfies it exactly, by looking
every message up in its log.
-/

/-- Authenticated encryption with a tag of `overhead` bytes. -/
structure Aead (overhead : Nat) where
  sealBytes : (key nonce plain aad : Bytes) → Bytes
  openBytes : (key nonce sealed aad : Bytes) → Option Bytes
  sealBytes_length : ∀ k n p a, (sealBytes k n p a).length = p.length + overhead
  openBytes_length : ∀ {k n c a p}, openBytes k n c a = some p → c.length = p.length + overhead

namespace Aead

open List

variable {t : Nat}

/-- One sealed message: everything that went into it. -/
structure Record where
  key : Bytes
  nonce : Bytes
  aad : Bytes
  plain : Bytes
deriving DecidableEq, Repr

/-- What is sealed opens again. -/
def Correct (A : Aead t) : Prop :=
  ∀ k n p a, A.openBytes k n (A.sealBytes k n p a) a = some p

/-- Under the keys in `K`, exactly the logged messages open. -/
def Ideal (A : Aead t) (K : Bytes → Prop) (log : Record → Prop) : Prop :=
  ∀ k n c a p, K k → (A.openBytes k n c a = some p ↔ log ⟨k, n, a, p⟩ ∧ c = A.sealBytes k n p a)

variable {A : Aead t} {K : Bytes → Prop} {log : Record → Prop} {k n c a p : Bytes}

theorem Ideal.logged (h : A.Ideal K log) (hk : K k) (ho : A.openBytes k n c a = some p) :
    log ⟨k, n, a, p⟩ := ((h k n c a p hk).mp ho).1

theorem Ideal.sealed_eq (h : A.Ideal K log) (hk : K k) (ho : A.openBytes k n c a = some p) :
    c = A.sealBytes k n p a := ((h k n c a p hk).mp ho).2

theorem Ideal.opens (h : A.Ideal K log) (hk : K k) (hl : log ⟨k, n, a, p⟩) :
    A.openBytes k n (A.sealBytes k n p a) a = some p := (h k n _ a p hk).mpr ⟨hl, rfl⟩

/-! ## A table in place of a cipher -/

def zeroTag (t : Nat) : Bytes := replicate t 0

/-- Opens `p ++ zeroTag` for the messages `accepts` lets through. -/
def gateAead (t : Nat) (accepts : Record → Bool) : Aead t where
  sealBytes _ _ p _ := p ++ zeroTag t
  openBytes k n c a :=
    let p := c.take (c.length - t)
    if c = p ++ zeroTag t ∧ accepts ⟨k, n, a, p⟩ = true then some p else none
  sealBytes_length k n p a := by simp [zeroTag]
  openBytes_length {k n c a p} h := by
    obtain ⟨hc, h⟩ := Option.ite_none_right_eq_some.mp h
    obtain rfl := Option.some.inj h
    have := congrArg length hc.1
    rw [length_append] at this
    simpa [zeroTag] using this

theorem gateAead_openBytes_iff (accepts : Record → Bool) (k n c a p : Bytes) :
    (gateAead t accepts).openBytes k n c a = some p ↔
      accepts ⟨k, n, a, p⟩ = true ∧ c = (gateAead t accepts).sealBytes k n p a := by
  constructor
  · intro h
    obtain ⟨hc, h⟩ := Option.ite_none_right_eq_some.mp h
    cases h
    exact ⟨hc.2, hc.1⟩
  · rintro ⟨h, rfl⟩
    have htake : (p ++ zeroTag t).take ((p ++ zeroTag t).length - t) = p := by
      rw [length_append, zeroTag, length_replicate, Nat.add_sub_cancel,
        take_left']
      rfl
    unfold gateAead
    dsimp only
    rw [htake, if_pos ⟨rfl, h⟩]

/-- An AEAD that opens whatever carries a tag. -/
def openAead (t : Nat) : Aead t := gateAead t (fun _ => true)

theorem openAead_correct : (openAead t).Correct := by
  intro k n p a
  exact (gateAead_openBytes_iff _ k n _ a p).mpr ⟨rfl, rfl⟩

/-- An AEAD that opens exactly the messages of a log. -/
def tableAead (t : Nat) (log : List Record) : Aead t := gateAead t (fun r => decide (r ∈ log))

theorem tableAead_ideal (log : List Record) (K : Bytes → Prop) : (tableAead t log).Ideal K (· ∈ log) := by
  intro k n c a p _
  rw [tableAead, gateAead_openBytes_iff, decide_eq_true_iff]

end Aead
