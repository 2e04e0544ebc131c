import Mathlib.Data.List.Basic
import Mathlib.Tactic.Common

/-!
# Logs of fixed-width records

An append-only log is a sequence of blocks of one width. Replaying it reads blocks from
the front for as long as they are whole and decode, and leaves the rest unread. What was
encoded block by block is read back, whatever follows it; and a tail that cannot be read
hides everything that is appended after it, as long as the block it becomes part of does
not decode either.
-/

namespace RecordLog

open List

variable {α R : Type}

/-- How records of type `R` are written as blocks of symbols, and read back. -/
structure Format (α R : Type) where
  width : Nat
  width_pos : 0 < width
  encode : R → List α
  decode : List α → Option R
  encode_length : ∀ r, (encode r).length = width
  decode_encode : ∀ r, decode (encode r) = some r

namespace Format

variable (F : Format α R)

def encodeAll (rs : List R) : List α := rs.flatMap F.encode

/-- Read blocks until one is short or does not decode. -/
def replayLoop : Nat → List α → List R × List α
  | 0, bs => ([], bs)
  | fuel + 1, bs =>
    if bs.length < F.width then ([], bs)
    else match F.decode (bs.take F.width) with
      | none => ([], bs)
      | some r =>
        let next := replayLoop fuel (bs.drop F.width)
        (r :: next.1, next.2)

/-- The records at the front of a log, and what is left unread. -/
def replay (bs : List α) : List R × List α := F.replayLoop bs.length bs

/-- No record can be read from here. -/
def Stuck (bs : List α) : Prop := bs.length < F.width ∨ F.decode (bs.take F.width) = none

/-- `front` is read as the records `rs`, whatever follows it. -/
def Reads (front : List α) (rs : List R) : Prop :=
  ∀ tail, F.replay (front ++ tail) = (rs ++ (F.replay tail).1, (F.replay tail).2)


@[simp] theorem encodeAll_cons (r : R) (rs : List R) : F.encodeAll (r :: rs) = F.encode r ++ F.encodeAll rs := rfl

variable {F}

variable {bs front : List α} {r : R} {rs : List R}

theorem replayLoop_stuck (h : F.Stuck bs) (fuel : Nat) : F.replayLoop fuel bs = ([], bs) := by
  cases fuel with
  | zero => rfl
  | succ fuel =>
    rw [replayLoop]
    rcases h with h | h
    · rw [if_pos h]
    · rw [h]
      split <;> rfl

theorem replayLoop_block (hlen : F.width ≤ bs.length) (hdec : F.decode (bs.take F.width) = some r) (fuel : Nat) :
    F.replayLoop (fuel + 1) bs =
      (r :: (F.replayLoop fuel (bs.drop F.width)).1, (F.replayLoop fuel (bs.drop F.width)).2) := by
  rw [replayLoop, if_neg (by omega), hdec]

theorem replayLoop_fuel (fuel : Nat) : ∀ bs : List α, bs.length ≤ fuel → F.replayLoop fuel bs = F.replay bs := by
  have hstep : ∀ (n m : Nat) (bs : List α), bs.length ≤ n → bs.length ≤ m → F.replayLoop n bs = F.replayLoop m bs := by
    intro n
    induction n with
    | zero =>
      intro m bs hn _
      have hshort : bs.length < F.width := Nat.lt_of_le_of_lt hn F.width_pos
      rw [replayLoop_stuck (.inl hshort), replayLoop_stuck (.inl hshort)]
    | succ n ih =>
      intro m bs hn hm
      by_cases hlen : bs.length < F.width
      · rw [replayLoop_stuck (.inl hlen), replayLoop_stuck (.inl hlen)]
      have hpos := F.width_pos
      cases m with
      | zero => omega
      | succ m =>
        cases hdec : F.decode (bs.take F.width) with
        | none => rw [replayLoop_stuck (.inr hdec), replayLoop_stuck (.inr hdec)]
        | some r =>
          have hdrop : (bs.drop F.width).length ≤ n ∧ (bs.drop F.width).length ≤ m := by
            rw [length_drop]; omega
          rw [replayLoop_block (by omega) hdec, replayLoop_block (by omega) hdec,
            ih m _ hdrop.1 hdrop.2]
  intro bs h
  exact hstep fuel bs.length bs h (Nat.le_refl _)

theorem replay_stuck (h : F.Stuck bs) : F.replay bs = ([], bs) :=
  replayLoop_stuck h _

theorem replay_block (hlen : F.width ≤ bs.length) (hdec : F.decode (bs.take F.width) = some r) :
    F.replay bs = (r :: (F.replay (bs.drop F.width)).1, (F.replay (bs.drop F.width)).2) := by
  have hpos := F.width_pos
  obtain ⟨n, hn⟩ : ∃ n, bs.length = n + 1 := ⟨bs.length - 1, by omega⟩
  have hdrop : (bs.drop F.width).length ≤ n := by rw [length_drop]; omega
  rw [replay, hn, replayLoop_block hlen hdec, replayLoop_fuel n _ hdrop]

theorem replay_encode_append (r : R) (bs : List α) :
    F.replay (F.encode r ++ bs) = (r :: (F.replay bs).1, (F.replay bs).2) := by
  have htake : (F.encode r ++ bs).take F.width = F.encode r := take_left' (F.encode_length r)
  have hdrop : (F.encode r ++ bs).drop F.width = bs := drop_left' (F.encode_length r)
  have hlen : F.width ≤ (F.encode r ++ bs).length := by
    rw [length_append, F.encode_length]; omega
  have hdec : F.decode ((F.encode r ++ bs).take F.width) = some r := by
    rw [htake, F.decode_encode]
  rw [replay_block hlen hdec, hdrop]

/-- What was written record by record is read back, whatever follows it. -/
theorem replay_encodeAll_append (rs : List R) (bs : List α) :
    F.replay (F.encodeAll rs ++ bs) = (rs ++ (F.replay bs).1, (F.replay bs).2) := by
  induction rs with
  | nil => rfl
  | cons r rs ih =>
    rw [encodeAll_cons, append_assoc, replay_encode_append, ih]
    rfl

theorem stuck_nil : F.Stuck [] := .inl F.width_pos

theorem reads_nil : F.Reads [] [] := fun _ => rfl

theorem reads_encode (r : R) : F.Reads (F.encode r) [r] := replay_encode_append r

theorem reads_encodeAll (rs : List R) : F.Reads (F.encodeAll rs) rs := replay_encodeAll_append rs

theorem Reads.append {front' : List α} {rs' : List R} (h : F.Reads front rs) (h' : F.Reads front' rs') :
    F.Reads (front ++ front') (rs ++ rs') := by
  intro tail
  rw [append_assoc, h, h', append_assoc]

theorem Reads.replay (h : F.Reads front rs) : F.replay front = (rs, []) := by
  have hnil := h []
  rw [replay_stuck stuck_nil, append_nil, append_nil] at hnil
  exact hnil

/-- A tail that cannot be read hides what stands behind it. -/
theorem Reads.replay_stuck {tail : List α} (h : F.Reads front rs) (hs : F.Stuck tail) :
    F.replay (front ++ tail) = (rs, tail) := by
  rw [h, Format.replay_stuck hs, append_nil]

/-- A log splits into what replay reads and what it leaves, and what it reads does not
depend on what comes after. -/
theorem replay_split (bs : List α) :
    ∃ front, bs = front ++ (F.replay bs).2 ∧ front.length = F.width * (F.replay bs).1.length ∧
      F.Stuck (F.replay bs).2 ∧ F.Reads front (F.replay bs).1 := by
  induction hn : bs.length using Nat.strongRecOn generalizing bs with
  | _ n ih =>
    by_cases hlen : bs.length < F.width
    · rw [Format.replay_stuck (.inl hlen)]
      exact ⟨[], rfl, rfl, .inl hlen, reads_nil⟩
    cases hdec : F.decode (bs.take F.width) with
    | none =>
      rw [Format.replay_stuck (.inr hdec)]
      exact ⟨[], rfl, rfl, .inr hdec, reads_nil⟩
    | some r =>
      have hpos := F.width_pos
      have hless : (bs.drop F.width).length < n := by rw [length_drop]; omega
      obtain ⟨front, hsplit, hfront, hstuck, hreads⟩ := ih _ hless (bs.drop F.width) rfl
      have htakelen : (bs.take F.width).length = F.width := by
        rw [length_take]; omega
      rw [replay_block (by omega) hdec]
      refine ⟨bs.take F.width ++ front, ?_, ?_, hstuck, ?_⟩
      · rw [append_assoc, ← hsplit, take_append_drop]
      · rw [length_append, htakelen, hfront, length_cons, Nat.mul_succ, Nat.add_comm]
      · intro tail
        -- the first block is read as before, and the rest by induction
        have htake : (bs.take F.width ++ (front ++ tail)).take F.width = bs.take F.width :=
          take_left' htakelen
        have hdrop : (bs.take F.width ++ (front ++ tail)).drop F.width = front ++ tail :=
          drop_left' htakelen
        have hdec' : F.decode ((bs.take F.width ++ (front ++ tail)).take F.width) = some r := by
          rw [htake, hdec]
        rw [append_assoc, replay_block (by rw [length_append]; omega) hdec', hdrop,
          hreads]
        rfl

theorem Reads.length (h : F.Reads front rs) : front.length = F.width * rs.length := by
  obtain ⟨front', hsplit, hlen, -, -⟩ := replay_split front
  rw [h.replay, append_nil] at hsplit
  rw [h.replay] at hlen
  rw [hsplit, hlen]

end Format

end RecordLog
