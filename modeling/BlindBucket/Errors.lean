import BlindBucket.Lib.Reader
import Mathlib.Algebra.Order.Ring.Nat

/-!
# Errors

An error is kept as it is built in the source: what it wraps, the format string and
the arguments handed to `fmt`. Rendering the text is left to `fmt`.
-/

namespace BlindBucket

open ByteIo

inductive Arg where
  | int (n : Int)
  | bool (b : Bool)
  | bytes (b : Bytes)
deriving DecidableEq, Repr

structure Msg where
  format : String
  args : List Arg := []
deriving DecidableEq, Repr

/-- The kinds of integrity failure `crypto/stream` reports. -/
inductive Kind where
  | header
  | chunk
  | size
deriving DecidableEq, Repr

/-- The package-level errors that callers test for with `errors.Is`. -/
inductive Sentinel where
  | rangeNotSatisfiable
  | writerClosed
  | manifestVerify
  | partRules
  | partTooLarge
  | notEncrypted
  | kidInvalid
  | indexDamaged
  | malformedChunkedBody
  | chunkSignature
  | checksumMismatch
  | unsupportedChecksum
  | missingContentLength
  | malformedAuth
  | name
  | nameTooLong
  | unknownKID
  | unwrap
  | keyringMalformed
  | tenantDestroyed
  | tenantUnopened
  | tagsMalformed
  | tagsOpen
  | invalidTag
  | uploadToken
  | auditMalformed
  | auditTampered
  | auditWrongKey
  | auditBroken
  | presignMalformed
  | presignExpired
  | requestTimeTooSkewed
deriving DecidableEq, Repr

/-- The errors of package `io`, where another error wraps them. -/
inductive IoErr where
  | eof
  | unexpectedEOF
  | noProgress
deriving DecidableEq, Repr

inductive GoErr where
  /-- `*stream.IntegrityError`. -/
  | integrity (kind : Kind) (detail : Msg) (chunk : Int)
  /-- `fmt.Errorf` or `errors.New`, with the sentinel it wraps if any. -/
  | errorf (wraps : Option Sentinel) (msg : Msg)
  /-- `fmt.Errorf` with a sentinel and another error, which comes last in the text. -/
  | wrapping (wraps : Sentinel) (msg : Msg) (inner : GoErr)
  /-- `fmt.Errorf` with another error under `%w` and no sentinel of its own. -/
  | around (msg : Msg) (inner : GoErr)
  /-- An error of package `io`, wrapped by another. -/
  | io (e : IoErr)
  /-- An error of the network, the provider or the client's connection. -/
  | external (code : Nat)
deriving DecidableEq, Repr

/-- What `error` holds: one of the `io` sentinels or something else. -/
abbrev Error := ReadErr GoErr

/-- What a function that may fail returns. -/
abbrev Try := Except Error

/-- An integrity failure that is not tied to a chunk. -/
def integrityf (kind : Kind) (format : String) (args : List Arg) : Error :=
  .other (.integrity kind ⟨format, args⟩ (-1))

def maxInt64 : Nat := 2 ^ 63 - 1

/-- An integrity failure at chunk `i`. -/
def chunkErrorf (i : Nat) (format : String) (args : List Arg) : Error :=
  .other (.integrity .chunk ⟨format, args⟩ (if i ≤ maxInt64 then i else -1))

def errorf (format : String) (args : List Arg) : Error := .other (.errorf none ⟨format, args⟩)

variable (s : Sentinel) (format : String) (args : List Arg) (err : Error)

def wrapf : Error :=
  .other (.errorf (some s) ⟨format, args⟩)

/-- What is wrapped when an error is wrapped. -/
def inner : Error → GoErr
  | .eof => .io .eof
  | .unexpectedEOF => .io .unexpectedEOF
  | .noProgress => .io .noProgress
  | .other e => e

/-- `fmt.Errorf` with a sentinel and another error under `%w`. -/
def wrapErr : Error :=
  .other (.wrapping s ⟨format, args⟩ (inner err))

/-- `fmt.Errorf` with another error under `%w` only. -/
def aroundErr : Error :=
  .other (.around ⟨format, args⟩ (inner err))

/-- `wrapf` where the error is known not to be one of package `io`. -/
def GoErr.wrapf : GoErr :=
  .errorf (some s) ⟨format, args⟩

/-- `wrapErr` where the error is known not to be one of package `io`. -/
def GoErr.wrapErr : GoErr :=
  .wrapping s ⟨format, args⟩ (inner err)

/-- An integrity failure of kind `kind` with the text of `err`, as in `integrityf(kind, "%v", err)`. -/
def integrityOf (kind : Kind) : Error → Error
  | .other (.errorf _ msg) => .other (.integrity kind msg (-1))
  | err => err

theorem integrityOf_ne_eof {kind : Kind} {e : Error} (h : e ≠ .eof) : integrityOf kind e ≠ .eof := by
  unfold integrityOf
  split
  · simp
  · exact h

/-- What `errors.Is` finds in an error under `%w`. -/
def GoErr.is (s : Sentinel) : GoErr → Bool
  | .errorf (some t) _ => s == t
  | .wrapping t _ e => s == t || e.is s
  | .around _ e => e.is s
  | _ => false

/-- `errors.Is` for one of the package-level errors. -/
def isSentinel (e : Error) : Bool := (inner e).is s

/-- Whether an error under `%w` is `io.EOF` or wraps it. -/
def GoErr.isEOF : GoErr → Bool
  | .io .eof => true
  | .wrapping _ _ e => e.isEOF
  | .around _ e => e.isEOF
  | _ => false

def isEOF (e : Error) : Bool := (inner e).isEOF

/-! ## Calls that may fail -/

theorem ok_bind {α β ε : Type} (a : α) (f : α → Except ε β) : ((Except.ok a : Except ε α) >>= f) = f a := rfl

theorem error_bind {α β ε : Type} (e : ε) (f : α → Except ε β) : ((Except.error e : Except ε α) >>= f) = .error e := rfl

/-- If a sequence of calls succeeds, the first one did, and then the rest. -/
theorem bind_ok {α β ε : Type} {x : Except ε α} {f : α → Except ε β} {b : β}
    (h : (x >>= f) = .ok b) : ∃ a, x = .ok a ∧ f a = .ok b := by
  cases x with
  | error e => simp [error_bind] at h
  | ok a => exact ⟨a, rfl, h⟩

theorem bind_ne_error {α β ε : Type} {x : Except ε α} {f : α → Except ε β} {e : ε} (hx : x ≠ .error e)
    (hf : ∀ a, f a ≠ .error e) : (x >>= f) ≠ .error e := by
  cases x with
  | error e => exact fun h => hx (congrArg Except.error (Except.error.inj h))
  | ok a => exact hf a

section

variable {α ε : Type} {c : Prop} [Decidable c] {e : ε} {x : Except ε α} {a : α}

/-- A success past a check that refuses with an error. -/
theorem else_ok (h : (if c then .error e else x) = .ok a) : ¬ c ∧ x = .ok a := by
  split at h
  · simp at h
  · exact ⟨‹_›, h⟩

theorem then_ok (h : (if c then x else .error e) = .ok a) : c ∧ x = .ok a := by
  split at h
  · exact ⟨‹_›, h⟩
  · simp at h

end

theorem map_ok {α β ε : Type} {x : Except ε α} {f : α → β} {b : β} : x.map f = .ok b ↔ ∃ a, x = .ok a ∧ f a = b := by
  cases x with
  | error e => simp [Except.map]
  | ok a => simp [Except.map]

theorem toOption_some {α ε : Type} {x : Except ε α} {a : α} : x.toOption = some a ↔ x = .ok a := by
  cases x with
  | error e | ok b => simp [Except.toOption]

theorem mapError_ok {α ε ε' : Type} {x : Except ε α} {f : ε → ε'} {a : α} : x.mapError f = .ok a ↔ x = .ok a := by
  cases x with
  | error e | ok b => simp [Except.mapError]

end BlindBucket
