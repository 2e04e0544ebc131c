import BlindBucket.Lib.GoText

/-!
# How encoding/json fills a struct

What the scanner has read is a `Document`. The members of an object are stored one after the other, each in the field
of its name, so that a later one overwrites an earlier one. A value that does not fit its field is noted, the rest is
still read, and the decode fails in the end: it succeeds exactly if every value fits.
-/

namespace GoText

/-- A JSON value. Numbers are kept as they are spelled. -/
inductive Document where
  | null
  | bool (b : Bool)
  | num (literal : Bytes)
  | str (s : Bytes)
  | arr (values : List Document)
  | obj (members : List (Bytes × Document))

/-- `strconv.ParseUint(s, 10, 64)`. -/
def parseUint (s : Bytes) : Option Nat :=
  if s = [] then none else (parseDigits 0 s).filter (· < 2 ^ 64)

namespace Document

def isNull : Document → Bool
  | null => true
  | _ => false

/-- What a `uint64` takes from a value: nothing from a null, and a failure if it is not such a number. -/
def uint64 : Document → Option (Option Nat)
  | null => some none
  | num s => (parseUint s).map some
  | _ => none

/-- What an `int` takes from a value. -/
def int : Document → Option (Option Int)
  | null => some none
  | num s => (parseInt s).map some
  | _ => none

/-- What a `string` takes from a value. -/
def text : Document → Option (Option Bytes)
  | null => some none
  | str s => some (some s)
  | _ => none

/-- The number is zero, however it is spelled. -/
def isZero : Document → Bool
  | num s => (s.takeWhile fun c => c != 0x65 && c != 0x45).all fun c => c == 0x30 || c == 0x2D || c == 0x2E
  | _ => false

/-- The values that the members give the field, in their order. Names are compared up to case. -/
def given (field : Bytes) (members : List (Bytes × Document)) : List Document :=
  (members.filter fun m => equalFold field m.1).map Prod.snd

/-- A field of a struct: its name, and what storing a value does, if the value fits. -/
structure Slot (α : Type) where
  name : Bytes
  store : Document → Option (α → α)

/-- A field that keeps what it has where nothing is taken from the value. -/
def field {α β : Type} (name : String) (take : Document → Option (Option β)) (set : β → α → α) : Slot α :=
  ⟨ascii name, fun v => (take v).map fun b a => b.elim a (set · a)⟩

/-- The members stored in the struct `a`. -/
def decodeMembers {α : Type} (fields : List (Slot α)) : List (Bytes × Document) → α → Option α
  | [], a => some a
  | (name, v) :: rest, a =>
    match fields.find? fun f => equalFold f.name name with
    | none => decodeMembers fields rest a
    | some f => (f.store v).bind fun u => decodeMembers fields rest (u a)

/-- `json.Unmarshal` of a document into a struct whose fields are empty. -/
def decodeStruct {α : Type} (fields : List (Slot α)) (zero : α) : Document → Option α
  | null => some zero
  | obj members => decodeMembers fields members zero
  | _ => none

end Document

end GoText
