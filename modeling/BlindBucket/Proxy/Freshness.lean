import BlindBucket.Freshness.Crash
import BlindBucket.Lib.GoText
import BlindBucket.Manifest.Manifest

/-!
# The gateway and its freshness index

An object is identified by a tag over its segment salts. A write the provider has
acknowledged is recorded, a delete leaves a tombstone, a copy makes the index forget, and
a read is refused if the index knows the key by another tag. Without an index nothing is
checked. Every index write succeeds, so the branches for a failing one are not reached
while the index is open.
-/

namespace BlindBucket

open ByteIo BlindBucket.Stream BlindBucket.Freshness

structure Sha256 where
  sum : Bytes → Bytes
  sum_length : ∀ b, (sum b).length = 32

namespace Freshness

def tagInfo : String := "blindbucket/v1/freshness-tag"

def maxTagParts : Nat := 10000

/-- The salts in part order, behind their number. -/
def tagFromSalts (H : Sha256) (salts : List Salt) : Try Tag :=
  if salts.length = 0 then
    .error (errorf "freshness: an object has at least one segment salt" [])
  else if maxTagParts < salts.length then
    .error (errorf "freshness: %d salts exceeds the %d-part limit"
      [.int salts.length, .int maxTagParts])
  else .ok ⟨(H.sum (GoText.ascii tagInfo ++ beBytes 4 salts.length ++ salts.flatMap Subtype.val)).take tagSize, by
    rw [List.length_take, H.sum_length]; rfl⟩

end Freshness

variable (D : Digests) (H : Sha256)

/-- The message of `s3api.ErrRollback` for an object that is not the recorded write. -/
def staleMsg : Msg := ⟨"this object authenticated, but it is not the write this gateway last " ++
  "recorded for that key. See docs/adr/ADR-018-rollback-detection.md", []⟩

/-- The message of `s3api.ErrRollback` for an object at a key that was deleted. -/
def deletedMsg : Msg := ⟨"this key was deleted through this gateway and the provider produced an " ++
  "object for it anyway. See docs/adr/ADR-018-rollback-detection.md", []⟩

/-- The answer to a read on a verdict: refused with `s3api.ErrRollback`, or let through. -/
def rollbackOf : Verdict → Option Msg
  | .stale => some staleMsg
  | .deleted => some deletedMsg
  | .unknown | .fresh => none

variable (fresh : Option Local) (bucket key : Bytes)

/-- The rollback error, if the read is refused, and the index afterwards. -/
def checkFreshness (salts : List Salt) (t : Clock) :
    Option Msg × Option Local :=
  match fresh with
  | none => (none, none)
  | some l =>
    if salts.length = 0 then (none, some l)
    else match tagFromSalts H salts with
      | .error _ => (none, some l)
      | .ok tag =>
        match (l.check D bucket key tag t).1 with
        | .error _ => (none, some (l.check D bucket key tag t).2)
        | .ok verdict => (rollbackOf verdict, some (l.check D bucket key tag t).2)

def recordFreshness (salts : List Salt) (t : Clock) : Option Local :=
  match fresh with
  | none => none
  | some l =>
    if salts.length = 0 then some l
    else match tagFromSalts H salts with
      | .error _ => some l
      | .ok tag => some (l.record D bucket key tag t).2

def forgetFreshness (t : Clock) : Option Local :=
  fresh.map fun l => (l.forget D bucket key t).2

/-- What `copyObject` does with the index once the copy is made. -/
def invalidateFreshness (t : Clock) : Option Local :=
  fresh.map fun l => (l.invalidate D bucket key t).2

/-- The part salts, unless the manifest is of the format without them. -/
def manifestSalts (m : Manifest) : List Salt := if m.hasSalts then m.parts.map Part.salt else []

/-- The salt of a single segment. -/
def saltsOf (salt : Salt) : List Salt := [salt]

/-! ## What a call changes -/

variable {l : Local} {tag : Tag}

namespace Freshness

variable {D}

/-- What a push leaves of the entry at another name: the entry, or nothing of a tombstone. -/
theorem lookup_push_ne {r : Record} {t : Clock} {h : NameHash} (hne : h ≠ r.name) :
    (l.push D r t).m.lookup h = l.m.lookup h ∨
      (l.push D r t).m.lookup h = none ∧ ∃ e, l.m.lookup h = some e ∧ e.kind = kindTombstone := by
  have hsame : (applyRecord l.m r).lookup h = l.m.lookup h := by
    rw [lookup_applyRecord, if_neg hne]
  rw [← hsame]
  exact lookup_push_cases l r t h

theorem push_frame (r : Record) (t : Clock) :
    (l.push D r t).closed = l.closed ∧ (l.push D r t).retention = l.retention := by
  rw [Local.push]
  rcases maintainLocked_cases
    { l.writeRecordLocked D r with m := applyRecord l.m r } t with ⟨n, hn⟩ | hc
  · rw [hn]
    exact ⟨rfl, rfl⟩
  · rw [hc]
    exact ⟨rfl, rfl⟩

theorem push_closed (r : Record) (t : Clock) : (l.push D r t).closed = l.closed :=
  (push_frame r t).1

end Freshness

/-- The tag of an object of one segment. -/
def segmentTag (salt : Salt) : Tag :=
  ⟨(H.sum (GoText.ascii tagInfo ++ beBytes 4 1 ++ salt.1)).take Freshness.tagSize, by
    rw [List.length_take, H.sum_length]; rfl⟩

variable {D H}

theorem tagFromSalts_saltsOf (salt : Salt) : tagFromSalts H (saltsOf salt) = .ok (segmentTag H salt) := by
  rw [tagFromSalts, saltsOf, if_neg (by simp), if_neg (by simp [maxTagParts])]
  simp [segmentTag]

def Freshness.Local.known (D : Digests) (l : Local) (bucket key : Bytes) : Option Entry :=
  l.m.lookup (name D bucket key)

theorem rollbackOf_eq_none {v : Verdict} : rollbackOf v = none ↔ v.ok = true := by
  cases v <;> simp [rollbackOf, Verdict.ok]

/-- **What a check does.** It refuses exactly if the index contradicts the tag, and records the
tag if the index knows nothing. -/
theorem checkFreshness_spec (hopen : l.closed = false) (bucket key : Bytes) {salts : List Salt}
    (htag : tagFromSalts H salts = .ok tag) (t : Clock) :
    ((checkFreshness D H (some l) bucket key salts t).1 = none ↔ Agrees (l.known D bucket key) tag) ∧
      (checkFreshness D H (some l) bucket key salts t).2 = some (match l.known D bucket key with
        | none => l.push D ⟨name D bucket key, tag, kindPresent, t.record⟩ t
        | some _ => l) := by
  have hne : ¬ salts.length = 0 := by
    intro h0
    rw [tagFromSalts, if_pos h0] at htag
    simp at htag
  rw [checkFreshness, if_neg hne, htag]
  dsimp only
  rw [Local.check, if_neg (by simp [hopen])]
  unfold Freshness.Local.known
  cases hk : l.m.lookup (name D bucket key) with
  | none =>
    refine ⟨by simp [rollbackOf, Agrees], ?_⟩
    simp only [appendLocked_eq_push kindPresent_valid]
  | some e =>
    refine ⟨?_, rfl⟩
    simp only [rollbackOf_eq_none, Entry.verdict_ok, Agrees, Option.some.injEq, forall_eq']

theorem recordFreshness_spec (hopen : l.closed = false) (bucket key : Bytes) {salts : List Salt}
    (htag : tagFromSalts H salts = .ok tag) (t : Clock) :
    recordFreshness D H (some l) bucket key salts t =
      some (l.push D ⟨name D bucket key, tag, kindPresent, t.record⟩ t) := by
  have hne : ¬ salts.length = 0 := by
    intro h0
    rw [tagFromSalts, if_pos h0] at htag
    simp at htag
  rw [recordFreshness, if_neg hne, htag]
  dsimp only
  rw [Local.record, if_neg (by simp [hopen]), appendLocked_eq_push kindPresent_valid]

theorem known_push (bucket key : Bytes) (tag : Tag) (t : Clock) :
    (l.push D ⟨name D bucket key, tag, kindPresent, t.record⟩ t).known D bucket key =
      some ⟨tag, kindPresent, t.record⟩ := by
  refine lookup_push ?_ kindPresent_ne_tombstone
  rw [applyRecord_of_ne kindPresent_valid, AList.lookup_insert]

theorem agrees_none (tag : Tag) : Agrees none tag := by
  intro e he
  simp at he

theorem agrees_some {e : Entry} : Agrees (some e) tag ↔ e.kind ≠ kindTombstone ∧ e.tag = tag := by
  simp [Agrees]

theorem agrees_present (tag : Tag) (when : Unix) : Agrees (some ⟨tag, kindPresent, when⟩) tag :=
  agrees_some.mpr ⟨kindPresent_ne_tombstone, rfl⟩

end BlindBucket
