import BlindBucket.Cloud.Copy

/-!
# Migration of names

`migrate-names` moves an object from the key it is stored under in clear to the encrypted form of its
name: it copies and then deletes. Clients are served with names encrypted throughout.
-/

namespace BlindBucket.Cloud

open BlindBucket.Stream ObjectMeta Service

/-- Why a name has no encrypted form. -/
inductive NameErr where
  | tooLong
  | other
deriving DecidableEq

/-- `migrate.Config`, with the object that is moved: its name and the key it is stored under. -/
structure MigrateRequest where
  bucket : Bytes
  identity : Bytes
  stored : Bytes
  encryptKey : Bytes → Except NameErr Bytes
  allowUnconditional : Bool
  dryRun : Bool

inductive Migrated where
  | gone
  | migrated
  | resumed
  | superseded
  | conflicted
  | foreign
  | tooLong
  | failed
  | again
deriving DecidableEq

variable (G : Site) (r : MigrateRequest)

def MigrateRequest.plain : Loc := ⟨r.bucket, r.stored⟩

/-- `none` if one of the two data keys cannot be had. -/
def sameDataKey (a b : Meta) : Option Bool := do
  let aadA ← (Keys.objectAAD a.keyID r.bucket r.identity).toOption
  let first ← G.keys.unwrap a.keyID a.wrappedDEK aadA
  let aadB ← (Keys.objectAAD b.keyID r.bucket r.identity).toOption
  let second ← G.keys.unwrap b.keyID b.wrappedDEK aadB
  pure (decide (first = second))

/-- `judgeExisting`: what the object at the encrypted key means for the one in clear. -/
def judgeMigrated (plainInfo : Info) (plainMeta : Meta) (encInfo : Info) : Migrated :=
  match G.parse encInfo.metadata with
  | .error e => if isSentinel .notEncrypted e then .conflicted else .failed
  | .ok encMeta =>
    match sameDataKey G r plainMeta encMeta with
    | none => .failed
    | some true => .resumed
    | some false =>
      if plainInfo.lastModified < encInfo.lastModified then .superseded else .conflicted

def copyToEncrypted (stored : Bytes) (info : Info) (m : Meta) : Call Meta :=
  copyDo G
    { source := ⟨r.bucket, r.identity, r.stored, info, m⟩
      dest := ⟨r.bucket, r.identity, stored, m.keyID, userMetadataOf info.metadata, info.headers⟩
      sourceIfMatch := info.etag
      destIfNoneMatch := if r.allowUnconditional then [] else GoText.ascii "*"
      yieldToUploads := true }

/-- The object in clear, then its manifest; `true` if the object could be deleted. -/
def deletePlain (id : Option Manifest.ID) : Call Bool := do
  match ← tryAsk (.delete r.plain) with
  | .error _ => pure false
  | .ok _ =>
    match id with
    | none => pure true
    | some id => do
        bestEffort (.deleteManifest r.plain id)
        pure true

/-- The last steps of `attemptOne`. -/
def finishMigration (m : Meta) (verdict : Migrated) : Call Migrated := do
  let deleted ← deletePlain r m.manifestID
  pure (if deleted then verdict else .failed)

/-- What a failed copy means. -/
def copyFailed : OpErr → Migrated
  | .preconditionFailed => .again
  | .upstream f => if f.isNotFound then .again else .failed
  | _ => .failed

/-- `attemptOne` once the object in clear is known to be the gateway's, with the encrypted key. -/
def attemptTo (stored : Bytes) (info : Info) (m : Meta) : Call Migrated := do
  match ← tryAsk (.head ⟨r.bucket, stored⟩) with
  | .error f =>
    if !f.isNotFound then pure .failed
    else if r.dryRun then pure .migrated
    else do
      match ← ((copyToEncrypted G r stored info m).attempt : Call (Except OpErr Meta)) with
      | .error e => pure (copyFailed e)
      | .ok _ => finishMigration r m .migrated
  | .ok encInfo =>
    let verdict := judgeMigrated G r info m encInfo
    if verdict ≠ .resumed ∧ verdict ≠ .superseded then pure verdict
    else if r.dryRun then pure verdict
    else finishMigration r m verdict

/-- `attemptOne`. -/
def attemptMigrate : Call Migrated := do
  match ← tryAsk (.head r.plain) with
  | .error f => pure (if f.isNotFound then .gone else .failed)
  | .ok info =>
    match G.parse info.metadata with
    | .error e => pure (if isSentinel .notEncrypted e then .foreign else .failed)
    | .ok m =>
      match r.encryptKey r.identity with
      | .error .tooLong => pure .tooLong
      | .error .other => pure .failed
      | .ok stored => attemptTo G r stored info m

/-- The attempts that are left: an object that changed is started over. -/
def migrateAttempts : Nat → Call Migrated
  | 0 => pure .failed
  | n + 1 => do
      let got ← attemptMigrate G r
      if got = .again then migrateAttempts n else pure got

def maxAttempts : Nat := 3

def migrateOne : Call Migrated := migrateAttempts G r maxAttempts

end BlindBucket.Cloud
