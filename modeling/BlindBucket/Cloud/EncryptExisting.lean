import BlindBucket.Cloud.Migrate

/-!
# Encryption of objects that were there before

`encrypt-existing` reads an object in clear, encrypts it and publishes it: at the same key if names
are in clear, or else at the encrypted form of its name, after which the object in clear is deleted.
-/

namespace BlindBucket.Cloud

open BlindBucket.Stream ObjectMeta Service GoText

/-- `encrypt.Config`, with the key of the object. `md5` and `lockedUntil` stand for the library
functions: the digest in hexadecimal, and whether a retention date lies in the future or cannot be
read. -/
structure EncryptRequest where
  bucket : Bytes
  key : Bytes
  kid : Bytes
  names : Option (Bytes → Except NameErr Bytes)
  partSize : Int
  allowUnconditional : Bool
  dryRun : Bool
  md5 : Bytes → Bytes
  lockedUntil : Bytes → Bool

inductive Encrypted where
  | gone
  | encrypted
  | obsolete
  | skipped
  | conflicted
  | needsNameMigration
  | tooLong
  | tagged
  | locked
  | unreadable
  | failed
  | again
deriving DecidableEq

variable (G : Site) (r : EncryptRequest)

def EncryptRequest.loc : Loc := ⟨r.bucket, r.key⟩

variable (info : Info) (l : Loc)

def Info.header (name : String) : Bytes := lookupFold (ascii name) info.extra

/-- What keeps the object from being encrypted, if anything does. -/
def judgePlain : Option Encrypted :=
  match G.parse info.metadata with
  | .ok _ => some (if r.names.isSome then .needsNameMigration else .skipped)
  | .error e =>
    if !isSentinel .notEncrypted e then some .conflicted
    else if info.metadata.any fun q => reserved q.1 then some .conflicted
    else if 0 < (parseInt (info.header "x-amz-tagging-count")).getD 0 then some .tagged
    else if equalFold (info.header "x-amz-object-lock-legal-hold") (ascii "on") then some .locked
    else if info.header "x-amz-object-lock-retain-until-date" ≠ []
        ∧ r.lockedUntil (info.header "x-amz-object-lock-retain-until-date") then some .locked
    else if info.header "x-amz-server-side-encryption-customer-algorithm" ≠ [] then some .unreadable
    else none

/-- `judgeExisting`. -/
def judgeEncrypted (plainInfo encInfo : Info) : Encrypted :=
  match G.parse encInfo.metadata with
  | .error _ => .conflicted
  | .ok _ => if plainInfo.lastModified < encInfo.lastModified then .obsolete else .conflicted

/-! ## `write` -/

/-- The part size for an object of this size: at most 10,000 parts. -/
def partSizeFor (plainSize : Int) : Except OpErr Int :=
  if plainSize ≤ r.partSize then .ok r.partSize
  else
    let chunk : Int := 2 ^ G.log2C
    let least := (plainSize + maxParts - 1).tdiv maxParts
    let size := if r.partSize < least then (least + chunk - 1).tdiv chunk * chunk else r.partSize
    match Manifest.maxPartPlaintext G.log2C with
    | .error _ => .error (.internal "part size")
    | .ok largest => if largest < size then .error (.internal "too many parts") else .ok size

/-- The next `size` bytes as a part. -/
def uploadSegment (u number : Nat) (body : Bytes) (size : Nat) (p : SegmentParams)
    (dek : Bytes) : Call (Bytes × Salt) := do
  let _ ← needOk (.internal "segment size") (sealedSize size G.log2C)
  let sealed ← sealSegment G dek p (body.take size)
  require (.internal "reading the object") (decide (size ≤ body.length))
  let etag ← ask (.uploadPart l u number sealed.2)
  pure (etag, sealed.1)

/-- The loop of `write` over the parts, from part `number` on; `fuel` bounds their number. -/
def uploadSegments (l : Loc) (u : Nat) (partSize : Nat) (dek : Bytes) :
    (fuel number : Nat) → (body : Bytes) → (left : Nat) → Call (List (Nat × Bytes) × List Part)
  | 0, _, _, _ => throw (.internal "too many parts")
  | fuel + 1, number, body, left =>
    if left = 0 then pure ([], [])
    else do
      let size := min partSize left
      let part ← uploadSegment G l u number body size ⟨G.log2C, true, number⟩ dek
      let rest ← uploadSegments l u partSize dek fuel (number + 1) (body.drop size) (left - size)
      pure ((number, part.1) :: rest.1, ⟨number, size, part.2⟩ :: rest.2)

/-- The parts of the object: one segment, or several that a manifest lists. -/
def uploadBody (u : Nat) (multipart : Bool) (partSize : Nat) (dek body : Bytes)
    (plainSize : Nat) : Call (List (Nat × Bytes) × List Part) :=
  if multipart then uploadSegments G l u partSize dek (plainSize + 1) 1 body plainSize
  else do
    let part ← uploadSegment G l u 1 body plainSize ⟨G.log2C, false, 0⟩ dek
    pure ([(1, part.1)], [])

/-- The MD5 that the provider's entity tag states, where it is one. -/
def statedMD5 : Option Bytes :=
  let etag := ((info.etag.dropWhile (· == 0x22)).reverse.dropWhile (· == 0x22)).reverse
  if etag.length = 32 ∧ (etag.all fun c => decide (0x30 ≤ c ∧ c ≤ 0x39) || decide (0x61 ≤ c ∧ c ≤ 0x66))
      ∧ info.header "x-amz-server-side-encryption" ≠ ascii "aws:kms" then some etag
  else none

def checkDigest (read : Bytes) : Call Unit :=
  match statedMD5 info with
  | none => pure ()
  | some want => require (.internal "what was read does not match the provider's MD5") (r.md5 read == want)

/-- The manifest, for an object of several parts. -/
def writeLayout (id : Option Manifest.ID) (parts : List Part) (dek : Bytes) : Call Unit :=
  match id with
  | none => pure ()
  | some id => writeManifest G l ⟨l.bucket, l.key, id, parts, false⟩ dek

/-- The part of `write` that is followed by an abort if it fails. -/
def writeUpload (u : Nat) (m : Meta) (partSize : Nat) (dek body : Bytes) (info : Info)
    (c : Cond) : Call Unit := do
  let parts ← uploadBody G l u m.multipart partSize dek body info.contentLength
  checkDigest r info (body.take info.contentLength)
  writeLayout G l m.manifestID parts.2 dek
  yieldIf (!r.allowUnconditional) l u
  let _ ← Act.mapErr precondition (ask (.complete l u parts.1 c))
  pure ()

/-- The id of a new manifest, for an object of several parts. -/
def manifestFor (multipart : Bool) : Call (Option Manifest.ID) :=
  if multipart then do
    let id ← ask .newID
    pure (some id)
  else pure none

/-- The object in clear, if it is still the version that the `HEAD` saw. -/
def readPlain : Call Bytes := do
  match ← tryAsk (.get r.loc info.etag none) with
  | .error f => if f = .preconditionFailed ∨ f.isNotFound then throw .sourceChanged else throw (.upstream f)
  | .ok got => do
      require .sourceChanged (got.1.contentLength == info.contentLength && got.1.etag == info.etag)
      pure got.2

/-- `write`: the object in clear, encrypted and published at `l`. -/
def encryptWrite (info : Info) (c : Cond) : Call Unit := do
  let partSize ← needOk (.internal "part size") (partSizeFor G r info.contentLength)
  let dek ← ask .newDEK
  let wrapped ← wrapDEK r.bucket r.key r.kid dek
  let id ← manifestFor (decide (partSize < info.contentLength))
  let m := newMeta G r.kid wrapped id
  let body ← readPlain r info
  let u ← ask (.createUpload l (mergeMetadata G.base64 info.metadata m) info.headers)
  orAbort l u (writeUpload G r l u m partSize.toNat dek body info c)

/-! ## One object -/

/-- What a failed write means with names in clear. -/
def overwriteFailed : OpErr → Encrypted
  | .sourceChanged => .again
  | .preconditionFailed => .conflicted
  | .uploadInProgress => .conflicted
  | _ => .failed

/-- What it means with names encrypted. -/
def moveFailed : OpErr → Encrypted
  | .preconditionFailed => .again
  | .sourceChanged => .again
  | _ => .failed

/-- `deletePlain`. -/
def deleteClear (verdict : Encrypted) : Call Encrypted := do
  match ← tryAsk (.delete r.loc) with
  | .error _ => pure .failed
  | .ok _ => pure verdict

/-- `attemptOne` with names in clear. -/
def encryptInPlace : Call Encrypted :=
  if r.dryRun then pure .encrypted
  else do
    match ← ((encryptWrite G r r.loc info ⟨if r.allowUnconditional then [] else info.etag, []⟩).attempt :
        Call (Except OpErr Unit)) with
    | .ok _ => pure .encrypted
    | .error e => pure (overwriteFailed e)

/-- `attemptOne` with names encrypted, once the encrypted key is known. -/
def encryptTo (stored : Bytes) (info : Info) : Call Encrypted := do
  match ← tryAsk (.head ⟨r.bucket, stored⟩) with
  | .error f =>
    if !f.isNotFound then pure .failed
    else if r.dryRun then pure .encrypted
    else do
      match ← ((encryptWrite G r ⟨r.bucket, stored⟩ info
          ⟨[], if r.allowUnconditional then [] else ascii "*"⟩).attempt : Call (Except OpErr Unit)) with
      | .error e => pure (moveFailed e)
      | .ok _ => deleteClear r .encrypted
  | .ok encInfo =>
    if judgeEncrypted G info encInfo ≠ .obsolete then pure (judgeEncrypted G info encInfo)
    else if r.dryRun then pure .obsolete
    else deleteClear r .obsolete

/-- `attemptOne`. -/
def attemptEncrypt : Call Encrypted := do
  match ← tryAsk (.head r.loc) with
  | .error f => pure (if f.isNotFound then .gone else if f = .badRequest then .unreadable else .failed)
  | .ok info =>
    match judgePlain G r info with
    | some verdict => pure verdict
    | none =>
      match r.names with
      | none => encryptInPlace G r info
      | some encryptKey =>
        match encryptKey r.key with
        | .error .tooLong => pure .tooLong
        | .error .other => pure .failed
        | .ok stored => encryptTo G r stored info

def encryptAttempts : Nat → Call Encrypted
  | 0 => pure .failed
  | n + 1 => do
      let got ← attemptEncrypt G r
      if got = .again then encryptAttempts n else pure got

def encryptOne : Call Encrypted := encryptAttempts G r maxAttempts

end BlindBucket.Cloud
