import BlindBucket.Cloud.Site

/-!
# Requests of clients

`PutObject`, `DeleteObject` and the multipart requests, as the gateway serves them: the requests
they make to the provider, in their order. What the body of a client's request goes through before
it is sealed is left out here, as are metrics, logs and the rollback index.
-/

namespace BlindBucket.Cloud

open BlindBucket.Stream ObjectMeta Service

variable (G : Site)

/-! ## Single objects -/

/-- A `PUT` of a client. -/
structure PutRequest where
  bucket : Bytes
  key : Bytes
  body : Bytes
  metadata : Metadata
  headers : Headers
  cond : Cond
  tags : List Tag

def putObject (r : PutRequest) : Call Unit := do
  let md ← clientMetadata r.metadata
  let l ← storedLoc G r.bucket r.key
  let kid ← need (.internal "bucket keys") (G.activeKID r.bucket)
  let dek ← ask .newDEK
  let wrapped ← wrapDEK r.bucket r.key kid dek
  let m := newMeta G kid wrapped none
  writeTagsBeforeObject G l r.bucket r.key m dek r.tags
  let sealed ← sealSegment G dek ⟨G.log2C, false, 0⟩ r.body
  let _ ← ask (.put l sealed.2 (mergeMetadata G.base64 md m) r.headers r.cond)
  pure ()

/-- The manifest of the version that is visible, as far as can be told. -/
def observedManifest (l : Loc) : Call (Option Manifest.ID) := do
  pure (match ← tryAsk (.head l) with
    | .error _ => none
    | .ok info => (G.parse info.metadata).toOption.bind Meta.manifestID)

/-- The object has stopped using the manifest that was observed. -/
def replacedSince (l : Loc) (observed : Manifest.ID) : Call Bool := do
  pure (match ← tryAsk (.head l) with
    | .error f => f.isNotFound
    | .ok info => (G.parse info.metadata).toOption.any fun m => m.manifestID != some observed)

def deleteObject (bucket key : Bytes) : Call Unit := do
  let l ← storedLoc G bucket key
  let observed ← observedManifest G l
  ask (.delete l)
  match observed with
  | none => pure ()
  | some id => bestEffort (.deleteManifest l id)

/-! ## Uploads -/

/-- A `CreateMultipartUpload` of a client. -/
structure CreateRequest where
  bucket : Bytes
  key : Bytes
  metadata : Metadata
  headers : Headers
  tags : List Tag

/-- `createMultipartUpload`. Sealing the token does not fail here. -/
def createMultipartUpload (r : CreateRequest) : Call Unit := do
  let md ← clientMetadata r.metadata
  let l ← storedLoc G r.bucket r.key
  let kid ← need (.internal "bucket keys") (G.activeKID r.bucket)
  let dek ← ask .newDEK
  let wrapped ← wrapDEK r.bucket r.key kid dek
  let id ← ask .newID
  let m := newMeta G kid wrapped (some id)
  writeTagsBeforeObject G l r.bucket r.key m dek r.tags
  let u ← ask (.createUpload l (mergeMetadata G.base64 md m) r.headers)
  ask (.reply (.token ⟨r.bucket, r.key, kid, u, wrapped, id⟩))

/-- An `UploadPart` of a client, with the token it presents. -/
structure PartRequest where
  token : Token
  number : Nat
  body : Bytes

def uploadPart (r : PartRequest) : Call Unit := do
  let l ← storedLoc G r.token.bucket r.token.key
  let dek ← unwrapDEK G r.token.bucket r.token.key r.token.kid r.token.wrappedDEK
  require (.invalid "the last part is empty") (r.body.length != 0)
  let sealedLen ← needOk (.invalid "part cannot be stored") (sealedSize r.body.length G.log2C)
  require (.invalid "part exceeds the maximum part size") (decide (sealedLen ≤ Manifest.maxPartCiphertext))
  let sealed ← sealSegment G dek ⟨G.log2C, true, r.number⟩ r.body
  let etag ← ask (.uploadPart l r.token.uploadID r.number sealed.2)
  ask (.reply (.part ⟨r.token.kid, r.number, etag, sealed.1⟩))

/-- An `ETag` that a client names a part by: a tag of the gateway's, or anything else. -/
inductive ClientTag where
  | sealed (t : PartTag)
  | garbled
deriving DecidableEq

/-- The salt, if the tag was sealed under this key id for this part number. -/
def openPartTag (kid : Bytes) (n : Nat) : ClientTag → Option Salt
  | .sealed t => if t.kid = kid ∧ t.number = n then some t.salt else none
  | .garbled => none

/-- The part that the provider lists under a number; a later entry replaces an earlier one. -/
def storedPart (stored : List (Nat × Bytes × Nat)) (n : Nat) : Option (Bytes × Nat) :=
  (stored.reverse.find? fun q => q.1 = n).map (·.2)

/-- The part with its salt, and the entity tag that the provider gave it. -/
def matchParts (kid : Bytes) (stored : List (Nat × Bytes × Nat)) :
    (previous : Nat) → List (Nat × ClientTag) → Except OpErr (List (Manifest.UploadedPart × Bytes))
  | _, [] => .ok []
  | previous, (n, tag) :: rest =>
    if n ≤ previous then .error (.invalid "part order")
    else
      match storedPart stored n with
      | none => .error (.invalid "part was never uploaded for this upload id")
      | some (etag, size) =>
        match openPartTag kid n tag with
        | none => .error (.invalid "the ETag is not the one this gateway issued")
        | some salt => do
            let out ← matchParts kid stored n rest
            .ok ((⟨n, size, salt⟩, etag) :: out)

def writeManifest (l : Loc) (m : Manifest) (dek : Bytes) : Call Unit := do
  let raw ← needOk (.internal "building the manifest") (m.marshal G.crypto G.hmac dek)
  ask (.putManifest l m.id raw)

/-- A `CompleteMultipartUpload` of a client. -/
structure CompleteRequest where
  token : Token
  parts : List (Nat × ClientTag)
  cond : Cond

/-- Step 5 of `completeMultipartUpload`: the manifest of the version that was replaced. -/
def dropReplaced (l : Loc) (own : Manifest.ID) : Option Manifest.ID → Call Unit
  | none => pure ()
  | some observed =>
    if observed = own then pure ()
    else do
      let gone ← replacedSince G l observed
      if gone then bestEffort (.deleteManifest l observed) else pure ()

def completeMultipartUpload (r : CompleteRequest) : Call Unit := do
  let l ← storedLoc G r.token.bucket r.token.key
  let dek ← unwrapDEK G r.token.bucket r.token.key r.token.kid r.token.wrappedDEK
  require (.invalid "the completion names no parts") (r.parts.length != 0)
  require (.invalid "the completion names too many parts") (decide (r.parts.length ≤ maxParts))
  let stored ← ask (.listParts l r.token.uploadID)
  let matched ← needOk (.invalid "parts") (matchParts r.token.kid stored 0 r.parts)
  let parts ← needOk (.invalid "parts") (Manifest.partsFromUpstream (matched.map (·.1)) G.log2C)
  let observed ← observedManifest G l
  writeManifest G l ⟨l.bucket, l.key, r.token.manifestID, parts, false⟩ dek
  let _ ← ask (.complete l r.token.uploadID (matched.map fun q => (q.1.number, q.2)) r.cond)
  dropReplaced G l r.token.manifestID observed

def abortMultipartUpload (t : Token) : Call Unit := do
  let l ← storedLoc G t.bucket t.key
  ask (.abort l t.uploadID)

end BlindBucket.Cloud
