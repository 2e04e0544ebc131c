import BlindBucket.Cloud.Objects

/-!
# Copies inside the provider

`objcopy` republishes an object under a freshly wrapped data key without moving its bytes. A client's
`CopyObject`, the rotation of keys and the migration of names all go through it.
-/

namespace BlindBucket.Cloud

open BlindBucket.Stream ObjectMeta Service

/-- The object that is copied, as a `HEAD` showed it. `key` is the name a client uses. -/
structure Source where
  bucket : Bytes
  key : Bytes
  storedKey : Bytes
  info : Info
  info_meta : Meta

structure Dest where
  bucket : Bytes
  key : Bytes
  storedKey : Bytes
  keyID : Bytes
  userMetadata : Metadata
  headers : Headers

def Source.loc (src : Source) : Loc := ⟨src.bucket, src.storedKey⟩
def Dest.loc (dst : Dest) : Loc := ⟨dst.bucket, dst.storedKey⟩

/-- What a copy does with tags: it carries those of the source, or sets others. -/
inductive TagMode where
  | carry
  | replace (set : List Tag)

/-- `objcopy.Request`. -/
structure CopyRequest where
  source : Source
  dest : Dest
  sourceIfMatch : Bytes
  destIfMatch : Bytes := []
  destIfNoneMatch : Bytes := []
  replacedManifest : Option Manifest.ID := none
  yieldToUploads : Bool := false
  tagMode : TagMode := .carry

def smallObject : Nat := 5 * 2 ^ 20

def maxManifestBytes : Nat := 2 ^ 20

variable (G : Site) (r : CopyRequest) (next : Meta) (dek : Bytes) (src : Source)

/-- The metadata with the data key wrapped for the destination, and the data key. -/
def rewrap : Call (Meta × Bytes) := do
  let dek ← unwrapDEK G r.source.bucket r.source.key r.source.info_meta.keyID r.source.info_meta.wrappedDEK
  let wrapped ← wrapDEK r.dest.bucket r.dest.key r.dest.keyID dek
  pure ({ r.source.info_meta with keyID := r.dest.keyID, wrappedDEK := wrapped }, dek)

/-! ## Tags -/

def sourceTags (dek : Bytes) : Call (List Tag) :=
  if storedDEK src.info.metadata = [] then pure []
  else do
    match ← tryAsk (.getSidecar src.loc (storedDEK src.info.metadata)) with
    | .error f => if f.isNotFound then pure [] else throw (.upstream f)
    | .ok raw => need .tagSidecar (G.tags.openTags dek src.bucket src.key raw)

/-- The tags that the destination gets. -/
def copiedTags : Call (List Tag) :=
  match r.tagMode with
  | .carry => sourceTags G r.source dek
  | .replace set => pure set

def writeTags : Call Unit := do
  let set ← copiedTags G r dek
  writeTagsBeforeObject G r.dest.loc r.dest.bucket r.dest.key next dek set

/-! ## The manifest of the source -/

/-- The salts of parts that were recorded without, from offset `offset` on. -/
def fillSaltsFromHeaders (src : Source) : (offset : Int) → List Part → Call (List Part)
  | _, [] => pure []
  | offset, p :: ps => do
      let sealed ← needOk (.internal "part has an impossible size")
        (sealedSize p.plainSize src.info_meta.log2ChunkSize)
      let got ← ask (.get src.loc src.info.etag
        (some (offset.toNat, (offset + headerSize - 1).toNat)))
      require (.internal "reading the header of a part") (decide (headerSize ≤ got.2.length))
      let salt ← need (.internal "the header of a part is short") (saltFromHeader (got.2.take headerSize))
      let rest ← fillSaltsFromHeaders src (offset + sealed) ps
      pure ({ p with salt := salt } :: rest)

def loadParts (id : Manifest.ID) (dek : Bytes) : Call (List Part) := do
  let raw ← ask (.getManifest src.loc id)
  require (.internal "manifest exceeds the limit") (decide (raw.length ≤ maxManifestBytes))
  let m ← needOk (.internal "manifest")
    (Manifest.unmarshal G.crypto G.hmac raw dek src.bucket src.storedKey id)
  if m.hasSalts then pure m.parts else fillSaltsFromHeaders src 0 m.parts

/-! ## The copy -/

/-- The loop of `copyParts`: part by part, from offset `offset` on. -/
def copyEach (r : CopyRequest) (u : Nat) : (offset : Int) → List Part → Call (List (Nat × Bytes))
  | _, [] => pure []
  | offset, p :: ps => do
      let sealed ← needOk (.internal "part has an impossible size")
        (sealedSize p.plainSize r.source.info_meta.log2ChunkSize)
      let etag ← ask (.uploadPartCopy r.source.loc r.dest.loc u p.number
        (some (offset.toNat, (offset + sealed - 1).toNat)) r.sourceIfMatch)
      let rest ← copyEach r u (offset + sealed) ps
      pure ((p.number, etag) :: rest)

/-- A single-part object is copied whole as part 1. -/
def copyParts (u : Nat) : Option (List Part) → Call (List (Nat × Bytes))
  | none => do
      let etag ← ask (.uploadPartCopy r.source.loc r.dest.loc u 1 none r.sourceIfMatch)
      pure [(1, etag)]
  | some layout => copyEach r u 0 layout

def copyWhole : Call Meta := do
  match ← tryAsk (.copy r.source.loc r.dest.loc
      (mergeMetadata G.base64 (userMetadataOf r.dest.userMetadata) next) r.dest.headers r.sourceIfMatch) with
  | .error .preconditionFailed => throw .preconditionFailed
  | .error f => throw (.upstream f)
  | .ok _ => pure next

/-- A 412 of the provider is the copy's own error. -/
def precondition (e : OpErr) : OpErr :=
  if e = .upstream .preconditionFailed then .preconditionFailed else e

/-- Rule R2: the manifest exists before the object that names it. -/
def writeNextManifest : Option (List Part) → Call Unit
  | none => pure ()
  | some parts =>
    match next.manifestID with
    | none => pure ()
    | some id => writeManifest G r.dest.loc ⟨r.dest.bucket, r.dest.storedKey, id, parts, false⟩ dek

/-- The check for other uploads of the destination. -/
def yieldToOthers (l : Loc) (u : Nat) : Call Unit := do
  let others ← ask (.listUploads l)
  require .uploadInProgress (others.all fun x => x == u)

/-- The same, where a copy asks for it. -/
def yieldIf (asked : Bool) (l : Loc) (u : Nat) : Call Unit :=
  if asked then yieldToOthers l u else pure ()

/-- The part of `publish` that is followed by an abort if it fails. -/
def publishUpload (layout : Option (List Part))
    (u : Nat) : Call Unit := do
  let completed ← Act.mapErr precondition (copyParts r u layout)
  writeNextManifest G r next dek layout
  yieldIf r.yieldToUploads r.dest.loc u
  let _ ← Act.mapErr precondition
    (ask (.complete r.dest.loc u completed ⟨r.destIfMatch, r.destIfNoneMatch⟩))
  pure ()

/-- A program whose upload is aborted if it fails. -/
def orAbort (l : Loc) (u : Nat) (p : Call Unit) : Call Unit := do
  match ← (p.attempt : Call (Except OpErr Unit)) with
  | .ok () => pure ()
  | .error e => do
      bestEffort (.abort l u)
      throw e

/-- Rule R3: the manifest of the version that was replaced. -/
def dropOld (l : Loc) (next : Meta) : Option Manifest.ID → Call Unit
  | none => pure ()
  | some id => if some id = next.manifestID then pure () else bestEffort (.deleteManifest l id)

/-- Rule R1: a new version gets a manifest of its own. -/
def nextVersion : Call (Meta × Option (List Part)) :=
  match r.source.info_meta.manifestID with
  | none => pure (next, none)
  | some id => do
      let parts ← loadParts G r.source id dek
      let newId ← ask .newID
      pure ({ next with manifestID := some newId }, some parts)

def publish : Call Meta := do
  writeTags G r next dek
  if r.source.info_meta.multipart = false ∧ r.destIfMatch = [] ∧ r.destIfNoneMatch = []
      ∧ r.source.info.contentLength < smallObject then
    copyWhole G r next
  else do
    let version ← nextVersion G r next dek
    let u ← ask (.createUpload r.dest.loc
      (mergeMetadata G.base64 (userMetadataOf r.dest.userMetadata) version.1) r.dest.headers)
    orAbort r.dest.loc u (publishUpload G r version.1 dek version.2 u)
    dropOld r.dest.loc version.1 r.replacedManifest
    pure version.1

/-- `objcopy.Do`: the metadata that the destination was written with. -/
def copyDo : Call Meta := do
  require (.internal "objcopy: the source needs both Key and StoredKey")
    (r.source.key != [] && r.source.storedKey != [])
  require (.internal "objcopy: the destination needs both Key and StoredKey")
    (r.dest.key != [] && r.dest.storedKey != [])
  let _ ← needOk (.invalid "objcopy: destination key id") (validateKID r.dest.keyID)
  let wrapped ← rewrap G r
  publish G r wrapped.1 wrapped.2

/-! ## `CopyObject` -/

/-- A `CopyObject` of a client. `conditions` are its `x-amz-copy-source-if-*` headers, and `replaced`
the metadata and headers that it gives under the directive `REPLACE`. -/
structure CopyObjectRequest where
  srcBucket : Bytes
  srcKey : Bytes
  bucket : Bytes
  key : Bytes
  conditions : Info → Bool
  replaced : Option (Metadata × Headers)
  cond : Cond
  tagMode : TagMode

def CopyObjectRequest.sameObject (r : CopyObjectRequest) : Bool :=
  r.srcBucket == r.bucket && r.srcKey == r.key

/-- The metadata and headers that a copy gives its destination. -/
def copiedMetadata (r : CopyObjectRequest) (info : Info) : Call (Metadata × Headers) :=
  match r.replaced with
  | some (md, hd) => do
      let md ← clientMetadata md
      pure (md, hd)
  | none => pure (userMetadataOf info.metadata, info.headers)

def copyObject (r : CopyObjectRequest) : Call Meta := do
  require (.invalid "the copy source and destination are the same object")
    (!(r.sameObject && r.replaced.isNone))
  let src ← storedLoc G r.srcBucket r.srcKey
  let dst ← storedLoc G r.bucket r.key
  let info ← ask (.head src)
  require .preconditionFailed (r.conditions info)
  let m ← parseMeta G info.metadata
  let kid ← need (.internal "bucket keys") (G.activeKID r.bucket)
  let given ← copiedMetadata r info
  copyDo G
    { source := ⟨r.srcBucket, r.srcKey, src.key, info, m⟩
      dest := ⟨r.bucket, r.key, dst.key, kid, given.1, given.2⟩
      sourceIfMatch := info.etag
      destIfMatch := r.cond.ifMatch
      destIfNoneMatch := r.cond.ifNoneMatch
      replacedManifest := if r.sameObject then m.manifestID else none
      tagMode := r.tagMode }

/-! ## Rotation -/

/-- What a rotation of one object is given: its name, where it is stored, and the key id that it is
to be wrapped under. -/
structure RotateRequest where
  bucket : Bytes
  identity : Bytes
  stored : Bytes
  targetKID : Bytes
  allowUnconditional : Bool
  dryRun : Bool

inductive Rotated where
  | rotated
  | foreign
  | alreadyCurrent
  | conflicted
  | failed
deriving DecidableEq

def writeBack (r : RotateRequest) (info : Info) (m : Meta) : Call Meta :=
  copyDo G
    { source := ⟨r.bucket, r.identity, r.stored, info, m⟩
      dest := ⟨r.bucket, r.identity, r.stored, r.targetKID, userMetadataOf info.metadata, info.headers⟩
      sourceIfMatch := info.etag
      destIfMatch := if r.allowUnconditional then [] else info.etag
      replacedManifest := m.manifestID
      yieldToUploads := true }

/-- How `rotateOne` counts what `writeBack` reported. -/
def rotatedAs : Except OpErr Meta → Rotated
  | .ok _ => .rotated
  | .error .preconditionFailed => .conflicted
  | .error .uploadInProgress => .conflicted
  | .error _ => .failed

def rotateOne (r : RotateRequest) : Call Rotated := do
  match ← tryAsk (.head ⟨r.bucket, r.stored⟩) with
  | .error _ => pure .failed
  | .ok info =>
    match G.parse info.metadata with
    | .error e => pure (if isSentinel .notEncrypted e then .foreign else .failed)
    | .ok m =>
      if m.keyID = r.targetKID then pure .alreadyCurrent
      else if r.dryRun then pure .rotated
      else do
        let res ← ((writeBack G r info m).attempt : Call (Except OpErr Meta))
        pure (rotatedAs res)

end BlindBucket.Cloud
