import Mathlib.Data.List.AList
import BlindBucket.ObjectMeta

/-!
# The provider

What a provider holds for the gateways that use it, and what it answers. Objects are unversioned
and a key shows one version at a time. Manifests and tag sidecars are objects too; they lie under
the reserved prefix, where no client's key is, and are kept in tables of their own.

A `PUT`, a copy and a `DELETE` are ranked when they land, an upload when it is created. A completion
that a landed write outranks is acknowledged, and the provider may keep it or discard it.
-/

namespace BlindBucket.Cloud

open BlindBucket.Stream ObjectMeta

abbrev Table (K V : Type) := AList fun _ : K => V

/-- A bucket and a key in it, as the provider knows it. -/
structure Loc where
  bucket : Bytes
  key : Bytes
deriving DecidableEq

/-- What is stored: the bytes by parts, and whether they came from an upload. The entity tag is a
function of this. -/
structure Stored where
  parts : List Bytes
  multipart : Bool
deriving DecidableEq

def Stored.bytes (s : Stored) : Bytes := s.parts.flatten

/-- The headers that are kept with an object. -/
structure Headers where
  contentType : Bytes := []
  cacheControl : Bytes := []
  contentDisposition : Bytes := []
  contentEncoding : Bytes := []
  contentLanguage : Bytes := []
deriving DecidableEq

/-- A version of an object. `extra` are headers that the provider adds to its answers. -/
structure Version where
  stored : Stored
  metadata : Metadata
  headers : Headers
  lastModified : Nat
  extra : Metadata := []
deriving DecidableEq

/-- A manifest or a tag sidecar. -/
structure Blob where
  raw : Bytes
  lastModified : Nat
deriving DecidableEq

/-- An upload that was opened and neither completed nor aborted. -/
structure Upload where
  loc : Loc
  metadata : Metadata
  headers : Headers
  parts : Table Nat Bytes

/-- The state of the provider, and what was drawn at random so far. Uploads are numbered by rank. -/
structure Bucket where
  visible : Table Loc Version
  manifests : Table (Loc × Manifest.ID) Blob
  sidecars : Table (Loc × Bytes) Blob
  uploads : Table Nat Upload
  /-- The writes that landed, the last one first: their ranks, and what they left visible. Only the
  ranks are ever read. -/
  landed : List (Loc × Nat × Option Version)
  clock : Nat
  now : Nat
  /-- The manifests that uploads were opened with. This is history: nothing reads it. -/
  named : List Manifest.ID
  ids : List Manifest.ID
  deks : List Bytes
  salts : List Salt
  wraps : List Bytes

/-! ## Requests and answers -/

/-- `upstream.APIError`, by what the callers test for. -/
inductive Fault where
  | notFound
  | noSuchUpload
  | preconditionFailed
  | badRequest
  | other
deriving DecidableEq

/-- `upstream.NotFound`: an upload that is gone is a 404 too. -/
def Fault.isNotFound (f : Fault) : Bool := f == .notFound || f == .noSuchUpload

/-- The conditions of a write; empty if there is none. -/
structure Cond where
  ifMatch : Bytes := []
  ifNoneMatch : Bytes := []
deriving DecidableEq

/-- What a `HEAD` answers. -/
structure Info where
  etag : Bytes
  metadata : Metadata
  headers : Headers
  lastModified : Nat
  contentLength : Nat
  extra : Metadata
deriving DecidableEq

/-- `upload.Token`, with the object that it is sealed for. -/
structure Token where
  bucket : Bytes
  key : Bytes
  kid : Bytes
  uploadID : Nat
  wrappedDEK : Bytes
  manifestID : Manifest.ID
deriving DecidableEq

/-- What a part tag seals, with the key id and the part number that it is bound to. -/
structure PartTag where
  kid : Bytes
  number : Nat
  etag : Bytes
  salt : Salt
deriving DecidableEq

/-- What a gateway hands to a client that the client can hand back. -/
inductive Reply where
  | token (t : Token)
  | part (t : PartTag)
deriving DecidableEq

/-- A request to the provider, to the random source, to the key provider, or an answer to a client. -/
inductive Req where
  | head (l : Loc)
  | get (l : Loc) (ifMatch : Bytes) (range : Option (Nat × Nat))
  | put (l : Loc) (body : Bytes) (md : Metadata) (hd : Headers) (c : Cond)
  | copy (src dst : Loc) (md : Metadata) (hd : Headers) (ifMatch : Bytes)
  | delete (l : Loc)
  | createUpload (l : Loc) (md : Metadata) (hd : Headers)
  | uploadPart (l : Loc) (u n : Nat) (body : Bytes)
  | uploadPartCopy (src dst : Loc) (u n : Nat) (range : Option (Nat × Nat)) (ifMatch : Bytes)
  | listParts (l : Loc) (u : Nat)
  | listUploads (l : Loc)
  | complete (l : Loc) (u : Nat) (parts : List (Nat × Bytes)) (c : Cond)
  | abort (l : Loc) (u : Nat)
  | putManifest (l : Loc) (id : Manifest.ID) (raw : Bytes)
  | getManifest (l : Loc) (id : Manifest.ID)
  | deleteManifest (l : Loc) (id : Manifest.ID)
  | listManifests (bucket : Bytes)
  | putSidecar (l : Loc) (dek raw : Bytes)
  | getSidecar (l : Loc) (dek : Bytes)
  | headSidecar (l : Loc) (dek : Bytes)
  | deleteSidecar (l : Loc) (dek : Bytes)
  | listSidecars (bucket : Bytes)
  | now
  | newID
  | newDEK
  | newSalt
  | wrap (kid dek aad : Bytes)
  | reply (r : Reply)

/-- What a request answers when it succeeds. -/
@[reducible] def Req.Result : Req → Type
  | .head _ => Info
  | .get .. => Info × Bytes
  | .put .. | .copy .. => Bytes
  | .createUpload .. => Nat
  | .uploadPart .. | .uploadPartCopy .. => Bytes
  | .listParts .. => List (Nat × Bytes × Nat)
  | .listUploads _ => List Nat
  | .complete .. => Bytes
  | .getManifest .. | .getSidecar .. => Bytes
  | .headSidecar .. => Metadata
  | .listManifests _ => List (Loc × Manifest.ID × Nat)
  | .listSidecars _ => List (Loc × Bytes × Nat)
  | .now => Nat
  | .newID => Manifest.ID
  | .newDEK => Bytes
  | .newSalt => Salt
  | .wrap .. => Bytes
  | .delete _ | .abort .. | .putManifest .. | .deleteManifest .. | .putSidecar ..
  | .deleteSidecar .. | .reply _ => Unit

@[reducible] def Answer (q : Req) : Type := Except Fault q.Result

/-! ## The provider -/

/-- `tags.KeyMetadata`. -/
def keyMetadata : Bytes := GoText.ascii "bb-key"

/-- `tags.Metadata`: what every sidecar of the object at a stored key is written with. -/
def sidecarMetadata (storedKey : Bytes) : Metadata := [(keyMetadata, rawURL.encode storedKey)]

/-- `keys.KeyProvider`, with the nonce of a wrap as an argument. -/
structure KeyProvider where
  wrap : (kid dek aad nonce : Bytes) → Option Bytes
  unwrap : (kid wrapped aad : Bytes) → Option Bytes
  unwrap_wrap : ∀ kid dek aad nonce w, wrap kid dek aad nonce = some w → unwrap kid w aad = some dek

/-- A provider: how it names what it stores, and what it may do to a request. -/
structure Backend where
  etag : Stored → Bytes
  etag_ne : ∀ s, etag s ≠ []
  partETag : Bytes → Bytes
  keys : KeyProvider
  /-- It may discard a completion that is outranked. -/
  discards : Bool
  /-- A request may fail, having had its effect or not. -/
  faults : Bool

/-- What a step leaves open: the bytes drawn at random, whether an outranked completion is discarded,
and how much time passes. -/
structure Choice where
  random : Bytes := []
  discard : Bool := false
  elapsed : Nat := 0

namespace Bucket

variable (P : Backend) (s : Bucket)

variable (l : Loc) (u : Nat) (v : Version)

def infoOf : Info :=
  ⟨P.etag v.stored, v.metadata, v.headers, v.lastModified, v.stored.bytes.length, v.extra⟩

/-- The bytes that a range asks for. -/
def slice (b : Bytes) : Option (Nat × Nat) → Bytes
  | none => b
  | some (first, last) => b.extract first (last + 1)

/-- The version at `l`, if its entity tag is the one asked for. -/
def source (ifMatch : Bytes) : Except Fault Version :=
  match s.visible.lookup l with
  | none => .error .notFound
  | some v => if ifMatch ≠ [] ∧ ifMatch ≠ P.etag v.stored then .error .preconditionFailed else .ok v

/-- The conditions of a write at `l`. -/
def admits (c : Cond) : Except Fault Unit :=
  match s.visible.lookup l with
  | none => if c.ifMatch ≠ [] then .error .notFound else .ok ()
  | some v =>
    if c.ifNoneMatch ≠ [] then .error .preconditionFailed
    else if c.ifMatch ≠ [] ∧ c.ifMatch ≠ P.etag v.stored then .error .preconditionFailed
    else .ok ()

/-- The upload `u`, if it is one of `l`. -/
def uploadAt : Option Upload :=
  match s.uploads.lookup u with
  | some up => if up.loc = l then some up else none
  | none => none

/-- The parts that a completion lists, if the upload has them, in rising order. -/
def assemble (up : Upload) : Nat → List (Nat × Bytes) → Option (List Bytes)
  | _, [] => some []
  | previous, (n, e) :: rest =>
    match up.parts.lookup n with
    | none => none
    | some b =>
      if previous < n ∧ e = P.partETag b then (assemble up n rest).map (b :: ·) else none

def outranked : Bool := s.landed.any fun q => q.1 = l ∧ u < q.2.1

/-! ## What a request does -/

/-- A version becomes visible; its rank is the present. -/
def write : Bucket :=
  { s with
    visible := s.visible.insert l v
    landed := (l, s.clock, some v) :: s.landed
    clock := s.clock + 1 }

def remove : Bucket :=
  { s with
    visible := s.visible.erase l
    landed := (l, s.clock, none) :: s.landed
    clock := s.clock + 1 }

def openUpload (E : Base64) (l : Loc) (md : Metadata) (hd : Headers) : Bucket :=
  { s with
    uploads := s.uploads.insert s.clock ⟨l, md, hd, ∅⟩
    named := (namedManifest E md).toList ++ s.named
    clock := s.clock + 1 }

def fill (u n : Nat) (up : Upload) (b : Bytes) : Bucket :=
  { s with uploads := s.uploads.insert u { up with parts := up.parts.insert n b } }

/-- A completion that is kept; its rank is that of the upload. -/
def finish : Bucket :=
  { s with
    visible := s.visible.insert l v
    landed := (l, u, some v) :: s.landed
    uploads := s.uploads.erase u }

def close : Bucket := { s with uploads := s.uploads.erase u }

def keepManifest (id : Manifest.ID) (raw : Bytes) : Bucket :=
  { s with manifests := s.manifests.insert (l, id) ⟨raw, s.now⟩ }

def dropManifest (id : Manifest.ID) : Bucket :=
  { s with manifests := s.manifests.erase (l, id) }

def keepSidecar (dek raw : Bytes) : Bucket :=
  { s with sidecars := s.sidecars.insert (l, dek) ⟨raw, s.now⟩ }

def dropSidecar (dek : Bytes) : Bucket :=
  { s with sidecars := s.sidecars.erase (l, dek) }

/-- The version that a completion makes. -/
def completed (up : Upload) (parts : List Bytes) : Version :=
  ⟨⟨parts, true⟩, up.metadata, up.headers, s.now, []⟩

/-- A random value is drawn: never one that was drawn before. -/
def draw {α : Type} [DecidableEq α] (x : Option α) (drawn : List α) (f : α → Bucket) : Except Fault α × Bucket :=
  match x with
  | none => (.error .other, s)
  | some a => if a ∈ drawn then (.error .other, s) else (.ok a, f a)

/-- The random bytes as a value of a fixed size. -/
def sized (n : Nat) (b : Bytes) : Option { b : Bytes // b.length = n } :=
  if h : b.length = n then some ⟨b, h⟩ else none

def completeUpload (ch : Choice) (l : Loc) (u : Nat) (parts : List (Nat × Bytes)) (c : Cond) :
    Except Fault Bytes × Bucket :=
  match s.uploadAt l u with
  | none => (.error .noSuchUpload, s)
  | some up =>
    match assemble P up 0 parts, s.admits P l c with
    | none, _ => (.error .badRequest, s)
    | _, .error f => (.error f, s)
    | some bs, .ok () =>
      let v := s.completed up bs
      if s.outranked l u ∧ P.discards ∧ ch.discard then (.ok (P.etag v.stored), s.close u)
      else (.ok (P.etag v.stored), s.finish l u v)

/-- The bytes of a part, put into an open upload. -/
def fillPart (u n : Nat) (b : Bytes) : Except Fault Bytes × Bucket :=
  match s.uploadAt l u with
  | none => (.error .noSuchUpload, s)
  | some up => (.ok (P.partETag b), s.fill u n up b)

/-- What a request answers and does, if nothing fails. -/
def perform (E : Base64) (ch : Choice) : (q : Req) → Answer q × Bucket
  | .head l =>
    match s.visible.lookup l with
    | none => (.error .notFound, s)
    | some v => (.ok (infoOf P v), s)
  | .get l ifMatch range =>
    match s.source P l ifMatch with
    | .error f => (.error f, s)
    | .ok v => (.ok (infoOf P v, slice v.stored.bytes range), s)
  | .put l body md hd c =>
    match s.admits P l c with
    | .error f => (.error f, s)
    | .ok () => (.ok (P.etag ⟨[body], false⟩), s.write l ⟨⟨[body], false⟩, md, hd, s.now, []⟩)
  | .copy src dst md hd ifMatch =>
    match s.source P src ifMatch with
    | .error f => (.error f, s)
    | .ok v =>
      (.ok (P.etag ⟨[v.stored.bytes], false⟩),
        s.write dst ⟨⟨[v.stored.bytes], false⟩, md, hd, s.now, []⟩)
  | .delete l => (.ok (), s.remove l)
  | .createUpload l md hd => (.ok s.clock, s.openUpload E l md hd)
  | .uploadPart l u n b => s.fillPart P l u n b
  | .uploadPartCopy src dst u n range ifMatch =>
    match s.source P src ifMatch with
    | .error f => (.error f, s)
    | .ok v => s.fillPart P dst u n (slice v.stored.bytes range)
  | .listParts l u =>
    match s.uploadAt l u with
    | none => (.error .noSuchUpload, s)
    | some up => (.ok (up.parts.entries.map fun q => (q.1, P.partETag q.2, q.2.length)), s)
  | .listUploads l =>
    (.ok ((s.uploads.entries.filter fun q => q.2.loc = l).map (·.1)), s)
  | .complete l u parts c => s.completeUpload P ch l u parts c
  | .abort l u =>
    match s.uploadAt l u with
    | none => (.error .noSuchUpload, s)
    | some _ => (.ok (), s.close u)
  | .putManifest l id raw => (.ok (), s.keepManifest l id raw)
  | .getManifest l id =>
    match s.manifests.lookup (l, id) with
    | none => (.error .notFound, s)
    | some b => (.ok b.raw, s)
  | .deleteManifest l id => (.ok (), s.dropManifest l id)
  | .listManifests bucket =>
    (.ok ((s.manifests.entries.filter fun q => q.1.1.bucket = bucket).map
      fun q => (q.1.1, q.1.2, q.2.lastModified)), s)
  | .putSidecar l dek raw => (.ok (), s.keepSidecar l dek raw)
  | .getSidecar l dek =>
    match s.sidecars.lookup (l, dek) with
    | none => (.error .notFound, s)
    | some b => (.ok b.raw, s)
  | .headSidecar l dek =>
    match s.sidecars.lookup (l, dek) with
    | none => (.error .notFound, s)
    | some _ => (.ok (sidecarMetadata l.key), s)
  | .deleteSidecar l dek => (.ok (), s.dropSidecar l dek)
  | .listSidecars bucket =>
    (.ok ((s.sidecars.entries.filter fun q => q.1.1.bucket = bucket).map
      fun q => (q.1.1, q.1.2, q.2.lastModified)), s)
  | .now => (.ok s.now, s)
  | .newID => s.draw (sized Manifest.idSize ch.random) s.ids fun id => { s with ids := id :: s.ids }
  | .newDEK =>
    s.draw (if ch.random.length = keySize then some ch.random else none) s.deks
      fun dek => { s with deks := dek :: s.deks }
  | .newSalt => s.draw (sized saltSize ch.random) s.salts fun salt => { s with salts := salt :: s.salts }
  | .wrap kid dek aad =>
    s.draw (P.keys.wrap kid dek aad ch.random) s.wraps fun w => { s with wraps := w :: s.wraps }
  | .reply _ => (.ok (), s)

def serve (E : Base64) (q : Req) (a : Answer q) (s' : Bucket) : Prop :=
  ∃ ch, s.perform P E ch q = (a, s')
    ∨ P.faults = true ∧ a = .error .other ∧ (s' = s ∨ s' = (s.perform P E ch q).2)

/-- What the provider does on its own: it aborts an upload, or time passes. -/
inductive Drift (s : Bucket) : Bucket → Prop where
  | abort (u : Nat) : Drift s (s.close u)
  | tick (t : Nat) (h : s.now ≤ t) : Drift s { s with now := t }

end Bucket

end BlindBucket.Cloud
