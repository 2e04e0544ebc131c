import BlindBucket.ObjectMeta
import BlindBucket.Proxy.MultipartGet

/-!
# Range requests

`getObjectRange` answers a `GET` with a `Range` header, and `openSourceRange` reads a
range of a source object for `UploadPartCopy`. Both ask the provider for the size and
the metadata of the object first, decide from these which chunks to fetch, and open the
chunks with the geometry of the authenticated segment header.
-/

namespace BlindBucket

open ByteIo BlindBucket.Stream GoText

inductive UpErr where
  | notFound
  | other (code : Nat)
deriving DecidableEq, Repr

/-- `*s3api.Error`, by the error of the package it is derived from. -/
inductive ApiError where
  | notEncrypted
  | integrity (kind : String)
  | invalidRange (msg : Msg)
  | notImplemented (msg : Msg)
  | invalidRequest (msg : Msg)
  | invalidArgument (msg : Msg)
  | accessDenied (msg : Msg)
  | entityTooLarge (msg : Msg)
  | internal (msg : Msg)
  /-- The translation of a provider's answer. -/
  | upstream (e : UpErr)
  /-- An answer of the key provider, the name cipher or the rollback index. -/
  | other (code : Nat)
deriving DecidableEq, Repr

/-- The gateway: its configuration, and what it rests on. -/
structure Gateway where
  crypto : Crypto
  hmac : Hmac
  /-- `base64.RawURLEncoding.DecodeString`. -/
  base64 : Bytes → Option Bytes
  log2C : Nat
  /-- The name an object is stored under. -/
  storedKey : (bucket key : Bytes) → Except ApiError Bytes
  /-- The key provider, asked for the data key that the metadata carries. -/
  unwrapDEK : (bucket key : Bytes) → Meta → Except ApiError Bytes
  /-- The rollback index, asked about the salts an object begins with. -/
  checkFreshness : (bucket key : Bytes) → List Salt → Except ApiError Unit

structure ObjectInfo where
  metadata : ObjectMeta.Metadata
  contentLength : Int
  etag : Bytes

/-- The provider, as one request of a client meets it. -/
structure Upstream (σ : Type) where
  headObject : (bucket key : Bytes) → Except UpErr ObjectInfo
  getObject : (bucket key : Bytes) → (range : Int × Int) → (ifMatch : Bytes) →
    Except UpErr σ
  /-- The body of a manifest, and the error that cut it short if there was one. -/
  manifest : (bucket key : Bytes) → Manifest.ID → Except UpErr (Bytes × Option Error)

/-! ## The range header -/

def parseSuffix (last : Bytes) (size : Int) : Except ApiError (Int × Int) :=
  match parseInt last with
  | none => .error (.invalidRange ⟨"suffix length %q is not a positive number", [.bytes last]⟩)
  | some n =>
    if n ≤ 0 then
      .error (.invalidRange ⟨"suffix length %q is not a positive number", [.bytes last]⟩)
    else
      let n := if size < n then size else n
      .ok (size - n, size - 1)

/-- The message of `s3api.ErrInvalidRange`. -/
def errInvalidRange : ApiError := .invalidRange ⟨"The requested range is not satisfiable.", []⟩

def parseFrom (first : Bytes) (size : Int) : Except ApiError (Int × Int) :=
  match parseInt first with
  | none => .error (.invalidRange ⟨"offset %q is not a number", [.bytes first]⟩)
  | some start =>
    if start < 0 then .error (.invalidRange ⟨"offset %q is not a number", [.bytes first]⟩)
    else if size ≤ start then .error errInvalidRange
    else .ok (start, size - 1)

def parseBoth (spec first last : Bytes) (size : Int) : Except ApiError (Int × Int) :=
  match parseInt first, parseInt last with
  | some start, some fin =>
    if start < 0 ∨ fin < start then
      .error (.invalidRange ⟨"range %q is malformed", [.bytes spec]⟩)
    else if size ≤ start then .error errInvalidRange
    else .ok (start, if size ≤ fin then size - 1 else fin)
  | _, _ => .error (.invalidRange ⟨"range %q is malformed", [.bytes spec]⟩)

/-- The first and the last byte that a range header names in an object of `size` bytes. -/
def parseRange (spec : Bytes) (size : Int) : Except ApiError (Int × Int) :=
  match cutPrefix (ascii "bytes=") (trimSpace spec) with
  | none => .error (.invalidRange ⟨"range unit is not bytes", []⟩)
  | some value =>
    if 0x2C ∈ value then
      .error (.notImplemented ⟨"multiple ranges in one request are not supported", []⟩)
    else
      match cut 0x2D value with
      | none => .error (.invalidRange ⟨"range %q is malformed", [.bytes spec]⟩)
      | some (first, last) =>
        let first := trimSpace first
        let last := trimSpace last
        if first = [] ∧ last = [] then
          .error (.invalidRange ⟨"range %q names no bytes", [.bytes spec]⟩)
        else if first = [] then parseSuffix last size
        else if last = [] then parseFrom first size
        else parseBoth spec first last size

/-! ## What both readers do -/

/-- `parseObjectMeta`, with the answer that its errors are given. -/
def parseObjectMeta (G : Gateway) (md : ObjectMeta.Metadata) : Except ApiError Meta :=
  (ObjectMeta.parse G.base64 md G.log2C).mapError fun e =>
    if isSentinel .notEncrypted e then .notEncrypted else .integrity "object metadata"

/-- The answer to a range that cannot be mapped. -/
def rangeError (e : Error) : ApiError :=
  if isSentinel .rangeNotSatisfiable e then errInvalidRange else .integrity "range mapping"

section Readers

variable {σ : Type} [ByteReader σ GoErr]

/-- The header of a segment, and the source behind it. -/
def readHeader (src : σ) : Except ApiError (Bytes × σ) :=
  match (readFull src headerSize).err with
  | some _ => .error (.integrity "segment header")
  | none => .ok ((readFull src headerSize).out, (readFull src headerSize).next)

variable (G : Gateway) (up : Upstream σ) (bucket key : Bytes) (info : ObjectInfo) (m : Meta)
  (id : Manifest.ID) (spec : Bytes)

/-- A header that is fetched on its own. -/
def fetchHeader (bucket stored etag : Bytes) (range : Int × Int) :
    Except ApiError Bytes := do
  let header ← (up.getObject bucket stored range etag).mapError .upstream
  let (raw, _) ← readHeader header
  .ok raw

/-- The header and the chunks of a range: one request where they are adjacent, two where not. -/
def fetchRange (bucket stored etag : Bytes) (rng : Stream.Range) :
    Except ApiError (Bytes × σ) := do
  let fetchStart : Int := if rng.needsSeparateHeader then rng.cipherStart else 0
  let body ← (up.getObject bucket stored (fetchStart, rng.cipherEnd) etag).mapError .upstream
  if rng.needsSeparateHeader then
    let raw ← fetchHeader up bucket stored etag (0, headerSize - 1)
    .ok (raw, body)
  else readHeader body

/-- What a single-part object is opened as: a header of any chunk size will do. -/
def anySegment : SegmentParams := ⟨anyChunkSize, false, 0⟩

/-- `NewRangeReader` and `VerifyFirst`. -/
def openRange (dek raw : Bytes) (body : σ) (rng : Stream.Range) :
    Except ApiError (RangeReader σ) := do
  let r ← (newRangeReader G.crypto body raw dek anySegment rng).mapError
    fun _ => .integrity "segment header"
  match r.verifyFirst with
  | (some _, _) => .error (.integrity "first chunk")
  | (none, r) => .ok r

/-! ## Multipart objects -/

def maxManifestBytes : Nat := 2 ^ 20

/-- `LoadManifest`, with the answers that `multipartLayout` gives its errors. -/
def loadManifest (bucket stored : Bytes) (id : Manifest.ID)
    (dek : Bytes) : Except ApiError Manifest :=
  match up.manifest bucket stored id with
  | .error .notFound => .error (.integrity "manifest")
  | .error e => .error (.upstream e)
  | .ok (body, cut) =>
    if maxManifestBytes < body.length then .error (.integrity "manifest")
    else
      match cut with
      | some _ => .error (.internal ⟨"upstream request failed", []⟩)
      | none =>
        (Manifest.unmarshal G.crypto G.hmac body dek bucket stored id).mapError fun e =>
          if isSentinel .manifestVerify e then .integrity "manifest"
          else .internal ⟨"upstream request failed", []⟩

def multipartLayout
    (storedCipher : Int) (dek : Bytes) : Except ApiError Layout := do
  let stored ← G.storedKey bucket key
  let man ← loadManifest G up bucket stored id dek
  let layout ← (newLayout man.parts m.log2ChunkSize man.hasSalts).mapError
    fun _ => .integrity "manifest"
  let _ ← (layout.checkAgainst storedCipher).mapError fun _ => .integrity "object size"
  .ok layout

/-- The spans with the header of the first one, where that has to be fetched on its own. -/
def fetchSpanHeader (bucket stored etag : Bytes) (layout : Layout)
    (spans : List RangeSpan) : Except ApiError (List RangeSpan) :=
  match headerRange layout spans with
  | none => .ok spans
  | some range => do
      let raw ← fetchHeader up bucket stored etag range
      .ok (setRawHeader raw spans)

/-- The spans of a range of a multipart object, and the verified chain over them. -/
def openChain (bucket stored etag dek : Bytes)
    (layout : Layout) (start fin : Int) : Except ApiError (List RangeSpan × RangeChain σ) := do
  let spans ← (planRange layout start fin).mapError rangeError
  let spans ← fetchSpanHeader up bucket stored etag layout spans
  let body ← (up.getObject bucket stored (bodyRange layout spans) etag).mapError .upstream
  let chain ← (newRangeChain G.crypto body dek layout spans).mapError
    fun _ => .integrity "segment header"
  match chain.verifyFirst with
  | (some _, _) => .error (.integrity "first chunk")
  | (none, chain) => .ok (spans, chain)

/-- What the bytes of an answer are read from. -/
inductive RangeBody (σ : Type) where
  | segment (r : RangeReader σ)
  | chain (c : RangeChain σ)
  | empty

instance : ByteReader (RangeBody σ) GoErr where
  read b k :=
    match b with
    | .segment r => ⟨(read r k).out, (read r k).err, .segment (read r k).next⟩
    | .chain c => ⟨(read c k).out, (read c k).err, .chain (read c k).next⟩
    | .empty => ⟨[], some .eof, .empty⟩

/-! ## `GET` with a range -/

/-- A partial answer: `Content-Range`, `Content-Length` and the body. -/
structure RangeResponse (σ : Type) where
  start : Int
  fin : Int
  total : Int
  length : Nat
  body : RangeBody σ

/-- The question to the rollback index, the last thing that can refuse a read: the salts to ask
about, and the answer to give. -/
def askIndex {α : Type} (q : List Salt × α) : Except ApiError α := do
  G.checkFreshness bucket key q.1
  .ok q.2

/-- `getMultipartRange` up to that question. -/
def openMultipartRange
    :
    Except ApiError (List Salt × RangeResponse σ) := do
  let dek ← G.unwrapDEK bucket key m
  let stored ← G.storedKey bucket key
  let layout ← multipartLayout G up bucket key m id info.contentLength dek
  let (start, fin) ← parseRange spec layout.totalPlain
  let (spans, chain) ← openChain G up bucket stored info.etag dek layout start fin
  .ok (layout.salts, ⟨start, fin, layout.totalPlain, rangeLength spans, .chain chain⟩)

def getMultipartRange
    : Except ApiError (RangeResponse σ) := do
  let q ← openMultipartRange G up bucket key info m id spec
  askIndex G bucket key q

/-- `getObjectRange` for a single-part object, up to the question to the index. -/
def openSegmentRange (bucket key stored : Bytes)
    (info : ObjectInfo) (m : Meta) (spec : Bytes) :
    Except ApiError (List Salt × RangeResponse σ) := do
  let plainLen ← (openedSize info.contentLength m.log2ChunkSize).mapError
    fun _ => .integrity "ciphertext size"
  let (start, fin) ← parseRange spec plainLen
  let rng ← (mapRange start fin info.contentLength m.log2ChunkSize).mapError rangeError
  let (raw, body) ← fetchRange up bucket stored info.etag rng
  let dek ← G.unwrapDEK bucket key m
  let r ← openRange G dek raw body rng
  match saltFromHeader raw with
  | none => .error (.integrity "segment header")
  | some salt => .ok ([salt], ⟨start, fin, plainLen, rng.length, .segment r⟩)

/-- `getObjectRange` for a single-part object. -/
def getSegmentRange (bucket key stored : Bytes)
    (info : ObjectInfo) (m : Meta) (spec : Bytes) : Except ApiError (RangeResponse σ) := do
  let q ← openSegmentRange G up bucket key stored info m spec
  askIndex G bucket key q

def getObjectRange (bucket key spec : Bytes) :
    Except ApiError (RangeResponse σ) := do
  let stored ← G.storedKey bucket key
  let info ← (up.headObject bucket stored).mapError .upstream
  let m ← parseObjectMeta G info.metadata
  match m.manifestID with
  | some id => getMultipartRange G up bucket key info m id spec
  | none => getSegmentRange G up bucket key stored info m spec

/-- `getObjectRange` up to the question to the index. -/
def openObjectRange (bucket key spec : Bytes) :
    Except ApiError (List Salt × RangeResponse σ) := do
  let stored ← G.storedKey bucket key
  let info ← (up.headObject bucket stored).mapError .upstream
  let m ← parseObjectMeta G info.metadata
  match m.manifestID with
  | some id => openMultipartRange G up bucket key info m id spec
  | none => openSegmentRange G up bucket key stored info m spec

/-! ## The source of a copied part -/

/-- A range of a source object: its length and its bytes. `start` is where it begins, which the
source keeps to itself. -/
structure SourceRange (σ : Type) where
  start : Int
  length : Nat
  body : RangeBody σ

/-- The range of a copy source: all of it where the request names none. -/
def sourceRange (size : Int) : Except ApiError (Int × Int) :=
  if spec = [] then .ok (0, size - 1) else parseRange spec size

def openMultipartSourceRange
    (dek spec : Bytes) :
    Except ApiError (SourceRange σ) := do
  let stored ← G.storedKey bucket key
  let layout ← multipartLayout G up bucket key m id info.contentLength dek
  let (start, fin) ← sourceRange spec layout.totalPlain
  if layout.totalPlain = 0 then .ok ⟨start, 0, .empty⟩
  else
    let (spans, chain) ← openChain G up bucket stored info.etag dek layout start fin
    .ok ⟨start, rangeLength spans, .chain chain⟩

/-- `openSourceRange` for a single-part object. -/
def openSegmentSourceRange (bucket stored : Bytes)
    (info : ObjectInfo) (m : Meta) (dek spec : Bytes) : Except ApiError (SourceRange σ) := do
  let plainLen ← (openedSize info.contentLength m.log2ChunkSize).mapError
    fun _ => .integrity "ciphertext size"
  let (start, fin) ← sourceRange spec plainLen
  if plainLen = 0 then .ok ⟨start, 0, .empty⟩
  else
    let rng ← (mapRange start fin info.contentLength m.log2ChunkSize).mapError rangeError
    let (raw, body) ← fetchRange up bucket stored info.etag rng
    let r ← openRange G dek raw body rng
    .ok ⟨start, rng.length, .segment r⟩

def openSourceRange (bucket key stored : Bytes)
    (info : ObjectInfo) (spec : Bytes) : Except ApiError (SourceRange σ) := do
  let m ← parseObjectMeta G info.metadata
  let dek ← G.unwrapDEK bucket key m
  match m.manifestID with
  | some id => openMultipartSourceRange G up bucket key info m id dek spec
  | none => openSegmentSourceRange G up bucket stored info m dek spec

/-- `uploadPartCopy` up to the copying itself: the range of the source whose bytes the new part is
made of. -/
def uploadPartCopy (bucket key spec : Bytes) :
    Except ApiError (SourceRange σ) := do
  let stored ← G.storedKey bucket key
  let info ← (up.headObject bucket stored).mapError .upstream
  let s ← openSourceRange G up bucket key stored info spec
  if s.length = 0 then
    .error (.invalidRequest ⟨"%v: the last part is empty", []⟩)
  else
    let sealedLen ← (sealedSize s.length G.log2C).mapError
      fun _ => .entityTooLarge ⟨"a part of %d bytes cannot be stored: %v", [.int s.length]⟩
    if Manifest.maxPartCiphertext < sealedLen then
      .error (.entityTooLarge ⟨"a part of %d bytes exceeds the maximum part size of %d bytes",
        [.int s.length, .int ((Manifest.maxPartPlaintext G.log2C).toOption.getD 0)]⟩)
    else .ok s

/-- The plaintext of the part once the copy has ended, or the answer that there is none. As long as
the source can still be read there is no outcome. -/
def copyOutcome (q : ReadResult (RangeBody σ) GoErr) : Option (Except ApiError Bytes) :=
  match q.err with
  | none => none
  | some .eof => some (.ok q.out)
  | some _ => some (.error (.integrity "chunk"))

end Readers

end BlindBucket
