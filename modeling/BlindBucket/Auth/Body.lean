import BlindBucket.Auth.ChunkSigs

/-!
# The body of a request

`internal/auth/body.go`: a body reader decodes an aws-chunked body or passes any other body
through, and verifies what the client asked to have verified on the read that would
otherwise have returned `io.EOF`.
-/

namespace BlindBucket.Auth

open ByteIo GoText

variable {P : Primitives} {σ : Type} [ByteReader σ GoErr] [LawfulReader σ]

def decodedLengthHeader : Bytes := ascii "X-Amz-Decoded-Content-Length"

/-- What a body reader is made from: `http.Request` as far as it looks at it. -/
structure Request (σ : Type) where
  header : Header
  contentLength : Int
  body : σ

inductive BodySource (P : Primitives) (σ : Type) [ByteReader σ GoErr] [LawfulReader σ] where
  | chunked (c : ChunkedReader P σ)
  | plain (body : σ)

/-- `BodyReader`. The checksums of a chunked body are those of its reader. -/
structure BodyReader (P : Primitives) (σ : Type) [ByteReader σ GoErr] [LawfulReader σ] where
  src : BodySource P σ
  checksums : List Expectation
  verified : Bool := false
  err : Option Error := none

def decodedLength (h : Header) : Except GoErr Int :=
  let raw := Header.get h decodedLengthHeader
  if raw = [] then
    .error (malformed "%w: %s is required for an aws-chunked body" [.bytes decodedLengthHeader])
  else
    match parseInt raw with
    | none => .error (malformed "%w: %s is %q" [.bytes decodedLengthHeader, .bytes raw])
    | some length =>
      if length < 0 then
        .error (malformed "%w: %s is %q" [.bytes decodedLengthHeader, .bytes raw])
      else .ok length

def contentSHA256 : Bytes := ascii "x-amz-content-sha256"

/-- The expectation that a hex `x-amz-content-sha256` adds. -/
def payloadChecksum (res : Result) : Except GoErr (List Expectation) :=
  if res.payloadMode = .hashed then
    match hexDecode res.payloadHash with
    | none => .error (.wrapf .malformedAuth "%w: x-amz-content-sha256 is not hex" [])
    | some expected =>
      .ok [{ name := contentSHA256, hash := .checksum .sha256, expected := some expected }]
  else .ok []

/-- `NewBodyReader` for an aws-chunked body. -/
def newChunkedBody (P : Primitives) (r : Request σ) (res : Result) (checksums : List Expectation) :
    Except GoErr (BodyReader P σ × Int) := do
  let announced ← announcedTrailerChecksums r.header
  let length ← decodedLength r.header
  let chunked ← newChunkedReader P r.body res length
  .ok (⟨.chunked (chunked.setChecksums (checksums ++ announced)), checksums ++ announced, false, none⟩,
    length)

/-- `NewBodyReader` for any other body. -/
def newPlainBody (P : Primitives) (r : Request σ) (res : Result) (checksums : List Expectation) :
    Except GoErr (BodyReader P σ × Int) :=
  if r.contentLength < 0 then .error (.wrapf .missingContentLength "%w" [])
  else do
    let payload ← payloadChecksum res
    .ok (⟨.plain r.body, checksums ++ payload, false, none⟩, r.contentLength)

/-- The reader and the length of the plaintext. -/
def newBodyReader (P : Primitives) (r : Request σ) (res : Result) : Except GoErr (BodyReader P σ × Int) := do
  let checksums ← checksumsFrom P r.header
  if res.payloadMode.streaming then newChunkedBody P r res checksums
  else newPlainBody P r res checksums

/-- `verify`, for a body that is not chunked. -/
def verifyAll (P : Primitives) : List Expectation → Except GoErr Unit
  | [] => .ok ()
  | e :: rest => do
      e.verify P
      verifyAll P rest

/-- `verify`. The chunked reader has settled its own checksums. -/
def BodyReader.verify (b : BodyReader P σ) : Except GoErr Unit :=
  match b.src with
  | .chunked _ => .ok ()
  | .plain _ => verifyAll P b.checksums

/-- The read of the source, with the hashes fed for a body that is not chunked. -/
def BodyReader.readSource (b : BodyReader P σ) (k : Nat) : ReadResult (BodyReader P σ) GoErr :=
  match b.src with
  | .chunked c => ⟨(read c k).out, (read c k).err, { b with src := .chunked (read c k).next }⟩
  | .plain body =>
    ⟨(read body k).out, (read body k).err,
      { b with src := .plain (read body k).next
               checksums := b.checksums.map (·.write (read body k).out) }⟩

instance : ByteReader (BodyReader P σ) GoErr where
  read b k :=
    match b.err with
    | some e => ⟨[], some e, b⟩
    | none =>
      let r := b.readSource k
      match r.err with
      | none => r
      | some .eof =>
        if r.next.verified then r
        else
          let b := { r.next with verified := true }
          match b.verify with
          | .ok _ => ⟨r.out, some .eof, b⟩
          | .error e => ⟨r.out, some (.other e), { b with err := some (.other e) }⟩
      | some e => ⟨r.out, some e, { r.next with err := some e }⟩

def BodyReader.trailer (b : BodyReader P σ) : Header :=
  match b.src with
  | .chunked c => c.trailer
  | .plain _ => []

end BlindBucket.Auth
