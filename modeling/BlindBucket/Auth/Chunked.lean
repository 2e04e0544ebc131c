import BlindBucket.Auth.Checksum
import BlindBucket.Lib.Lines

/-!
# Decoding an aws-chunked body

`internal/auth/chunked.go`. A body is a sequence of chunks, each a header line with a size
and a signature, the data and a CRLF, closed by an empty chunk and a trailer. The reader
verifies each signature when the chunk ends, and each signature covers the one before it.

A method of the reader is a state transformer that may fail; the state after a failure is
kept, since the error a reader has met is part of it. No method fails with an error of
package `io` itself: where one is met, it is wrapped.
-/

namespace BlindBucket.Auth

open ByteIo GoText

inductive PayloadMode where
  | hashed
  | unsigned
  | streamingSigned
  | streamingSignedTrailer
  | streamingUnsignedTrailer
deriving DecidableEq, Repr

def PayloadMode.streaming : PayloadMode → Bool
  | .streamingSigned | .streamingSignedTrailer | .streamingUnsignedTrailer => true
  | _ => false

def PayloadMode.signed (m : PayloadMode) : Bool :=
  m == .streamingSigned || m == .streamingSignedTrailer

/-- `Result`, as far as a body needs it: `timestamp` is the time in `amzDateFormat` and `scope` the
scope of the credential. -/
structure Result where
  payloadMode : PayloadMode
  payloadHash : Bytes
  signingKey : Bytes
  seed : Bytes
  timestamp : Bytes
  scope : Bytes

def maxChunkHeaderLine : Nat := 4 * 2 ^ 10
def maxTrailerLines : Nat := 16
def maxChunkSize : Nat := 2 ^ 30

/-- The size of the buffer in front of the body. -/
def bodyBufSize : Nat := 32 * 2 ^ 10

def chunkPayloadAlgorithm : Bytes := ascii "AWS4-HMAC-SHA256-PAYLOAD"
def chunkTrailerAlgorithm : Bytes := ascii "AWS4-HMAC-SHA256-TRAILER"

def Primitives.emptyStringSHA256 (P : Primitives) : Bytes := hex (P.sha256 [])

def Primitives.sign (P : Primitives) (signingKey stringToSign : Bytes) : Bytes :=
  hex (P.hmacSHA256 signingKey stringToSign)

def algorithm : Bytes := ascii "AWS4-HMAC-SHA256"

/-- `StringToSign`: what is signed for a request. -/
def Primitives.requestString (P : Primitives) (timestamp scope canonicalRequest : Bytes) : Bytes :=
  join 0x0A [algorithm, timestamp, scope, hex (P.sha256 canonicalRequest)]

/-- What is signed for a chunk. -/
def Primitives.chunkString (P : Primitives) (timestamp scope prevSig data : Bytes) : Bytes :=
  join 0x0A [chunkPayloadAlgorithm, timestamp, scope, prevSig, P.emptyStringSHA256,
    hex (P.sha256 data)]

/-- What is signed for a trailer. -/
def Primitives.trailerString (P : Primitives) (timestamp scope prevSig canonical : Bytes) : Bytes :=
  join 0x0A [chunkTrailerAlgorithm, timestamp, scope, prevSig, hex (P.sha256 canonical)]

/-- An error that wraps `ErrMalformedChunkedBody`. -/
def malformed (format : String) (args : List Arg) : GoErr := .wrapf .malformedChunkedBody format args

/-- `ChunkedReader`. The hash of the current chunk is the bytes written to it. -/
structure ChunkedReader (P : Primitives) (σ : Type) [ByteReader σ GoErr] [LawfulReader σ] where
  src : Bufio σ
  mode : PayloadMode
  signingKey : Bytes
  scope : Bytes
  timestamp : Bytes
  prevSig : Bytes
  /-- How many bytes of the chunk are still to come. -/
  remaining : Nat := 0
  /-- The signature claimed for the chunk. -/
  chunkSig : Bytes := []
  chunkHash : Option Bytes := none
  checksums : List Expectation := []
  decoded : Nat := 0
  expectedDecoded : Nat
  trailer : Header := []
  done : Bool := false
  err : Option GoErr := none

abbrev Method (P : Primitives) (σ : Type) [ByteReader σ GoErr] [LawfulReader σ] (α : Type) :=
  EStateM GoErr (ChunkedReader P σ) α

variable {P : Primitives} {σ : Type} [ByteReader σ GoErr] [LawfulReader σ]

def newChunkedReader (P : Primitives) (body : σ) (res : Result) (decodedLength : Int) :
    Except GoErr (ChunkedReader P σ) :=
  if !res.payloadMode.streaming then .error (.errorf none ⟨"auth: payload mode is not aws-chunked", []⟩)
  else if decodedLength < 0 then
    .error (malformed "%w: x-amz-decoded-content-length is required" [])
  else .ok
    { src := Bufio.newReaderSize body bodyBufSize
      mode := res.payloadMode
      signingKey := res.signingKey
      scope := res.scope
      timestamp := res.timestamp
      prevSig := res.seed
      expectedDecoded := decodedLength.toNat }

variable (c : ChunkedReader P σ) (line : Bytes)

def ChunkedReader.setChecksums (expectations : List Expectation) :
    ChunkedReader P σ := { c with checksums := expectations }

/-- A call that does not touch the reader. -/
def orFail {α : Type} : Except GoErr α → Method P σ α
  | .ok a => pure a
  | .error e => throw e

/-- The first error is kept and answered from then on. -/
def ChunkedReader.fail (e : GoErr) : GoErr × ChunkedReader P σ :=
  match c.err with
  | none => (e, { c with err := some e })
  | some first => (first, c)

/-- A method all of whose errors are returned through `fail`. -/
def failing {α : Type} (m : Method P σ α) : Method P σ α := fun c =>
  match m c with
  | .ok a c => .ok a c
  | .error e c => .error (c.fail e).1 (c.fail e).2

/-! ## Lines and headers -/

/-- The end of `readLine`: the limit, and the line without its end. -/
def trimLine : Except GoErr Bytes :=
  if maxChunkHeaderLine < line.length then
    .error (malformed "%w: line of %d bytes exceeds the limit" [.int line.length])
  else .ok (trimSuffix [0x0D] (trimSuffix [0x0A] line))

/-- `readLine`. A last line without its newline is a line; nothing at all is not. -/
def readLine : Method P σ Bytes := fun c =>
  let r := c.src.readString 0x0A
  let c := { c with src := r.next }
  match r.err with
  | some e =>
    if !isEOF e || r.out = [] then .error (.wrapErr .malformedChunkedBody "%w: %w" [] e) c
    else orFail (trimLine r.out) c
  | none => orFail (trimLine r.out) c

def expectCRLF : Method P σ Unit := fun c =>
  let r := readFull c.src 2
  let c := { c with src := r.next }
  match r.err with
  | some e =>
    .error (.wrapErr .malformedChunkedBody "%w: expected CRLF after chunk data: %w" [] e) c
  | none =>
    if r.out = [0x0D, 0x0A] then .ok () c
    else .error (malformed "%w: expected CRLF after chunk data, got %q" [.bytes r.out]) c

def splitChunkHeader (wantSignature : Bool) : Except GoErr (Bytes × Bytes) :=
  match cut 0x3B line with
  | none =>
    if wantSignature then
      .error (malformed "%w: chunk header %q carries no signature" [.bytes line])
    else .ok (line, [])
  | some (size, rest) =>
    match cutPrefix (ascii "chunk-signature=") rest with
    | none => .error (malformed "%w: unexpected chunk extension %q" [.bytes rest])
    | some value =>
      if wantSignature then .ok (size, value)
      else .error (malformed
        "%w: chunk carries a signature but the payload mode is unsigned" [])

def verifyChunkSignature : Method P σ Unit := fun c =>
  if !c.mode.signed then .ok () c
  else if P.sign c.signingKey (P.chunkString c.timestamp c.scope c.prevSig (c.chunkHash.getD [])) = c.chunkSig then
    .ok () { c with prevSig := c.chunkSig }
  else .error (.wrapf .chunkSignature "%w" []) c

/-! ## The trailer -/

def trailerSignature : Bytes := ascii "x-amz-trailer-signature"

/-- The name and the value on a line of the trailer. -/
def trailerField : Option (Bytes × Bytes) :=
  (cut 0x3A line).map fun q => (toLower (trimSpace q.1), trimSpace q.2)

/-- What `readTrailer` has gathered: the text that is signed and the signature. -/
structure TrailerText where
  canonical : Bytes := []
  signature : Bytes := []

/-- A field as it stands in the text that is signed. -/
def canonicalField (name value : Bytes) : Bytes := name ++ 0x3A :: value ++ [0x0A]

/-- The loop of `readTrailer`. -/
def readTrailerLines : Nat → TrailerText → Method P σ TrailerText
  | 0, t => pure t
  | n + 1, t => fun c =>
    match readLine c with
    | .error e c => if e.isEOF then .ok t c else .error e c
    | .ok line c =>
      if line = [] then .ok t c
      else
        match trailerField line with
        | none => .error (malformed "%w: trailer line %q is not name:value" [.bytes line]) c
        | some (name, value) =>
          if name = trailerSignature then readTrailerLines n { t with signature := value } c
          else readTrailerLines n { t with canonical := t.canonical ++ canonicalField name value }
            { c with trailer := Header.set c.trailer name value }

def readTrailer : Method P σ Unit := fun c =>
  match readTrailerLines maxTrailerLines {} c with
  | .error e c => .error e c
  | .ok t c =>
    if c.mode ≠ .streamingSignedTrailer then .ok () c
    else if P.sign c.signingKey (P.trailerString c.timestamp c.scope c.prevSig t.canonical) = t.signature then .ok () c
    else .error (.wrapf .chunkSignature "%w: trailer signature" []) c

/-! ## Settling the checksums -/

/-- `find`: the running expectation for a checksum name, and where it stands in the list. -/
def findRunning (checksums : List Expectation) (name : Bytes) : Option (Expectation × Nat) :=
  checksums.zipIdx.find? fun q => equalFold q.1.name name

/-- The first loop of `settle`: the indices of the expectations that the trailer settles. -/
def settleArrived (P : Primitives) (checksums : List Expectation) : List Expectation → Except GoErr (List Nat)
  | [] => .ok []
  | arrived :: rest =>
    match findRunning checksums arrived.name with
    | none =>
      .error (.wrapf .checksumMismatch
        "%w: %s arrived in the trailer but was not announced in X-Amz-Trailer"
        [.bytes arrived.name])
    | some (running, i) => do
        Expectation.verify P
          { name := arrived.name, hash := running.hash, written := running.written,
            expected := arrived.expected }
        let settled ← settleArrived P checksums rest
        .ok (i :: settled)

/-- One turn of the second loop of `settle`. -/
def settleOne (P : Primitives) (settled : List Nat) (i : Nat) (e : Expectation) : Except GoErr Unit :=
  if i ∈ settled then .ok ()
  else if e.expected.isSome then e.verify P
  else .error (.wrapf .checksumMismatch "%w: %s was announced in X-Amz-Trailer but never arrived"
    [.bytes e.name])

/-- The second loop of `settle`. -/
def settleRest (P : Primitives) (settled : List Nat) : Nat → List Expectation → Except GoErr Unit
  | _, [] => .ok ()
  | i, e :: rest => do
      settleOne P settled i e
      settleRest P settled (i + 1) rest

/-- The checksums of `settle`, against a trailer. -/
def settleChecksums (P : Primitives) (checksums : List Expectation) (trailer : Header) : Except GoErr Unit := do
  let arrived ← checksumsFrom P trailer
  let settled ← settleArrived P checksums arrived
  settleRest P settled 0 checksums

def settle : Method P σ Unit := fun c =>
  if c.decoded ≠ c.expectedDecoded then
    .error (malformed "%w: body decoded to %d bytes, x-amz-decoded-content-length said %d"
      [.int c.decoded, .int c.expectedDecoded]) c
  else orFail (settleChecksums P c.checksums c.trailer) c

/-! ## Reading -/

/-- The reader at the start of a chunk for which `sig` is claimed. -/
def ChunkedReader.begin (sig : Bytes) : ChunkedReader P σ :=
  { c with chunkSig := sig, chunkHash := if c.mode.signed then some [] else c.chunkHash }

/-- The size of a chunk, within its limits. -/
def chunkSize (sizeText : Bytes) : Except GoErr Nat :=
  match parseHex sizeText with
  | none => .error (malformed "%w: chunk size %q" [.bytes sizeText])
  | some size =>
    if size < 0 ∨ (maxChunkSize : Int) < size then
      .error (malformed "%w: chunk size %q" [.bytes sizeText])
    else .ok size.toNat

/-- The part of `nextChunk` for the empty chunk. It has no CRLF of its own: the trailer follows its
header line. -/
def finishBody : Method P σ Unit := do
  verifyChunkSignature
  readTrailer
  settle
  modify fun c => { c with done := true }

def nextChunk : Method P σ Unit := failing do
  let line ← readLine
  let c ← get
  let (sizeText, sig) ← orFail (splitChunkHeader line c.mode.signed)
  let size ← orFail (chunkSize sizeText)
  modify (·.begin sig)
  if size = 0 then finishBody
  else modify fun c => { c with remaining := size }

def finishChunk : Method P σ Unit := failing do
  expectCRLF
  verifyChunkSignature

/-- The reader once `data` has been taken from the current chunk. -/
def ChunkedReader.take (src : Bufio σ) (data : Bytes) : ChunkedReader P σ :=
  { c with
    src := src
    chunkHash := c.chunkHash.map (· ++ data)
    checksums := c.checksums.map (·.write data)
    remaining := c.remaining - data.length
    decoded := c.decoded + data.length }

/-- The part of `Read` that is inside a chunk. -/
def ChunkedReader.readData (k : Nat) : ReadResult (ChunkedReader P σ) GoErr :=
  let r := readFull c.src (min k c.remaining)
  match r.err with
  | some _ =>
    let e := malformed "%w: chunk ended after %d of %d bytes"
      [.int r.out.length, .int c.remaining]
    let f := { c with src := r.next }.fail e
    ⟨[], some (.other f.1), f.2⟩
  | none =>
    let c := c.take r.next r.out
    if c.remaining = 0 then
      match finishChunk c with
      | .ok _ c => ⟨r.out, none, c⟩
      | .error e c => ⟨r.out, some (.other e), c⟩
    else ⟨r.out, none, c⟩

instance : ByteReader (ChunkedReader P σ) GoErr where
  read c k :=
    match c.err with
    | some e => ⟨[], some (.other e), c⟩
    | none =>
      if c.done then ⟨[], some .eof, c⟩
      else if c.remaining = 0 then
        match nextChunk c with
        | .error e c => ⟨[], some (.other e), c⟩
        | .ok _ c => if c.done then ⟨[], some .eof, c⟩ else c.readData k
      else c.readData k

end BlindBucket.Auth
