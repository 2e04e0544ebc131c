import BlindBucket.Errors
import BlindBucket.Lib.Header

/-!
# Checksums a client attaches to an upload

`internal/auth/checksum.go`: the checksums that a set of headers declares and those it
announces for the trailer. Both are *expectations* with a running hash, kept here as the
bytes written to it so far.

The hash functions, HMAC and base64 are parameters, and so is the order in which Go goes
through a map.
-/

namespace BlindBucket.Auth

open ByteIo GoText

/-- `ChecksumAlgorithm`, without the texts that name no algorithm. -/
inductive ChecksumAlgorithm where
  | crc32
  | crc32c
  | crc64nvme
  | sha1
  | sha256
deriving DecidableEq, Repr

def ChecksumAlgorithm.text : ChecksumAlgorithm → Bytes
  | .crc32 => ascii "CRC32"
  | .crc32c => ascii "CRC32C"
  | .crc64nvme => ascii "CRC64NVME"
  | .sha1 => ascii "SHA1"
  | .sha256 => ascii "SHA256"

/-- The algorithms `newHash` knows. -/
def checksumAlgorithms : List ChecksumAlgorithm := [.crc32, .crc32c, .crc64nvme, .sha1, .sha256]

/-- A running hash: one of the algorithms, or the MD5 of `Content-MD5`. -/
inductive HashKind where
  | checksum (alg : ChecksumAlgorithm)
  | md5
deriving DecidableEq, Repr

/-- What the standard library computes for this package. -/
structure Primitives where
  /-- `Sum(nil)` of a new hash to which the bytes were written. -/
  sum : HashKind → Bytes → Bytes
  /-- `hmacSHA256`. -/
  hmacSHA256 : Bytes → Bytes → Bytes
  hmac_length : ∀ key s, (hmacSHA256 key s).length = 32
  /-- `base64.StdEncoding.DecodeString`. -/
  base64 : Bytes → Option Bytes
  /-- The entries of a map in the order in which a range goes through them. -/
  walk : Header → Header
  walk_perm : ∀ h, (walk h).Perm h

theorem length_zeroSum (_ _ : Bytes) : (List.replicate 32 (0 : UInt8)).length = 32 := List.length_replicate

variable (P : Primitives) (h : Header)

theorem walk_id : (id h).Perm h := List.Perm.refl h

def Primitives.sha256 (P : Primitives) : Bytes → Bytes := P.sum (.checksum .sha256)

def ChecksumAlgorithm.headerName (a : ChecksumAlgorithm) : Bytes :=
  ascii "x-amz-checksum-" ++ toLower a.text

def expectedLength : ChecksumAlgorithm → Nat
  | .crc32 | .crc32c => 4
  | .crc64nvme => 8
  | .sha1 => 20
  | .sha256 => 32

def md5Size : Nat := 16

def parseChecksumAlgorithm (headerName : Bytes) : Option ChecksumAlgorithm :=
  match cutPrefix (ascii "x-amz-checksum-") (toLower headerName) with
  | none => none
  | some name => checksumAlgorithms.find? fun a => a.text == toUpper name

/-- One checksum a body has to satisfy. -/
structure Expectation where
  /-- The header it came from. -/
  name : Bytes
  hash : HashKind
  /-- The bytes written to the hash so far. -/
  written : Bytes := []
  /-- Missing while the value is still to come. -/
  expected : Option Bytes
deriving DecidableEq, Repr

/-- The hash once more bytes have been written to it. -/
def Expectation.write (e : Expectation) (p : Bytes) : Expectation :=
  { e with written := e.written ++ p }

/-- `verify`. A missing value compares like an empty one. -/
def Expectation.verify (e : Expectation) : Except GoErr Unit :=
  if P.sum e.hash e.written = e.expected.getD [] then .ok ()
  else .error (.wrapf .checksumMismatch "%w: %s" [.bytes e.name])

/-- The base64 value of a checksum header, which has to have the length of the hash. -/
def decodeChecksum (name value : Bytes) (want : Nat) : Except GoErr Bytes :=
  match P.base64 (trimSpace value) with
  | none => .error (.errorf none ⟨"auth: %s is not valid base64: %w", [.bytes name]⟩)
  | some raw =>
    if raw.length ≠ want then
      .error (.errorf none ⟨"auth: %s decodes to %d bytes, want %d",
        [.bytes name, .int raw.length, .int want]⟩)
    else .ok raw

/-- One turn of the loop of `checksumsFrom`. -/
def headerChecksum : Bytes × List Bytes → Except GoErr (Option Expectation)
  | (_, []) => .ok none
  | (name, value :: _) =>
    match parseChecksumAlgorithm name with
    | none => .ok none
    | some alg => do
        let raw ← decodeChecksum P name value (expectedLength alg)
        .ok (some { name := name, hash := .checksum alg, expected := some raw })

/-- The loop of `checksumsFrom`. -/
def headerChecksums (P : Primitives) : Header → Except GoErr (List Expectation)
  | [] => .ok []
  | entry :: rest => do
      let e ← headerChecksum P entry
      let es ← headerChecksums P rest
      .ok (e.toList ++ es)

def contentMD5 : Bytes := ascii "Content-MD5"

/-- The `Content-MD5` part of `checksumsFrom`. -/
def contentMD5Checksum : Except GoErr (List Expectation) :=
  let value := Header.get h contentMD5
  if value = [] then .ok []
  else do
    let raw ← decodeChecksum P contentMD5 value md5Size
    .ok [{ name := contentMD5, hash := .md5, expected := some raw }]

def checksumsFrom : Except GoErr (List Expectation) := do
  let out ← headerChecksums P (P.walk h)
  let md5 ← contentMD5Checksum P h
  .ok (out ++ md5)

def amzTrailer : Bytes := ascii "X-Amz-Trailer"

/-- The loop of `announcedTrailerChecksums`. -/
def announcedChecksums : List Bytes → Except GoErr (List Expectation)
  | [] => .ok []
  | name :: rest =>
    let name := trimSpace name
    if name = [] then announcedChecksums rest
    else
      match parseChecksumAlgorithm name with
      | none => .error (.wrapf .unsupportedChecksum "%w: announced trailer %q" [.bytes name])
      | some alg => do
          let es ← announcedChecksums rest
          .ok ({ name := name, hash := .checksum alg, expected := none } :: es)

def announcedTrailerChecksums : Except GoErr (List Expectation) :=
  let raw := Header.get h amzTrailer
  if raw = [] then .ok [] else announcedChecksums (raw.splitOn 0x2C)

end BlindBucket.Auth
