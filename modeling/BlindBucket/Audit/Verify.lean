import BlindBucket.Audit.Record
import BlindBucket.Lib.Json

/-!
# Verifying a log

`internal/audit/verify.go`, `parseLine` of `record.go` and `checkExpected` of `cmd/blindbucket/audit.go`. A log is read
line by line, and every line is decoded and checked against the chain so far. A decoder of JSON reads one value and
stops there: what follows the value on its line is never looked at.
-/

namespace BlindBucket.Audit

open ByteIo GoText List

/-- The struct that a line is decoded into. -/
structure Decoded where
  type : Bytes
  head : Option Head
  entry : Option Entry
  checkpoint : Option Checkpoint

/-- What verification is built on. -/
structure Verifier where
  sha256 : Bytes → Bytes
  encode64 : Bytes → Bytes
  decode64 : Bytes → Option Bytes
  /-- `ed25519.Verify`. -/
  signed (key msg sig : Bytes) : Bool
  /-- `Decode` of a decoder that allows no unknown fields: the first value, and what it has not read. -/
  decode : Bytes → Try (Decoded × Bytes)

def Verifier.parseLine (V : Verifier) (line : Bytes) : Try Record := do
  let (r, _) ← (V.decode line).mapError (wrapErr .auditMalformed "%w: %w" [])
  let mismatch := .error (wrapf .auditMalformed "%w: type %q does not match the body present" [.bytes r.type])
  match r.head, r.entry, r.checkpoint with
  | some head, none, none => if r.type = ascii "head" then .ok (.head head) else mismatch
  | none, some entry, none => if r.type = ascii "entry" then .ok (.entry entry) else mismatch
  | none, none, some point => if r.type = ascii "checkpoint" then .ok (.checkpoint point) else mismatch
  | head, entry, point =>
    .error (wrapf .auditMalformed "%w: %d record bodies, want exactly 1"
      [.int ([head.isSome, entry.isSome, point.isSome].count true)])

/-- `Result`, with the checkpoints that were handed to `OnCheckpoint`. -/
structure Result where
  head : Head := ⟨0, [], [], [], [], [], []⟩
  chain : Bytes := []
  entries : Nat := 0
  finalHash : Bytes := []
  tornTail : Bool := false
  points : List Checkpoint := []
deriving DecidableEq

section

variable (V : Verifier) (publicKey : Option Bytes)

def verifyHead (head : Head) (result : Result) : Try (Bytes × Result) :=
  if head.version ≠ 1 then
    .error (errorf "audit: log format version %d, this build reads %d" [.int head.version, .int 1])
  else do
    let want ← head.chainHashOf V.sha256
    if head.hash ≠ want then .error (wrapf .auditTampered "%w: the head record's own hash is wrong" [])
    else if ∃ key ∈ publicKey, head.publicKey ≠ V.encode64 key then
      .error (wrapf .auditWrongKey "%w: %s" [.bytes head.chain])
    else .ok (head.hash, { result with head := head, chain := head.chain })

def verifyEntry (entry : Entry) (lineNo : Nat) (prev : Bytes) (result : Result) :
    Try (Bytes × Result) :=
  if entry.bytes < 0 then
    .error (wrapf .auditMalformed "%w: entry %d records %d bytes" [.int entry.seq, .int entry.bytes])
  else if entry.status < 0 ∨ 999 < entry.status then
    .error (wrapf .auditMalformed "%w: entry %d records status %d" [.int entry.seq, .int entry.status])
  else if entry.seq ≠ result.entries + 1 then
    .error (wrapf .auditTampered
      "%w: line %d is entry %d where %d was expected; an entry has been removed, reordered or inserted"
      [.int lineNo, .int entry.seq, .int (result.entries + 1)])
  else do
    let want ← entry.chainHashOf V.sha256 result.chain prev
    if entry.hash ≠ want then
      .error (wrapf .auditTampered
        "%w: entry %d does not hash to what it claims; it has been edited, or the entry before it has" [.int entry.seq])
    else .ok (entry.hash, { result with entries := entry.seq })

def verifyCheckpoint (point : Checkpoint) (lineNo : Nat) (prev : Bytes) (result : Result) :
    Try (Bytes × Result) :=
  if point.seq ≠ result.entries ∨ point.hash ≠ prev then
    .error (wrapf .auditTampered
      "%w: the checkpoint on line %d claims the chain stood at entry %d, but it stood at %d"
      [.int lineNo, .int point.seq, .int result.entries])
  else
    match publicKey with
    | none => .ok (prev, result)
    | some key => do
      let msg ← point.signedMessage V.sha256 result.chain
      match V.decode64 point.signature with
      | none => .error (wrapf .auditMalformed "%w: the signature on line %d is not valid base64" [.int lineNo])
      | some sig =>
        if V.signed key msg sig then .ok (prev, { result with points := result.points ++ [point] })
        else .error (wrapf .auditTampered "%w: the checkpoint signature on line %d does not verify" [.int lineNo])

def verifyRecord (record : Record) (lineNo : Nat) (prev : Bytes) (result : Result) :
    Try (Bytes × Result) :=
  match record with
  | .head head =>
    if prev ≠ [] then .error (wrapf .auditTampered "%w: line %d is a second head record" [.int lineNo])
    else verifyHead V publicKey head result
  | .entry entry =>
    if prev = [] then .error (wrapf .auditTampered "%w: line %d is an entry before any head" [.int lineNo])
    else verifyEntry V entry lineNo prev result
  | .checkpoint point =>
    if prev = [] then .error (wrapf .auditTampered "%w: line %d is a checkpoint before any head" [.int lineNo])
    else verifyCheckpoint V publicKey point lineNo prev result

/-- The lines of a file, each without the line break that ends it, and what follows the last line break. -/
def lines : Bytes → List Bytes × Bytes
  | [] => ([], [])
  | b :: s =>
    if b = 0x0A then ([] :: (lines s).1, (lines s).2)
    else
      match lines s with
      | ([], tail) => ([], b :: tail)
      | (line :: rest, tail) => ((b :: line) :: rest, tail)

def maxLine : Nat := 1048576

def maxLogBytes : Nat := 68719476736

/-- The loop of `Verify`. The test of `readLine` comes first, so the one that follows it in the loop never fails. -/
def verifyLines (tail : Bytes) : List Bytes → Nat → Bytes → Result → Try Result
  | [], _, prev, result =>
    if maxLine < tail.length then .error (wrapf .auditMalformed "%w: a record exceeds %d bytes" [.int maxLine])
    else .ok { result with finalHash := prev, tornTail := tail ≠ [] }
  | line :: rest, lineNo, prev, result =>
    if maxLine < line.length + 1 then
      .error (wrapf .auditMalformed "%w: a record exceeds %d bytes" [.int maxLine])
    else do
      let record ← (V.parseLine line).mapError (aroundErr "line %d: %w" [.int lineNo])
      let (prev, result) ← verifyRecord V publicKey record lineNo prev result
      verifyLines tail rest (lineNo + 1) prev result

def verify (file : Bytes) : Try Result := do
  let (all, tail) := lines (file.take maxLogBytes)
  let result ← verifyLines V publicKey tail all 1 [] {}
  if result.chain = [] then .error (wrapf .auditMalformed "%w: the log has no head record" [])
  else .ok result

/-- The check of a file against the one before it. -/
def continues (before : Option (Bytes × Result)) (name : Bytes) (result : Result) : Try Unit :=
  match before with
  | none => .ok ()
  | some (file, before) =>
    if result.head.prevChain ≠ before.chain then
      .error (wrapf .auditTampered "%w: %s continues chain %q, but the file before it is chain %q"
        [.bytes name, .bytes result.head.prevChain, .bytes before.chain])
    else if result.head.prevHash ≠ before.finalHash then
      .error (wrapf .auditTampered "%w: %s continues a chain that ended at a different hash than %s did"
        [.bytes name, .bytes file])
    else .ok ()

/-- The loop of `VerifyChain`, after the file `before`. -/
def verifyAfter (before : Option (Bytes × Result)) : List (Bytes × Bytes) → Try (List Result)
  | [] => .ok []
  | (name, file) :: rest => do
    let result ← (verify V publicKey file).mapError (aroundErr "%s: %w" [.bytes name])
    continues before name result
    let results ← verifyAfter (some (name, result)) rest
    .ok (result :: results)

/-- `VerifyChain`, of files with their names. -/
def verifyChain (files : List (Bytes × Bytes)) : Try (List Result) :=
  if files = [] then .error (errorf "audit: no log files to verify" []) else verifyAfter V publicKey none files

def records (file : Bytes) : List Record :=
  (lines (file.take maxLogBytes)).1.filterMap fun line => (V.parseLine line).toOption

end

def Record.point? : Record → Option Checkpoint
  | .checkpoint point => some point
  | _ => none

/-! ## What an accepted log went through -/

section

variable {V : Verifier} {key prev tail file : Bytes} {publicKey : Option Bytes} {record : Record} {n : Nat}
  {result : Result} {all : List Bytes}

/-- With a key, a checkpoint is handed on once its signature verifies, and nothing else is. -/
theorem verifyRecord_points {out : Bytes × Result} (h : verifyRecord V (some key) record n prev result = .ok out) :
    out.2.points = result.points ++ record.point?.toList := by
  cases record with
  | head head =>
    obtain ⟨-, h⟩ := else_ok h
    obtain ⟨-, h⟩ := else_ok h
    obtain ⟨want, -, h⟩ := bind_ok h
    obtain ⟨-, h⟩ := else_ok h
    obtain ⟨-, h⟩ := else_ok h
    cases h
    simp [Record.point?]
  | entry entry =>
    obtain ⟨-, h⟩ := else_ok h
    obtain ⟨-, h⟩ := else_ok h
    obtain ⟨-, h⟩ := else_ok h
    obtain ⟨-, h⟩ := else_ok h
    obtain ⟨want, -, h⟩ := bind_ok h
    obtain ⟨-, h⟩ := else_ok h
    cases h
    simp [Record.point?]
  | checkpoint point =>
    obtain ⟨-, h⟩ := else_ok h
    obtain ⟨-, h⟩ := else_ok h
    obtain ⟨msg, -, h⟩ := bind_ok h
    split at h
    · simp at h
    · obtain ⟨-, h⟩ := then_ok h
      cases h
      rfl

theorem verifyLines_points {out : Result} (h : verifyLines V (some key) tail all n prev result = .ok out) : out.points =
      result.points ++ (all.filterMap fun line => (V.parseLine line).toOption).filterMap Record.point? := by
  induction all generalizing n prev result with
  | nil =>
    obtain ⟨-, h⟩ := else_ok h
    cases h
    simp
  | cons line all ih =>
    obtain ⟨-, h⟩ := else_ok h
    obtain ⟨record, hparse, h⟩ := bind_ok h
    obtain ⟨⟨prev', result'⟩, hrecord, h⟩ := bind_ok h
    rw [ih h, verifyRecord_points hrecord, filterMap_cons, mapError_ok.mp hparse, append_assoc]
    cases record with
    | _ => rfl

theorem verify_lines {out : Result} (h : verify V publicKey file = .ok out) :
    verifyLines V publicKey (lines (file.take maxLogBytes)).2 (lines (file.take maxLogBytes)).1 1 [] {} = .ok out := by
  obtain ⟨result, hlines, h⟩ := bind_ok h
  obtain ⟨-, h⟩ := else_ok h
  cases h
  exact hlines

theorem verifyAfter_points {files : List (Bytes × Bytes)} {before : Option (Bytes × Result)}
    {results : List Result} (h : verifyAfter V (some key) before files = .ok results) :
    results.flatMap Result.points = files.flatMap fun file => (records V file.2).filterMap Record.point? := by
  induction files generalizing before results with
  | nil =>
    cases h
    rfl
  | cons file files ih =>
    obtain ⟨result, hfile, h⟩ := bind_ok h
    obtain ⟨-, -, h⟩ := bind_ok h
    obtain ⟨rest, hrest, h⟩ := bind_ok h
    cases h
    rw [flatMap_cons, ih hrest, verifyLines_points (verify_lines (mapError_ok.mp hfile))]
    rfl

end

/-- The bytes that JSON takes for blanks. -/
def isBlank (b : UInt8) : Bool := b ∈ [0x09, 0x0A, 0x0D, 0x20]

/-! ## A log of two files -/

def quoted (s : Bytes) : Bytes := 0x22 :: s ++ [0x22]

/-- The text of a JSON object, of the texts of its values. -/
def object (members : List (String × Bytes)) : Bytes :=
  0x7B :: join 0x2C (members.map fun m => quoted (ascii m.1) ++ 0x3A :: m.2) ++ [0x7D]

/-- What `encoding/json` writes of a record whose strings need no escapes. -/
def Record.text : Record → Bytes
  | .head h => object [("type", quoted (ascii "head")), ("head", object [("v", itoa h.version),
      ("chain", quoted h.chain), ("opened", quoted h.opened), ("pubkey", quoted h.publicKey),
      ("prev_chain", quoted h.prevChain), ("prev_hash", quoted h.prevHash), ("hash", quoted h.hash)])]
  | .entry e => object [("type", quoted (ascii "entry")), ("entry", object [("seq", decimal e.seq),
      ("time", quoted e.time), ("op", quoted e.op), ("bucket", quoted e.bucket), ("key", quoted e.key),
      ("client", quoted e.client), ("principal", quoted e.principal), ("request_id", quoted e.requestID),
      ("status", itoa e.status), ("code", quoted e.code), ("kid", quoted e.kid), ("bytes", itoa e.bytes),
      ("hash", quoted e.hash)])]
  | .checkpoint p => object [("type", quoted (ascii "checkpoint")), ("checkpoint", object
      [("seq", decimal p.seq), ("time", quoted p.time), ("hash", quoted p.hash), ("sig", quoted p.signature)])]

def Record.decoded : Record → Decoded
  | .head h => ⟨ascii "head", some h, none, none⟩
  | .entry e => ⟨ascii "entry", none, some e, none⟩
  | .checkpoint p => ⟨ascii "checkpoint", none, none, some p⟩

def sampleHead (chain prevChain prevHash hash : String) : Head :=
  ⟨1, ascii chain, ascii "2026-01-01T00:00:00Z", [], ascii prevChain, ascii prevHash, ascii hash⟩

def sampleEntry (key hash : String) : Entry :=
  ⟨1, ascii "2026-01-01T00:00:01Z", ascii "GetObject", ascii "b", ascii key, ascii "192.0.2.1", ascii "alice",
    ascii "r1", 200, [], ascii "k1", 3, ascii hash⟩

def samplePoint (hash : String) : Checkpoint := ⟨1, ascii "2026-01-01T00:00:02Z", ascii hash, ascii "c2ln"⟩

/-- An entry and a checkpoint in each of two files, of which the second continues the first. -/
def sampleRecords : List Record :=
  [.head (sampleHead "c1" "" "" "35"), .entry (sampleEntry "x" "6f"), .checkpoint (samplePoint "6f"),
    .head (sampleHead "c2" "c1" "6f" "6a"), .entry (sampleEntry "y" "a0"), .checkpoint (samplePoint "a0")]

/-- A decoder that knows these records. A digest is the sum of the bytes. -/
def sampleVerifier : Verifier where
  sha256 m := [m.foldl (· + ·) 0]
  encode64 s := s
  decode64 := some
  signed _ _ _ := true
  decode line :=
    let s := line.dropWhile isBlank
    match sampleRecords.find? fun r => r.text.isPrefixOf s with
    | some r => .ok (r.decoded, s.drop r.text.length)
    | none => .error (errorf "invalid character" [])

def fileOf (rs : List Record) : Bytes := rs.flatMap fun r => r.text ++ [0x0A]

/-- The names and the contents of the two files. -/
def twoFiles : List (Bytes × Bytes) :=
  [(ascii "1", fileOf (sampleRecords.take 3)), (ascii "2", fileOf (sampleRecords.drop 3))]

def twoResults : List Result :=
  [⟨sampleHead "c1" "" "" "35", ascii "c1", 1, ascii "6f", false, [samplePoint "6f"]⟩,
    ⟨sampleHead "c2" "c1" "6f" "6a", ascii "c2", 1, ascii "a0", false, [samplePoint "a0"]⟩]

theorem verifyChain_twoFiles : verifyChain sampleVerifier (some []) twoFiles = .ok twoResults := by decide +kernel

end BlindBucket.Audit
