import BlindBucket.Errors
import BlindBucket.Lib.Fields
import BlindBucket.Lib.GoText

/-!
# Records of the audit log

`internal/audit/record.go`. A log is a file of lines, and each line is a record. The head opens a chain, every entry is
hashed together with the hash before it, and a checkpoint signs where the chain stands. SHA-256 is a parameter.
-/

namespace BlindBucket.Audit

open ByteIo GoText

structure Head where
  version : Int
  chain : Bytes
  opened : Bytes
  publicKey : Bytes
  prevChain : Bytes
  prevHash : Bytes
  hash : Bytes
deriving DecidableEq, Repr

structure Entry where
  seq : Nat
  time : Bytes
  op : Bytes
  bucket : Bytes
  key : Bytes
  client : Bytes
  principal : Bytes
  requestID : Bytes
  status : Int
  code : Bytes
  kid : Bytes
  bytes : Int
  hash : Bytes
deriving DecidableEq, Repr

structure Checkpoint where
  seq : Nat
  time : Bytes
  hash : Bytes
  signature : Bytes
deriving DecidableEq, Repr

/-- `Record`, once it is known that it has one body and that its type names it. -/
inductive Record where
  | head (head : Head)
  | entry (entry : Entry)
  | checkpoint (point : Checkpoint)
deriving DecidableEq, Repr

/-! ## What is hashed -/

/-- `lp`, for one field after another. -/
def lp : List Bytes → Try Bytes
  | [] => .ok []
  | s :: fields =>
    if 0xffff < s.length then
      .error (errorf "audit: field of %d bytes exceeds the length prefix" [.int s.length])
    else do
      let rest ← lp fields
      .ok (Fields.field 2 s ++ rest)

/-- `u32` and `u64`, of an integer that is cast to the type. -/
def unsigned (w : Nat) (v : Int) : Bytes := beBytes w (v % (256 ^ w : Nat)).toNat

/-- `chainHashOf` of a head. -/
def Head.chainHashOf (sha256 : Bytes → Bytes) (h : Head) : Try Bytes := do
  let fields ← lp [h.chain, h.opened, h.publicKey, h.prevChain, h.prevHash]
  .ok (hex (sha256 (ascii "blindbucket/v1/audit-head" ++ unsigned 4 h.version ++ fields)))

/-- `chainHashOf` of an entry. -/
def Entry.chainHashOf (sha256 : Bytes → Bytes) (e : Entry) (chain prev : Bytes) :
    Try Bytes := do
  let fields ← lp [chain, e.time, e.op, e.bucket, e.key, e.client, e.principal, e.requestID, e.code, e.kid]
  let last ← lp [prev]
  .ok (hex (sha256 (ascii "blindbucket/v1/audit-entry" ++ unsigned 8 e.seq ++ fields ++ unsigned 4 e.status ++
    unsigned 8 e.bytes ++ last)))

def Checkpoint.signedMessage (sha256 : Bytes → Bytes) (p : Checkpoint) (chain : Bytes) :
    Try Bytes := do
  let fields ← lp [chain, p.time, p.hash]
  .ok (sha256 (ascii "blindbucket/v1/audit-checkpoint" ++ unsigned 8 p.seq ++ fields))

end BlindBucket.Audit
