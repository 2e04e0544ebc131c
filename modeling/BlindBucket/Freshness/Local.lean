import BlindBucket.Errors
import BlindBucket.Lib.Bytes
import BlindBucket.Lib.RecordLog
import Mathlib.Data.List.AList

/-!
# The freshness index

`freshness.Local`: which write of each object is the current one, held in a map and in an
append-only file of fixed-width records from which the map is rebuilt. The file is its
bytes; every file operation succeeds. The clock is read where the source reads it, so an
operation takes the readings it may need.
-/

namespace BlindBucket.Freshness

open ByteIo RecordLog List

/-! ## The on-disk shape -/

/-- `"BBFX"`. -/
def fileMagic : Bytes := [0x42, 0x42, 0x46, 0x58]

def fileVersion : UInt8 := 1
def headerSize : Nat := 16
def recordSize : Nat := 48

def kindPresent : UInt8 := 1
def kindTombstone : UInt8 := 2
def kindInvalid : UInt8 := 3

def keySize : Nat := 32
def tagSize : Nat := 16

/-- In nanoseconds. -/
def defaultRetention : Int := 90 * 24 * 3600 * 1000000000

def defaultSyncEvery : Int := 256
def compactFloor : Nat := 4096

/-- The stored hash of an object's identity. -/
abbrev NameHash := { b : Bytes // b.length = 16 }

/-- Identifies one write of one object. -/
abbrev Tag := { b : Bytes // b.length = tagSize }

/-- The tag of a record that names no write. -/
def zeroTag : Tag := ⟨replicate tagSize 0, length_replicate⟩

/-- A unix timestamp, which does not overflow `int64`. -/
abbrev Unix := { n : Nat // n ≤ maxInt64 }

structure Entry where
  tag : Tag
  kind : UInt8
  when : Unix
deriving DecidableEq

abbrev MapEntry := Sigma (fun _ : NameHash => Entry)

abbrev IndexMap := AList (fun _ : NameHash => Entry)

structure Record where
  name : NameHash
  tag : Tag
  kind : UInt8
  when : Unix
deriving DecidableEq

/-- The hashes an index computes with: the record checksum, and the hash keyed with the
secret of the index. -/
structure Digests where
  crc : Bytes → UInt32
  mac : Bytes → Bytes
  mac_length : ∀ b, (mac b).length = 32

variable (D : Digests)

variable (l : Local) (r : Record) (bucket key : Bytes) (t : Clock)

/-- The part of a record its checksum covers. -/
def recordBody : Bytes :=
  r.name.1 ++ r.tag.1 ++ [r.kind, 0, 0, 0] ++ beBytes 8 r.when.1

def recordBytes : Bytes :=
  recordBody r ++ beBytes 4 (D.crc (recordBody r)).toNat

theorem recordBody_length : (recordBody r).length = 44 := by
  simp only [recordBody, length_append, r.name.2, r.tag.2, beBytes_length, length_cons,
    length_nil, tagSize]

theorem recordBytes_length : (recordBytes D r).length = recordSize := by
  rw [recordBytes, length_append, recordBody_length]
  rfl

/-- A timestamp past the `int64` range counts as infinitely old. -/
def readWhen (n : Nat) : Unix := if h : n ≤ maxInt64 then ⟨n, h⟩ else ⟨0, Nat.zero_le _⟩

/-- One step of `load`: a whole block that checksums. -/
def parseRecord (block : Bytes) : Option Record :=
  if h : block.length = recordSize then
    if (D.crc (block.take 44)).toNat ≠ ofBe (block.extract 44 48) then none
    else some {
      name := ⟨block.take 16, by rw [length_take, h]; rfl⟩
      tag := ⟨(block.drop 16).take 16, by rw [length_take, length_drop, h]; rfl⟩
      kind := block.getD 32 0
      when := readWhen (ofBe (block.extract 36 44)) }
  else none

theorem recordBytes_eq : recordBytes D r = r.name.1 ++ (r.tag.1 ++
    ([r.kind, 0, 0, 0] ++ (beBytes 8 r.when.1 ++ beBytes 4 (D.crc (recordBody r)).toNat))) := by
  have hbody : recordBody r = r.name.1 ++ r.tag.1 ++ [r.kind, 0, 0, 0] ++ beBytes 8 r.when.1 := rfl
  rw [recordBytes]
  nth_rewrite 1 [hbody]
  simp only [append_assoc]

theorem recordBytes_drop : (recordBytes D r).drop 32 =
    [r.kind, 0, 0, 0] ++ (beBytes 8 r.when.1 ++ beBytes 4 (D.crc (recordBody r)).toNat) := by
  have htag : r.tag.1.length = 16 := r.tag.2
  rw [recordBytes_eq, ← append_assoc]
  exact drop_left' (by rw [length_append, r.name.2, htag])

theorem parseRecord_recordBytes : parseRecord D (recordBytes D r) = some r := by
  have hcovered : (recordBytes D r).take 44 = recordBody r := take_left' (recordBody_length r)
  have hsum : (recordBytes D r).extract 44 48 = beBytes 4 (D.crc (recordBody r)).toNat := by
    rw [extract_eq_take_drop, recordBytes, drop_left' (recordBody_length r)]
    exact take_of_length_le (by simp)
  have hcrc : (D.crc (recordBody r)).toNat < 256 ^ 4 := UInt32.toNat_lt _
  have hname : (recordBytes D r).take 16 = r.name.1 := by
    rw [recordBytes_eq]
    exact take_left' r.name.2
  have htag : ((recordBytes D r).drop 16).take 16 = r.tag.1 := by
    rw [recordBytes_eq, drop_left' r.name.2]
    exact take_left' r.tag.2
  have hkind : (recordBytes D r).getD 32 0 = r.kind := by
    rw [getD_eq_getElem?_getD, ← head?_drop, recordBytes_drop]
    rfl
  have hwhen : (recordBytes D r).extract 36 44 = beBytes 8 r.when.1 := by
    have hdrop : (recordBytes D r).drop 36 = beBytes 8 r.when.1 ++ beBytes 4 (D.crc (recordBody r)).toNat := by
      rw [show 36 = 32 + 4 from rfl, ← drop_drop, recordBytes_drop]
      rfl
    rw [extract_eq_take_drop, hdrop]
    exact take_left' (beBytes_length 8 r.when.1)
  have hfit : r.when.1 < 256 ^ 8 := by
    have := r.when.2
    unfold maxInt64 at this
    omega
  rw [parseRecord, dif_pos (recordBytes_length D r), if_neg]
  · simp only [hname, htag, hkind, hwhen, ofBe_beBytes hfit, readWhen, dif_pos r.when.2]
  · rw [hcovered, hsum, ofBe_beBytes hcrc]
    simp

def recordFormat : Format UInt8 Record where
  width := recordSize
  width_pos := by decide
  encode := recordBytes D
  decode := parseRecord D
  encode_length := recordBytes_length D
  decode_encode := parseRecord_recordBytes D

/-- What replaying a record does to the map. -/
def applyRecord (m : IndexMap) (r : Record) : IndexMap :=
  if r.kind = kindInvalid then m.erase r.name else m.insert r.name ⟨r.tag, r.kind, r.when⟩

def replayMap (rs : List Record) : IndexMap := rs.foldl applyRecord ∅

/-- `writeHeader`. -/
def headerBytes (now : Unix) : Bytes :=
  fileMagic ++ [fileVersion, 0] ++ beBytes 2 recordSize ++ beBytes 8 now.1

theorem headerBytes_length (now : Unix) : (headerBytes now).length = headerSize := by
  rfl

/-! ## Opening -/

structure Options where
  path : Bytes
  key : Bytes
  /-- In nanoseconds; zero means the default. -/
  tombstoneRetention : Int
  /-- Zero means the default. -/
  syncEvery : Int

def cmpOr (v fallback : Int) : Int := if v = 0 then fallback else v

/-- An open index. `file` is what the file at its path holds. -/
structure Local where
  retention : Int
  syncEvery : Int
  m : IndexMap
  file : Bytes
  records : Nat
  sinceSync : Nat
  closed : Bool

/-- The map the file holds and the number of records read, where `none` is a file that does not exist. A
record that is short or does not checksum ends the replay. -/
def load (path : Bytes) : Option Bytes → Try (IndexMap × Nat)
  | none => .ok (∅, 0)
  | some bytes =>
    if bytes.length < headerSize then .ok (∅, 0)
    else if bytes.take 4 ≠ fileMagic then
      .error (wrapf .indexDamaged "%w: %q does not begin with %s" [.bytes path, .bytes fileMagic])
    else if bytes.getD 4 0 ≠ fileVersion then
      .error (wrapf .indexDamaged "%w: %q is version %d, this build writes %d"
        [.bytes path, .int (bytes.getD 4 0).toNat, .int fileVersion.toNat])
    else if ofBe (bytes.extract 6 8) ≠ recordSize then
      .error (wrapf .indexDamaged "%w: %q has %d-byte records, this build writes %d"
        [.bytes path, .int (ofBe (bytes.extract 6 8)), .int recordSize])
    else
      let read := ((recordFormat D).replay (bytes.drop headerSize)).1
      .ok (replayMap read, read.length)

/-- `Open`, at a moment the clock shows `now`. -/
def openIndex (opts : Options) (now : Unix) (file : Option Bytes) : Try Local :=
  if opts.key.length ≠ keySize then
    .error (errorf "freshness: key is %d bytes, want %d" [.int opts.key.length, .int keySize])
  else if opts.path = [] then
    .error (errorf "freshness: no index path configured" [])
  else do
    let read ← load D opts.path file
    .ok {
      retention := cmpOr opts.tombstoneRetention defaultRetention
      syncEvery := cmpOr opts.syncEvery defaultSyncEvery
      m := read.1
      -- the file is opened for appending, so the header goes behind whatever it holds
      file := if read.2 = 0 then file.getD [] ++ headerBytes now else file.getD []
      records := read.2
      sinceSync := 0
      closed := false }

/-! ## Operations -/

/-- The stored hash of one object's identity. -/
def name : NameHash :=
  ⟨(D.mac (beBytes 8 bucket.length ++ bucket ++ beBytes 8 key.length ++ key)).take 16, by
    rw [length_take, D.mac_length]; rfl⟩

/-- What one operation meets: the clock readings of its record, of the cutoff of a compaction
and of the header a compaction writes, and the order in which a compaction ranges over a map. -/
structure Clock where
  record : Unix
  cutoff : Unix
  header : Unix
  walk : List MapEntry → List MapEntry
  walk_perm : ∀ entries, (walk entries).Perm entries

/-- A clock that stands still, and a map that keeps its order. -/
def Clock.still (now : Unix) : Clock := ⟨now, now, now, id, fun _ => .rfl⟩

/-- `n / d` rounded to the 53 binary digits of a `float64`, ties to even. -/
def float64 (n d : Nat) : Nat :=
  let unit := 2 ^ ((n / d).log2 - 52)
  (n + d * unit / 2 - 1 + n / (d * unit) % 2) / (d * unit) * unit

/-- `int64(l.retention.Seconds())`. `Seconds` adds the whole seconds and their fraction as
`float64`s, here in units of `2 ^ -83`, finer than the last digit of either. -/
def Local.retentionSeconds : Int :=
  let ns := l.retention.natAbs
  let seconds := float64 (ns / 10 ^ 9 * 2 ^ 83 + float64 (ns % 10 ^ 9 * 2 ^ 83) (10 ^ 9)) 1
  l.retention.sign * (seconds / 2 ^ 83 : Nat)

/-- What a compaction keeps of an entry. -/
def keeps (cutoff : Int) (e : MapEntry) : Bool :=
  !(e.2.kind == kindTombstone && decide ((e.2.when.1 : Int) < cutoff))

def keptEntries (m : IndexMap) (cutoff : Int) : IndexMap :=
  ⟨m.entries.filter (keeps cutoff), m.nodupKeys.sublist filter_sublist⟩

/-- The record of an entry, as a compaction writes it. -/
def entryRecord (e : MapEntry) : Record := ⟨e.1, e.2.tag, e.2.kind, e.2.when⟩

/-- Rewrites the file from the map, without superseded records and expired tombstones. -/
def Local.compactLocked : Local :=
  let cutoff := t.cutoff.1 - l.retentionSeconds
  let kept := keptEntries l.m cutoff
  { l with
    m := kept
    file := headerBytes t.header ++
      (recordFormat D).encodeAll (((t.walk l.m.entries).filter (keeps cutoff)).map entryRecord)
    records := kept.entries.length
    sinceSync := 0 }

/-- Syncs on the configured interval and compacts when the file has grown past twice what it needs to hold.
-/
def Local.maintainLocked : Local :=
  let synced := { l with sinceSync := if l.syncEvery ≤ l.sinceSync then 0 else l.sinceSync }
  if 2 * l.m.entries.length + compactFloor < l.records then synced.compactLocked D t else synced

/-- Appends one record and does not touch the map. -/
def Local.writeRecordLocked : Local :=
  { l with
    file := l.file ++ recordBytes D r
    records := l.records + 1
    sinceSync := l.sinceSync + 1 }

def Local.appendLocked (h : NameHash) (tag : Tag) (kind : UInt8) (t : Clock) : Local :=
  let written := l.writeRecordLocked D ⟨h, tag, kind, t.record⟩
  { written with m := l.m.insert h ⟨tag, kind, t.record⟩ }.maintainLocked D t

inductive Verdict where
  | unknown
  | fresh
  | stale
  | deleted
deriving DecidableEq, Repr

/-- A read may proceed on this verdict. -/
def Verdict.ok : Verdict → Bool
  | .unknown | .fresh => true
  | .stale | .deleted => false

def closedError : Error := errorf "freshness: the index is closed" []

/-- What an entry says about a tag. -/
def Entry.verdict (e : Entry) (tag : Tag) : Verdict :=
  if e.kind = kindTombstone then .deleted else if e.tag = tag then .fresh else .stale

/-- An object that is not known yet is recorded. -/
def Local.check (tag : Tag) (t : Clock) : Try Verdict × Local :=
  if l.closed then (.error closedError, l)
  else match l.m.lookup (name D bucket key) with
    | none => (.ok .unknown, l.appendLocked D (name D bucket key) tag kindPresent t)
    | some got => (.ok (got.verdict tag), l)

def Local.record (tag : Tag) (t : Clock) : Try Unit × Local :=
  if l.closed then (.error closedError, l)
  else (.ok (), l.appendLocked D (name D bucket key) tag kindPresent t)

def Local.forget : Try Unit × Local :=
  if l.closed then (.error closedError, l)
  else (.ok (), l.appendLocked D (name D bucket key) zeroTag kindTombstone t)

/-- Back to trust on first use. -/
def Local.invalidate : Try Unit × Local :=
  if l.closed then (.error closedError, l)
  else match l.m.lookup (name D bucket key) with
    | none => (.ok (), l)
    | some _ =>
      let dropped := { l with m := l.m.erase (name D bucket key) }
      (.ok (), (dropped.writeRecordLocked D
        ⟨name D bucket key, zeroTag, kindInvalid, t.record⟩).maintainLocked D t)

def Local.close : Local := { l with closed := true }

end BlindBucket.Freshness
