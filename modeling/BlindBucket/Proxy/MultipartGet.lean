import BlindBucket.Stream.RangeHonest
import BlindBucket.Verify.Layout
import BlindBucket.Lib.Chain

/-!
# Ranges of multipart objects

`planRange` splits a plaintext range into spans, one for each part it touches, and maps
each one onto the ciphertext of that part. Only the first touched part can begin in its
middle, so the ciphertext of all spans is one contiguous run, which `bodyRange` names;
the header of the first part may have to be fetched on its own. `rangeChain` then reads
the spans one after another from that run.
-/

namespace BlindBucket

open ByteIo BlindBucket.Stream Slices

/-- What one part contributes to a range. -/
structure RangeSpan where
  index : Nat
  rng : Stream.Range
  headerSeparate : Bool
  rawHeader : Option Bytes := none
deriving DecidableEq

instance : Inhabited RangeSpan := ⟨⟨0, rangeOf 0 0 0 0, false, none⟩⟩

def errRangeNotSatisfiable : Error := wrapf .rangeNotSatisfiable "stream: range not satisfiable" []

variable (l : Layout) (spans : List RangeSpan)

/-- One round of the loop of `planRange`. -/
def planSpan (start fin : Int) (i : Nat) : Try RangeSpan := do
  let localStart := start - (l.entry i).plainStart
  let localStart := if localStart < 0 then 0 else localStart
  let localEnd := fin - (l.entry i).plainStart
  let localEnd := if (l.entry i).part.plainSize - 1 < localEnd then (l.entry i).part.plainSize - 1
    else localEnd
  let rng ← mapRange localStart localEnd (l.entry i).sealed l.log2C
  .ok { index := i, rng := rng, headerSeparate := rng.needsSeparateHeader }

/-- The loop of `planRange`: the spans of `count` parts from part `i` on. -/
def planSpans (l : Layout) (start fin : Int) : (count i : Nat) → Try (List RangeSpan)
  | 0, _ => .ok []
  | count + 1, i => do
      let span ← planSpan l start fin i
      let spans ← planSpans l start fin count (i + 1)
      .ok (span :: spans)

def planRange (start fin : Int) : Try (List RangeSpan) :=
  if start < 0 ∨ fin < start ∨ l.totalPlain ≤ start then .error errRangeNotSatisfiable
  else
    let fin := if l.totalPlain ≤ fin then l.totalPlain - 1 else fin
    planSpans l start fin (l.locate fin + 1 - l.locate start) (l.locate start)

/-- The first and the last byte of the ciphertext of the spans. -/
def bodyRange : Int × Int :=
  let firstSpan := spans.headD default
  let start := (l.entry firstSpan.index).cipherStart
  let start := if firstSpan.headerSeparate then start + firstSpan.rng.cipherStart else start
  let lastSpan := spans.getLastD default
  (start, (l.entry lastSpan.index).cipherStart + lastSpan.rng.cipherEnd)

/-- Where the header of the first span stands, if it has to be fetched on its own. -/
def headerRange : Option (Int × Int) :=
  let firstSpan := spans.headD default
  let offset := (l.entry firstSpan.index).cipherStart
  if firstSpan.headerSeparate then some (offset, offset + headerSize - 1) else none

/-- The spans once that header was fetched. -/
def setRawHeader (raw : Bytes) : List RangeSpan → List RangeSpan
  | [] => []
  | span :: spans =>
    (if span.headerSeparate then { span with rawHeader := some raw } else span) :: spans

def rangeLength : Nat := (spans.map (·.rng.length)).sum

/-! ## Reading the spans -/

section Chain

variable {σ : Type} [ByteReader σ GoErr]

/-- The header of a span: the one that was fetched, or the next bytes of the source. -/
def spanHeader (number : Nat) (span : RangeSpan) (src : σ) : Try (Bytes × σ) :=
  match span.rawHeader with
  | some raw => .ok (raw, src)
  | none =>
    match (readFull src headerSize).err with
    | some e => .error (wrapErr .manifestVerify "%w: reading the header of part %d: %w" [.int number] e)
    | none => .ok ((readFull src headerSize).out, (readFull src headerSize).next)

/-- `rangeChain.open`: the reader of one span, limited to the ciphertext of its chunks. -/
def openSpan (K : Crypto) (dek : Bytes) (l : Layout) (span : RangeSpan) (src : σ) :
    Try (RangeReader (LimitReader σ)) := do
  let part := (l.entry span.index).part
  let (header, src) ← spanHeader part.number span src
  match saltFromHeader header with
  | none => .error (wrapf .manifestVerify "%w: the header of part %d is short" [.int part.number])
  | some salt =>
    l.checkSalt span.index salt
    newRangeReader K ⟨src, span.rng.cipherEnd + 1 - span.rng.cipherStart⟩ header dek
      ⟨l.log2C, true, part.number⟩ span.rng

abbrev RangeChain (σ : Type) := Chain (RangeReader (LimitReader σ)) GoErr

/-- What a range chain reads: each span where the one before left the source. -/
def rangePieces (K : Crypto) (dek : Bytes) (l : Layout) (spans : List RangeSpan) :
    Pieces (RangeReader (LimitReader σ)) GoErr where
  count := spans.length
  openNext i r := openSpan K dek l (spans.getD i default) r.src.src

def newRangeChain (K : Crypto) (src : σ) (dek : Bytes) (l : Layout) (spans : List RangeSpan) :
    Try (RangeChain σ) := do
  let r ← openSpan K dek l (spans.headD default) src
  .ok { pieces := rangePieces K dek l spans, idx := 0, cur := r }

def RangeChain.verifyFirst (c : RangeChain σ) : Option Error × RangeChain σ :=
  match c.cur.verifyFirst with
  | (e, r) => (e, { c with cur := r })

end Chain

end BlindBucket
