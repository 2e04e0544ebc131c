import BlindBucket.Stream.Segment
import BlindBucket.Lib.Buffered
import BlindBucket.Lib.Filler

/-!
# The decoder

`DecryptReader` yields the plaintext of one segment. It reads a chunk, looks one byte
ahead to see whether another follows, and opens the chunk under the answer.

`fill_cases` says what one `fill` can do in terms of the bytes that are left;
`Filler.Reads.releaseInv` turns a fact about `fill` into one about every sequence of reads.
The decoder is used from two sides: on a segment the encoder made
(`Stream/RoundTrip.lean`) and on arbitrary bytes (`Stream/Sound.lean`).
-/

namespace BlindBucket.Stream

open ByteIo Blocks List

def peekBufSize : Nat := 64

variable {σ : Type} [ByteReader σ GoErr] [LawfulReader σ]

/-- The state of a decoder. `held` says that it has not given its buffer back yet. -/
structure DecryptReader (σ : Type) [ByteReader σ GoErr] [LawfulReader σ] where
  src : Bufio σ
  header : Header
  sealer : Sealer
  held : Bool := true
  plain : Bytes := []
  next : Nat := 0
  done : Bool := false
  err : Option Error := none

/-- Parse a header and compare it with what was asked for, as every decoder starts. -/
def openHeader (K : Crypto) (raw dek : Bytes) (want : SegmentParams) : Try (Header × Sealer) := do
  let h ← parseHeader raw
  h.requireParams want
  let s ← newSealer K dek h
  .ok (h, s)

def newDecryptReader (K : Crypto) (src : σ) (dek : Bytes) (want : SegmentParams) :
    Try (DecryptReader σ) := do
  want.validateExpectation
  let r := readFull (Bufio.newReaderSize src peekBufSize) headerSize
  match r.err with
  | some .eof | some .unexpectedEOF =>
    .error (integrityf .header "segment is shorter than its %d-byte header" [.int headerSize])
  | some e => .error e
  | none =>
    let hs ← openHeader K r.out dek want
    .ok { src := r.next, header := hs.1, sealer := hs.2 }

variable {r : DecryptReader σ} {K : Crypto} {raw dek : Bytes} {want : SegmentParams} {h : Header} {src : σ}

namespace DecryptReader

def release (r : DecryptReader σ) : DecryptReader σ := { r with held := false, plain := [] }

/-- The first error stays, and the buffer goes. -/
def setErr (r : DecryptReader σ) (e : Error) : Option Error × DecryptReader σ :=
  (r.err.or (some e), { r with err := r.err.or (some e), held := false, plain := [] })

/-- The end of `fill`: open what was read as chunk `next`. -/
def openNext (r : DecryptReader σ) (sealed : Bytes) (final : Bool) : Option Error × DecryptReader σ :=
  match r.sealer.openChunk sealed r.next final with
  | .error e => r.setErr e
  | .ok plain => (none, { r with plain := plain, next := r.next + 1, done := final })

/-- `fill` once a whole chunk arrived: whether it is the final one depends on what follows it. -/
def fillWhole (r : DecryptReader σ) (out : Bytes) : Option Error × DecryptReader σ :=
  let p := r.src.peek
  let r := { r with src := p.2 }
  match p.1 with
  | none => r.openNext out false
  | some .eof => r.openNext out true
  | some e => r.setErr e

/-- `fill` once the source ended early: a short chunk can only be the last one. -/
def fillShort (r : DecryptReader σ) (out : Bytes) : Error → Option Error × DecryptReader σ
  | .unexpectedEOF =>
    if out.length < tagSize then
      r.setErr (chunkErrorf r.next "truncated: %d bytes left, which is less than a bare tag"
        [.int out.length])
    else if out.length = tagSize ∧ 0 < r.next then
      r.setErr (chunkErrorf r.next
        "empty chunk, which is only valid as the single chunk of an empty segment" [])
    else r.openNext out true
  | .eof => r.setErr (chunkErrorf r.next "segment ends after a non-final chunk" [])
  | e => r.setErr e

def fill (r : DecryptReader σ) : Option Error × DecryptReader σ :=
  if r.held = false then r.setErr (integrityf .chunk "reader already released" [])
  else
    let q := readFull r.src (r.header.chunkSize + tagSize)
    match q.err with
    | none => ({ r with src := q.next }).fillWhole q.out
    | some e => ({ r with src := q.next }).fillShort q.out e

def verifyFirst (r : DecryptReader σ) : Option Error × DecryptReader σ :=
  match r.err with
  | some e => (some e, r)
  | none => if 0 < r.next ∨ r.done = true then (none, r) else r.fill

/--
The loop of `Read`. A chunk without plaintext can only be the final one, so two
rounds are enough (`Filler.Reads.last`).
-/
def readLoop (k : Nat) : Nat → DecryptReader σ → ReadResult (DecryptReader σ) GoErr
  | 0, r => ⟨[], none, r⟩
  | fuel + 1, r =>
    if r.plain = [] then
      if r.done then ⟨[], some .eof, r.release⟩
      else
        match r.fill with
        | (some e, r') => ⟨[], some e, r'⟩
        | (none, r') => readLoop k fuel r'
    else ⟨r.plain.take k, none, { r with plain := r.plain.drop k }⟩

instance : ByteReader (DecryptReader σ) GoErr where
  read r k :=
    match r.err with
    | some e => ⟨[], some e, r⟩
    | none => readLoop k 2 r

/-! ## One `fill` -/

theorem setErr_fst_ne (r : DecryptReader σ) (e : Error) : (r.setErr e).1 ≠ none := by
  unfold setErr
  cases r.err <;> simp

variable {r' : DecryptReader σ}

theorem openNext_none {sealed : Bytes} {final : Bool} (h : r.openNext sealed final = (none, r')) :
    ∃ p, r.sealer.openChunk sealed r.next final = .ok p
      ∧ r' = { r with plain := p, next := r.next + 1, done := final } := by
  unfold openNext at h
  split at h
  · exact absurd (congrArg Prod.fst h) (setErr_fst_ne r _)
  next p hp =>
    exact ⟨p, hp, (congrArg Prod.snd h).symm⟩

/-- The chunk that the bytes left in `src` begin with, and what follows it. -/
structure NextChunk (r : DecryptReader σ) (sealed : Bytes) (final : Bool) (src : Bufio σ) : Prop where
  split : content r.src = sealed ++ content src
  steps : Steps r.src.rd src.rd
  length_le : sealed.length ≤ r.header.chunkSize + tagSize
  more : final = false → sealed.length = r.header.chunkSize + tagSize ∧ content src ≠ []
  last : final = true → content src = [] ∧ tagSize ≤ sealed.length
    ∧ (sealed.length = tagSize → r.next = 0)

/-- Why a `fill` can fail before the cipher is asked. -/
def Cut (r : DecryptReader σ) : Prop :=
  (∃ e, Ends r.src.rd e ∧ e ≠ .eof) ∨ (content r.src).length < tagSize
    ∨ ((content r.src).length = tagSize ∧ 0 < r.next)

/-- How one `fill` can go. -/
inductive FillCase (r : DecryptReader σ) : Prop where
  | chunk (sealed : Bytes) (final : Bool) (src : Bufio σ) (h : r.NextChunk sealed final src)
      (eq : r.fill = ({ r with src := src }).openNext sealed final)
  | cut (e : Error) (src : Bufio σ) (hne : e ≠ .eof) (hs : Steps r.src.rd src.rd) (hcut : r.Cut)
      (eq : r.fill = ({ r with src := src }).setErr e)

theorem fill_whole (hheld : r.held = true) (hlen : r.header.chunkSize + tagSize ≤ (content r.src).length) : r.FillCase := by
  have hC := r.header.chunkSize_pos
  have hnone := readFull_err_none hlen
  have hout := readFull_out r.src (r.header.chunkSize + tagSize)
  have hcont := readFull_content r.src (r.header.chunkSize + tagSize)
  have hsteps := Bufio.rd_steps (readFull_steps r.src (r.header.chunkSize + tagSize))
  have hfill : r.fill = ({ r with src := (readFull r.src (r.header.chunkSize + tagSize)).next }
      : DecryptReader σ).fillWhole (readFull r.src (r.header.chunkSize + tagSize)).out := by
    unfold fill
    rw [if_neg (by rw [hheld]; simp)]
    dsimp only
    rw [hnone]
  generalize readFull r.src (r.header.chunkSize + tagSize) = q at *
  obtain ⟨hpc, hps, hpnone, hpends⟩ := q.next.peek_spec
  have hrd : Steps r.src.rd q.next.peek.2.rd := hsteps.trans hps
  have hsplit : content r.src = q.out ++ content q.next.peek.2 := by
    rw [hpc, hcont, hout, take_append_drop]
  have hqlen : q.out.length = r.header.chunkSize + tagSize := by
    rw [hout, length_take]; omega
  unfold fillWhole at hfill
  dsimp only at hfill
  cases hp : q.next.peek.1 with
  | none =>
    rw [hp] at hfill
    refine .chunk q.out false q.next.peek.2 ⟨hsplit, hrd, Nat.le_of_eq hqlen, ?_, by simp⟩ hfill
    intro _
    exact ⟨hqlen, by rw [hpc]; exact hpnone.mp hp⟩
  | some e =>
    have hend : Ends r.src.rd e := hsteps.ends ((Bufio.ends_iff _ _).mp (hpends e hp))
    have hnil : content q.next.peek.2 = [] := by
      rw [hpc]
      by_contra hne
      rw [hpnone.mpr hne] at hp
      simp at hp
    have hbad : e ≠ .eof → r.fill = ({ r with src := q.next.peek.2 }).setErr e → r.FillCase :=
      fun hne heq => .cut e _ hne hrd (Or.inl ⟨e, hend, hne⟩) heq
    rw [hp] at hfill
    cases e with
    | eof =>
      refine .chunk q.out true q.next.peek.2 ⟨hsplit, hrd, Nat.le_of_eq hqlen, by simp, ?_⟩ hfill
      intro _
      exact ⟨hnil, by omega, fun h => by omega⟩
    | unexpectedEOF | noProgress | other e => exact hbad (by simp) hfill

/-- Less than a whole chunk is there. -/
theorem fill_short (hheld : r.held = true) (hlen : (content r.src).length < r.header.chunkSize + tagSize) : r.FillCase := by
  obtain ⟨e, herr, hend⟩ := readFull_err_some hlen
  have hout := readFull_out r.src (r.header.chunkSize + tagSize)
  have hcont := readFull_content r.src (r.header.chunkSize + tagSize)
  have hsteps := Bufio.rd_steps (readFull_steps r.src (r.header.chunkSize + tagSize))
  rw [take_of_length_le (hlen.le)] at hout
  rw [drop_of_length_le (hlen.le)] at hcont
  have hfill : r.fill = ({ r with src := (readFull r.src (r.header.chunkSize + tagSize)).next }
      : DecryptReader σ).fillShort (content r.src) (shortErr (content r.src) e) := by
    unfold fill
    rw [if_neg (by rw [hheld]; simp)]
    dsimp only
    rw [herr, hout]
  generalize readFull r.src (r.header.chunkSize + tagSize) = q at *
  -- a short read: the rest of the source, taken for the final chunk
  have hshort : shortErr (content r.src) e = .unexpectedEOF → r.FillCase := by
    intro hq
    rw [hq] at hfill
    rw [fillShort] at hfill
    split at hfill
    next htag =>
      exact .cut _ q.next (by simp [chunkErrorf]) hsteps (Or.inr (Or.inl htag)) hfill
    next htag =>
      split at hfill
      next hempty =>
        exact .cut _ q.next (by simp [chunkErrorf]) hsteps (Or.inr (Or.inr hempty)) hfill
      next hempty =>
        refine .chunk (content r.src) true q.next
          ⟨by rw [hcont, append_nil], hsteps, by omega, by simp, ?_⟩ hfill
        intro _
        refine ⟨hcont, Nat.le_of_not_lt htag, ?_⟩
        intro heq
        by_contra hne
        exact hempty ⟨heq, Nat.pos_of_ne_zero hne⟩
  have hend' : Ends r.src.rd e := (Bufio.ends_iff _ _).mp hend
  cases e with
  | eof =>
    by_cases hnil : content r.src = []
    · rw [hnil] at hfill
      refine .cut _ q.next (by simp [chunkErrorf]) hsteps (Or.inr (Or.inl ?_)) hfill
      rw [hnil]
      decide
    · exact hshort (by simp [shortErr, hnil])
  | unexpectedEOF => exact hshort rfl
  | noProgress => exact .cut .noProgress q.next (by simp) hsteps (Or.inl ⟨_, hend', by simp⟩) hfill
  | other e => exact .cut (.other e) q.next (by simp) hsteps (Or.inl ⟨_, hend', by simp⟩) hfill

/-- **What one `fill` does**: it opens the next chunk, or it fails for a reason that can be told
from the bytes left and from how the source ends. -/
theorem fill_cases (hheld : r.held = true) : r.FillCase := by
  rcases Nat.lt_or_ge (content r.src).length (r.header.chunkSize + tagSize) with h | h
  · exact fill_short hheld h
  · exact fill_whole hheld h

theorem fill_none (h : r.fill = (none, r')) : ∃ sealed final src p, r.NextChunk sealed final src
      ∧ r.sealer.openChunk sealed r.next final = .ok p
      ∧ r' = { r with src := src, plain := p, next := r.next + 1, done := final } := by
  have hheld : r.held = true := by
    by_contra hn
    unfold fill at h
    rw [if_pos (by simpa using hn)] at h
    exact absurd (congrArg Prod.fst h) (setErr_fst_ne r _)
  cases fill_cases hheld with
  | cut e src _ _ _ heq =>
    rw [heq] at h
    exact absurd (congrArg Prod.fst h) (setErr_fst_ne _ _)
  | chunk sealed final src hn heq =>
    rw [heq] at h
    obtain ⟨p, hp, hr'⟩ := openNext_none h
    exact ⟨sealed, final, src, p, hn, hp, hr'⟩

theorem fill_plain (h : r.fill = (none, r')) : r'.plain ≠ [] ∨ r'.done = true := by
  obtain ⟨sealed, final, src, p, hn, hp, rfl⟩ := fill_none h
  cases final with
  | true => exact Or.inr rfl
  | false =>
    left
    have hlen := Sealer.openChunk_length hp
    have hC := r.header.chunkSize_pos
    rw [(hn.more rfl).1] at hlen
    show p ≠ []
    intro hnil
    rw [hnil, length_nil] at hlen
    omega

/-! ## Every sequence of reads -/

/-- The parts of a decoder that a read is made of. -/
def filler : Filler (DecryptReader σ) GoErr :=
  ⟨err, plain, fun r => r.done = true, release, fun r k => { r with plain := r.plain.drop k }, fill⟩

instance : DecidablePred (filler (σ := σ)).ended := fun r => inferInstanceAs (Decidable (r.done = true))

theorem readLoop_eq (k n : Nat) (r : DecryptReader σ) : readLoop k n r = filler.loop k n r := by
  induction n generalizing r with
  | zero => rfl
  | succ n ih =>
    simp only [readLoop, Filler.loop, filler, ih]
    rcases r.fill with ⟨_ | e, r'⟩
    · rfl
    · rfl

theorem filler_reads : (filler (σ := σ)).Reads where
  failed r k e he := by simp only [ByteIo.read, show r.err = some e from he]
  reads r k he := by simp only [ByteIo.read, show r.err = none from he, readLoop_eq]
  serve _ _ := rfl
  last _ _ _ hf hp := Or.inl ((fill_plain hf).resolve_left (fun h => h hp))

end DecryptReader

/-! ## Opening a segment -/

theorem openHeader_ok_iff {s : Sealer} : openHeader K raw dek want = .ok (h, s) ↔
      h.raw = raw ∧ h.params.Meets want ∧ dek.length = keySize ∧ s = Sealer.of K dek h := by
  unfold openHeader
  constructor
  · intro ho
    obtain ⟨h', hp, ho⟩ := bind_ok ho
    obtain ⟨_, hr, ho⟩ := bind_ok ho
    obtain ⟨s', hs, ho⟩ := bind_ok ho
    cases ho
    obtain ⟨hlen, hsealer⟩ := newSealer_ok_iff.mp hs
    exact ⟨parseHeader_raw hp, Header.requireParams_ok.mp hr, hlen, hsealer⟩
  · rintro ⟨rfl, hmeets, hlen, rfl⟩
    simp only [bind, Except.bind, parseHeader_of_raw, Header.requireParams_ok.mpr hmeets,
      newSealer_ok_iff.mpr ⟨hlen, rfl⟩]

theorem openHeader_ne_eof : openHeader K raw dek want ≠ .error .eof := by
  refine bind_ne_error parseHeader_ne_eof fun h => ?_
  refine bind_ne_error Header.requireParams_ne_eof fun _ => ?_
  exact bind_ne_error newSealer_ne_eof fun _ => by simp

/-- A decoder that has just read its header from `src`. -/
structure Opened (K : Crypto) (src : σ) (dek : Bytes) (want : SegmentParams) (r : DecryptReader σ) : Prop where
  fresh : r = { src := r.src, header := r.header, sealer := Sealer.of K dek r.header }
  content_eq : content src = r.header.raw ++ content r.src
  steps : Steps src r.src.rd
  params : r.header.params.Meets want
  dek_length : dek.length = keySize

theorem newDecryptReader_ok (h : newDecryptReader K src dek want = .ok r) : Opened K src dek want r := by
  have hout := readFull_out (Bufio.newReaderSize src peekBufSize) headerSize
  have hcont := readFull_content (Bufio.newReaderSize src peekBufSize) headerSize
  have hsteps := Bufio.rd_steps (readFull_steps (Bufio.newReaderSize src peekBufSize) headerSize)
  rw [Bufio.content_newReaderSize] at hout hcont
  obtain ⟨_, _, h⟩ := bind_ok h
  dsimp only at h
  split at h
  · simp at h
  · simp at h
  · simp at h
  · obtain ⟨hs, ho, h⟩ := bind_ok h
    cases h
    obtain ⟨hraw, hmeets, hlen, hsealer⟩ := openHeader_ok_iff.mp ho
    refine ⟨by rw [← hsealer], ?_, hsteps, hmeets, hlen⟩
    rw [hraw, hout, hcont, take_append_drop]

theorem newDecryptReader_of_header {rest : Bytes} (hc : content src = h.raw ++ rest)
    (hwant : want.validateExpectation = .ok ()) (hmeets : h.params.Meets want) (hlen : dek.length = keySize) :
    ∃ r, newDecryptReader K src dek want = .ok r ∧ r.header = h ∧ content r.src = rest := by
  have hraw := h.raw_length
  have hnone : (readFull (Bufio.newReaderSize src peekBufSize) headerSize).err = none := by
    apply readFull_err_none
    rw [Bufio.content_newReaderSize, hc, length_append]
    omega
  have hout := readFull_out (Bufio.newReaderSize src peekBufSize) headerSize
  rw [Bufio.content_newReaderSize, hc, take_left' hraw] at hout
  have hcont := readFull_content (Bufio.newReaderSize src peekBufSize) headerSize
  rw [Bufio.content_newReaderSize, hc, drop_left' hraw] at hcont
  refine ⟨{ src := (readFull (Bufio.newReaderSize src peekBufSize) headerSize).next, header := h,
            sealer := Sealer.of K dek h }, ?_, rfl, hcont⟩
  unfold newDecryptReader
  simp only [bind, Except.bind, hwant, hnone, hout,
    openHeader_ok_iff.mpr ⟨rfl, hmeets, hlen, rfl⟩]

end BlindBucket.Stream
