import BlindBucket.Stream.Decrypt

/-!
# Range reads

`MapRange` turns a plaintext range into the chunks it touches and the ciphertext they
stand in, from nothing but the ciphertext size and the chunk size. `RangeReader` then
opens those chunks. It does not look ahead: which chunk is final is what the caller
was told the size is.
-/

namespace BlindBucket.Stream

open ByteIo Blocks List

/-- The ciphertext a plaintext range maps to. -/
structure Range where
  firstChunk : Nat
  lastChunk : Nat
  cipherStart : Nat
  cipherEnd : Nat
  skip : Nat
  length : Nat
  lastIsFinal : Bool
  needsSeparateHeader : Bool
deriving DecidableEq, Repr

/-- How the caller wants chunk `i` opened. -/
def Range.flag (rng : Range) (i : Nat) : Bool := decide (i = rng.lastChunk) && rng.lastIsFinal

/-- The bytes of `T` a range asks for, in a segment with chunks of `C` bytes. -/
def Range.slice (rng : Range) (C : Nat) (T : Bytes) : Bytes :=
  (T.drop (rng.firstChunk * C + rng.skip)).take rng.length

/-- The arithmetic of `MapRange` for the bytes `a` to `e` of `n`, all of which are there. -/
def rangeOf (log2C n a e : Nat) : Range :=
  let c := 2 ^ log2C
  let first := a / c
  let last := e / c
  let stride := c + tagSize
  { firstChunk := first
    lastChunk := last
    cipherStart := headerSize + first * stride
    cipherEnd := min (headerSize + (last + 1) * stride) (sealedLen log2C n) - 1
    skip := a - first * c
    length := e - a + 1
    lastIsFinal := decide (last + 1 = count c n)
    needsSeparateHeader := decide (0 < first) }

/-- `MapRange`. From the checks on, nothing is negative. -/
def mapRange (start fin sealed : Int) (log2C : Nat) : Try Range := do
  let plain ← openedSize sealed log2C
  if start < 0 ∨ fin < start then
    .error (wrapf .rangeNotSatisfiable "%w: %d-%d" [.int start, .int fin])
  else if plain ≤ start then
    .error (wrapf .rangeNotSatisfiable "%w: offset %d is past the end of %d bytes"
      [.int start, .int plain])
  else
    let fin := if plain ≤ fin then plain - 1 else fin
    let c : Int := 2 ^ log2C
    let first := start.tdiv c
    let last := fin.tdiv c
    let chunks := chunkCount plain log2C
    let stride := c + tagSize
    let cipherStart := headerSize + first * stride
    let cipherEnd := headerSize + (last + 1) * stride
    let cipherEnd := if sealed < cipherEnd then sealed else cipherEnd
    .ok { firstChunk := first.toNat
          lastChunk := last.toNat
          cipherStart := cipherStart.toNat
          cipherEnd := (cipherEnd - 1).toNat
          skip := (start - first * c).toNat
          length := (fin - start + 1).toNat
          lastIsFinal := decide (last = chunks - 1)
          needsSeparateHeader := decide (0 < first) }

theorem tdiv_natCast (a b : Nat) : (a : Int).tdiv (b : Int) = ((a / b : Nat) : Int) := by
  rfl

variable {log2C : Nat} {rng : Range} {dek : Bytes} {want : SegmentParams}

/-- On a size that an encoder produces, `MapRange` computes `rangeOf`. -/
theorem mapRange_natCast {n a b : Nat} (hc : ValidLog2 log2C) (hn : n ≤ maxPlaintextSize) (hab : a ≤ b) (han : a < n) :
    mapRange a b (sealedLen log2C n) log2C = .ok (rangeOf log2C n a (min b (n - 1))) := by
  have hopen := openedSize_sealedLen hc hn
  have hfin : (if (n : Int) ≤ b then (n : Int) - 1 else b) = ((min b (n - 1) : Nat) : Int) := by
    split <;> omega
  unfold mapRange rangeOf
  rw [hopen]
  simp only [bind, Except.bind]
  rw [if_neg (by omega), if_neg (by omega), hfin, two_pow_cast, tdiv_natCast, tdiv_natCast,
    chunkCount_natCast]
  generalize 2 ^ log2C = c at *
  generalize a / c = first at *
  generalize min b (n - 1) / c = last at *
  -- the products are the same numbers on both sides of the cast
  have hend : (headerSize : Int) + ((last : Int) + 1) * ((c : Int) + tagSize)
      = ((headerSize + (last + 1) * (c + tagSize) : Nat) : Int) := by push_cast; rfl
  congr 2
  · split <;> omega
  · omega
  · omega
  · exact decide_eq_decide.mpr (by omega)
  · exact decide_eq_decide.mpr (by omega)

theorem mapRange_ok_iff {start fin sealed : Int} : mapRange start fin sealed log2C = .ok rng ↔
      ∃ n a b : Nat, ValidLog2 log2C ∧ n ≤ maxPlaintextSize ∧ sealed = sealedLen log2C n
        ∧ start = a ∧ fin = b ∧ a ≤ b ∧ a < n ∧ rng = rangeOf log2C n a (min b (n - 1)) := by
  constructor
  · intro h
    cases ho : openedSize sealed log2C with
    | error e =>
      unfold mapRange at h
      rw [ho] at h
      simp [bind, Except.bind] at h
    | ok plain =>
      obtain ⟨hc, n, rfl, hn, rfl⟩ := openedSize_ok_iff.mp ho
      have hchecks : 0 ≤ start ∧ start ≤ fin ∧ start < n := by
        unfold mapRange at h
        rw [ho] at h
        obtain ⟨_, h⟩ := else_ok h
        obtain ⟨_, h⟩ := else_ok h
        exact ⟨by omega, by omega, by omega⟩
      obtain ⟨h0, h1, h2⟩ := hchecks
      obtain ⟨a, rfl⟩ := Int.eq_ofNat_of_zero_le h0
      obtain ⟨b, rfl⟩ := Int.eq_ofNat_of_zero_le (Int.le_trans h0 h1)
      rw [mapRange_natCast hc hn (by omega) (by omega)] at h
      exact ⟨n, a, b, hc, hn, rfl, rfl, rfl, by omega, by omega, (Except.ok.inj h).symm⟩
  · rintro ⟨n, a, b, hc, hn, rfl, rfl, rfl, hab, han, rfl⟩
    exact mapRange_natCast hc hn hab han

/-! ## The reader -/

/-- The state of a range reader. `held` says that it has not given its buffer back yet. -/
structure RangeReader (σ : Type) where
  src : σ
  sealer : Sealer
  rng : Range
  log2C : Nat
  held : Bool := true
  plain : Bytes := []
  next : Nat
  remaining : Nat
  skip : Nat
  err : Option Error := none
  done : Bool := false

def newRangeReader {σ : Type} (K : Crypto) (src : σ) (rawHeader dek : Bytes)
    (want : SegmentParams) (rng : Range) : Try (RangeReader σ) := do
  want.validateExpectation
  let h ← parseHeader rawHeader
  h.requireParams want
  if rng.lastChunk < rng.firstChunk then
    .error (errorf "stream: range ends at chunk %d before it starts at %d"
      [.int rng.lastChunk, .int rng.firstChunk])
  else
    let s ← newSealer K dek h
    .ok { src := src, sealer := s, rng := rng, log2C := h.params.log2ChunkSize,
          next := rng.firstChunk, remaining := rng.length, skip := rng.skip }

namespace RangeReader

variable {σ : Type}

/-- The first error stays, and the buffer goes. -/
def setErr (r : RangeReader σ) (e : Error) : Option Error × RangeReader σ :=
  (r.err.or (some e), { r with err := r.err.or (some e), held := false, plain := [] })

def release (r : RangeReader σ) : RangeReader σ := { r with held := false, plain := [] }

/-- The end of `fill`: open what was read, then cut away what was not asked for. -/
def openNext (r : RangeReader σ) (sealed : Bytes) (final : Bool) : Option Error × RangeReader σ :=
  match r.sealer.openChunk sealed r.next final with
  | .error e => r.setErr e
  | .ok plain =>
    if 0 < r.skip ∧ plain.length ≤ r.skip then
      r.setErr (chunkErrorf r.next "chunk is shorter than the offset into it" [])
    else
      (none, { r with plain := (plain.drop r.skip).take r.remaining, skip := 0, next := r.next + 1 })

/-- Whether the next chunk is opened as the segment's final one. -/
def isFinal (r : RangeReader σ) : Bool := decide (r.next = r.rng.lastChunk) && r.rng.lastIsFinal

/-- `fill` once the source ended early: only the segment's own final chunk may be short. -/
def fillShort (r : RangeReader σ) (out : Bytes) : Option Error × RangeReader σ :=
  if r.isFinal = false then
    r.setErr (chunkErrorf r.next "ciphertext ended after %d bytes, short of a full chunk"
      [.int out.length])
  else if out.length < tagSize then
    r.setErr (chunkErrorf r.next "truncated: %d bytes left, which is less than a bare tag"
      [.int out.length])
  else r.openNext out r.isFinal

theorem setErr_fst_ne (r : RangeReader σ) (e : Error) : (r.setErr e).1 ≠ none := by
  unfold setErr
  cases r.err <;> simp

variable {r r' : RangeReader σ}

theorem openNext_none {sealed : Bytes} {final : Bool}
    (h : r.openNext sealed final = (none, r')) :
    ∃ p, r.sealer.openChunk sealed r.next final = .ok p ∧ (0 < r.skip → r.skip < p.length)
      ∧ r' = { r with plain := (p.drop r.skip).take r.remaining, skip := 0, next := r.next + 1 } := by
  unfold openNext at h
  split at h
  · exact absurd (congrArg Prod.fst h) (setErr_fst_ne r _)
  next p hp =>
    split at h
    · exact absurd (congrArg Prod.fst h) (setErr_fst_ne r _)
    next hskip =>
      exact ⟨p, hp, fun h0 => by omega, (congrArg Prod.snd h).symm⟩

variable [ByteReader σ GoErr]

/-- Read, verify and decrypt the next chunk of the range. -/
def fill (r : RangeReader σ) : Option Error × RangeReader σ :=
  if r.held = false then r.setErr (integrityf .chunk "reader already released" [])
  else if r.rng.lastChunk < r.next then
    r.setErr (chunkErrorf r.next "read past the end of the requested range" [])
  else
    let q := readFull r.src (2 ^ r.log2C + tagSize)
    match q.err with
    | none => ({ r with src := q.next }).openNext q.out r.isFinal
    | some .unexpectedEOF | some .eof => ({ r with src := q.next }).fillShort q.out
    | some e => ({ r with src := q.next }).setErr e

def verifyFirst (r : RangeReader σ) : Option Error × RangeReader σ :=
  match r.err with
  | some e => (some e, r)
  | none => if r.rng.firstChunk < r.next ∨ r.done = true then (none, r) else r.fill

/-- Hand out up to `k` bytes of the plaintext at hand. -/
def serve (r : RangeReader σ) (k : Nat) : RangeReader σ :=
  let n := (r.plain.take k).length
  { r with plain := r.plain.drop k, remaining := r.remaining - n, done := r.done || decide (r.remaining - n = 0) }

/--
The loop of `Read`. Only the last chunk of the range can leave nothing to serve, and
after it `fill` fails, so two rounds are enough (`Filler.Reads.last`).
-/
def readLoop (k : Nat) : Nat → RangeReader σ → ReadResult (RangeReader σ) GoErr
  | 0, r => ⟨[], none, r⟩
  | fuel + 1, r =>
    if r.plain = [] then
      if r.remaining = 0 ∨ r.done = true then ⟨[], some .eof, r.release⟩
      else
        match r.fill with
        | (some e, r') => ⟨[], some e, r'⟩
        | (none, r') => readLoop k fuel r'
    else ⟨r.plain.take k, none, r.serve k⟩

instance : ByteReader (RangeReader σ) GoErr where
  read r k :=
    match r.err with
    | some e => ⟨[], some e, r⟩
    | none => readLoop k 2 r

/-! ## One `fill` -/

theorem fill_past (h : r.rng.lastChunk < r.next) : (r.fill).1 ≠ none := by
  unfold fill
  split
  · exact setErr_fst_ne _ _
  · exact setErr_fst_ne _ _

variable [LawfulReader σ]

/-- How one `fill` can go. -/
inductive FillCase (r : RangeReader σ) : Prop where
  /-- The bytes of the next chunk are read and opened. -/
  | chunk (src : σ) (hnext : r.next ≤ r.rng.lastChunk) (hs : Steps r.src src)
      (hrest : content src = (content r.src).drop (2 ^ r.log2C + tagSize))
      (hlen : 2 ^ r.log2C + tagSize ≤ (content r.src).length ∨ r.isFinal = true)
      (eq : r.fill = ({ r with src := src }).openNext
        ((content r.src).take (2 ^ r.log2C + tagSize)) r.isFinal)
  /-- They cannot be had. -/
  | cut (e : Error) (src : σ) (hne : e ≠ .eof) (hs : Steps r.src src) (why : r.rng.lastChunk < r.next
        ∨ ((content r.src).length < 2 ^ r.log2C + tagSize
          ∧ (r.isFinal = false ∨ (content r.src).length < tagSize))
        ∨ ∃ e', Ends r.src e' ∧ e' ≠ .eof)
      (eq : r.fill = ({ r with src := src }).setErr e)

theorem fill_cases (hheld : r.held = true) : r.FillCase := by
  have hout := readFull_out r.src (2 ^ r.log2C + tagSize)
  have hcont := readFull_content r.src (2 ^ r.log2C + tagSize)
  have hsteps := readFull_steps r.src (2 ^ r.log2C + tagSize)
  rcases Nat.lt_or_ge r.rng.lastChunk r.next with hpast | hnext
  · have hfill : r.fill = r.setErr (chunkErrorf r.next "read past the end of the requested range" []) := by
      unfold fill
      rw [if_neg (by rw [hheld]; simp), if_pos hpast]
    exact .cut _ r.src (by simp [chunkErrorf]) (Steps.refl _) (Or.inl hpast) hfill
  · have hfill := fill.eq_1 r
    rw [if_neg (by rw [hheld]; simp), if_neg (by omega)] at hfill
    dsimp only at hfill
    rcases Nat.lt_or_ge (content r.src).length (2 ^ r.log2C + tagSize) with hlen | hlen
    · -- the source ends within the chunk
      obtain ⟨e, herr, hend⟩ := readFull_err_some hlen
      rw [herr, hout] at hfill
      generalize (readFull r.src (2 ^ r.log2C + tagSize)).next = src at *
      have htake := take_of_length_le (hlen.le)
      have hshort : r.fill = ({ r with src := src }).fillShort
          ((content r.src).take (2 ^ r.log2C + tagSize)) → r.FillCase := by
        intro heq
        unfold fillShort at heq
        split at heq
        next hf =>
          exact .cut _ src (by simp [chunkErrorf]) hsteps (Or.inr (Or.inl ⟨hlen, Or.inl hf⟩)) heq
        next hf =>
          split at heq
          next htag =>
            rw [htake] at htag
            exact .cut _ src (by simp [chunkErrorf]) hsteps
              (Or.inr (Or.inl ⟨hlen, Or.inr htag⟩)) heq
          · have hf' : r.isFinal = true := Bool.not_eq_false _ ▸ hf
            exact .chunk src hnext hsteps hcont (Or.inr hf') heq
      have hbad : ∀ e', Ends r.src e' → e' ≠ .eof → r.fill = ({ r with src := src }).setErr e' → r.FillCase :=
        fun e' h1 h2 heq => .cut e' src h2 hsteps (Or.inr (Or.inr ⟨e', h1, h2⟩)) heq
      cases e with
      | eof =>
        by_cases hnil : content r.src = []
        · rw [shortErr, if_pos (by simp [hnil])] at hfill
          exact hshort hfill
        · rw [shortErr, if_neg (by simp [hnil])] at hfill
          exact hshort hfill
      | unexpectedEOF => exact hshort hfill
      | noProgress | other e => exact hbad _ hend (by simp) hfill
    · rw [readFull_err_none hlen, hout] at hfill
      exact .chunk _ hnext hsteps hcont (Or.inl hlen) hfill

theorem fill_none (h : r.fill = (none, r')) : ∃ src p, r.next ≤ r.rng.lastChunk ∧ Steps r.src src
      ∧ content src = (content r.src).drop (2 ^ r.log2C + tagSize)
      ∧ (2 ^ r.log2C + tagSize ≤ (content r.src).length ∨ r.isFinal = true)
      ∧ r.sealer.openChunk ((content r.src).take (2 ^ r.log2C + tagSize)) r.next r.isFinal = .ok p
      ∧ (0 < r.skip → r.skip < p.length)
      ∧ r' = { r with src := src, plain := (p.drop r.skip).take r.remaining, skip := 0, next := r.next + 1 } := by
  have hheld : r.held = true := by
    by_contra hn
    unfold fill at h
    rw [if_pos (by simpa using hn)] at h
    exact absurd (congrArg Prod.fst h) (setErr_fst_ne r _)
  cases fill_cases hheld with
  | cut e src _ _ _ heq =>
    rw [heq] at h
    exact absurd (congrArg Prod.fst h) (setErr_fst_ne _ _)
  | chunk src hnext hs hrest hlen heq =>
    rw [heq] at h
    obtain ⟨p, hp, hskip, hr'⟩ := openNext_none h
    exact ⟨src, p, hnext, hs, hrest, hlen, hp, hskip, hr'⟩

theorem fill_plain (hrem : r.remaining ≠ 0) (h : r.fill = (none, r')) :
    r'.plain ≠ [] ∨ r'.rng.lastChunk < r'.next := by
  obtain ⟨src, p, hnext, _, _, hfull | hfinal, hp, hskip, rfl⟩ := fill_none h
  · -- a whole chunk has plaintext beyond what is skipped
    left
    have hplen := Sealer.openChunk_length hp
    rw [length_take] at hplen
    have hpos := two_pow_pos' r.log2C
    show (p.drop r.skip).take r.remaining ≠ []
    intro hnil
    have hz := congrArg List.length hnil
    rw [length_take, length_drop, length_nil] at hz
    rcases Nat.eq_zero_or_pos r.skip with h0 | h0
    · omega
    · omega
  · right
    have hlast : r.next = r.rng.lastChunk := by
      have := (Bool.and_eq_true _ _).mp hfinal
      exact of_decide_eq_true this.1
    show r.rng.lastChunk < r.next + 1
    omega

/-! ## Every sequence of reads -/

/-- The parts of a range reader that a read is made of. -/
def filler : Filler (RangeReader σ) GoErr :=
  ⟨err, plain, fun r => r.remaining = 0 ∨ r.done = true, release, serve, fill⟩

instance : DecidablePred (filler (σ := σ)).ended :=
  fun r => inferInstanceAs (Decidable (r.remaining = 0 ∨ r.done = true))

omit [LawfulReader σ] in
theorem readLoop_eq (k n : Nat) (r : RangeReader σ) : readLoop k n r = filler.loop k n r := by
  induction n generalizing r with
  | zero => rfl
  | succ n ih =>
    simp only [readLoop, Filler.loop, filler, ih]
    rcases r.fill with ⟨_ | e, r'⟩
    · rfl
    · rfl

theorem filler_reads : (filler (σ := σ)).Reads where
  failed r k e he := by simp only [ByteIo.read, show r.err = some e from he]
  reads r k he := by simp only [ByteIo.read, show r.err = none from he, readLoop_eq]
  serve _ _ := rfl
  last _ _ hd hf hp := Or.inr (fill_past ((fill_plain (fun h => hd (Or.inl h)) hf).resolve_left (fun h => h hp)))

end RangeReader

/-! ## What a range reader emits -/

/--
The reader is to emit `len` bytes, and `D` is what the plaintext `T` has at that place.
It emits the bytes of `T` from its position on, as long as every chunk that opens is
the block of `T` with that number.
-/
structure Emits (C : Nat) (T D : Bytes) (len : Nat) (r : RangeReader σ) (tail : Bytes) : Prop where
  err : r.err = none
  plain_le : r.plain.length ≤ r.remaining
  tail_eq : tail = (T.drop (r.next * C + r.skip)).take (r.remaining - r.plain.length)
  done : r.done = true → r.remaining = 0
  sofar : ∃ pre, D = pre ++ (r.plain ++ tail) ∧ pre.length + r.remaining = len

variable {σ : Type} {C len : Nat} {T D tail : Bytes} {r : RangeReader σ}

theorem Emits.serve (h : Emits C T D len r tail) (k : Nat) : Emits C T D len (r.serve k) tail := by
  have hle := h.plain_le
  have hlen : (r.plain.take k).length + (r.plain.drop k).length = r.plain.length := by
    rw [length_take, length_drop]; omega
  refine ⟨h.err, ?_, ?_, ?_, ?_⟩
  · show (r.plain.drop k).length ≤ r.remaining - (r.plain.take k).length
    omega
  · show tail = (T.drop (r.next * C + r.skip)).take (r.remaining - (r.plain.take k).length - (r.plain.drop k).length)
    rw [h.tail_eq]
    congr 1
    omega
  · intro hd
    show r.remaining - (r.plain.take k).length = 0
    rcases (Bool.or_eq_true _ _).mp hd with h1 | h1
    · rw [h.done h1, Nat.zero_sub]
    · exact of_decide_eq_true h1
  · obtain ⟨pre, hD, hpre⟩ := h.sofar
    refine ⟨pre ++ r.plain.take k, ?_, ?_⟩
    · show D = pre ++ r.plain.take k ++ (r.plain.drop k ++ tail)
      rw [hD, append_assoc, ← append_assoc (r.plain.take k), take_append_drop]
    · show (pre ++ r.plain.take k).length + (r.remaining - (r.plain.take k).length) = len
      rw [length_append]
      omega

/-- At the end everything was emitted, and all of it was there. -/
theorem Emits.finished (h : Emits C T D len r tail) (hp : r.plain = [])
    (hd : r.remaining = 0 ∨ r.done = true) : tail = [] ∧ D.length = len := by
  have hrem : r.remaining = 0 := hd.elim id h.done
  have htail : tail = [] := by rw [h.tail_eq, hrem, Nat.zero_sub, take_zero]
  obtain ⟨pre, hD, hpre⟩ := h.sofar
  rw [hp, htail, append_nil, append_nil] at hD
  exact ⟨htail, by rw [hD]; omega⟩

/-- The next block, less what is to be skipped, is what comes next. -/
theorem Emits.next_block (h : Emits C T D len r tail) (hp : r.plain = [])
    (hskip : 0 < r.skip → r.skip < (block C T r.next).length) (src : σ) :
    ∃ tail', tail = ((block C T r.next).drop r.skip).take r.remaining ++ tail'
      ∧ Emits C T D len { r with src := src, plain := ((block C T r.next).drop r.skip).take r.remaining,
                                 skip := 0, next := r.next + 1 } tail' := by
  have hsk : r.skip ≤ (block C T r.next).length := by
    rcases Nat.eq_zero_or_pos r.skip with h0 | h0
    · omega
    · exact Nat.le_of_lt (hskip h0)
  have hsplit : T.drop (r.next * C + r.skip) = (block C T r.next).drop r.skip ++ T.drop ((r.next + 1) * C) := by
    rw [← drop_drop, drop_block, drop_append_of_le_length hsk]
  have htail : tail = ((block C T r.next).drop r.skip).take r.remaining
      ++ (T.drop ((r.next + 1) * C)).take (r.remaining - ((block C T r.next).drop r.skip).length) := by
    rw [h.tail_eq, hp, length_nil, Nat.sub_zero, hsplit, take_append]
  refine ⟨_, htail, h.err, ?_, ?_, h.done, ?_⟩
  · exact length_take_le ..
  · show _ = (T.drop ((r.next + 1) * C + 0)).take
      (r.remaining - (((block C T r.next).drop r.skip).take r.remaining).length)
    rw [length_take]
    congr 1
    omega
  · obtain ⟨pre, hD, hpre⟩ := h.sofar
    refine ⟨pre, ?_, hpre⟩
    rw [hp, nil_append] at hD
    rw [hD, htail]

theorem Emits.init (hnext : r.next = rng.firstChunk) (hskip : r.skip = rng.skip) (hrem : r.remaining = rng.length)
    (herr : r.err = none) (hp : r.plain = []) (hd : r.done = false) :
    Emits C T (rng.slice C T) rng.length r (rng.slice C T) := by
  refine ⟨herr, by rw [hp]; exact Nat.zero_le _, ?_, ?_, [], ?_, ?_⟩
  · rw [hnext, hskip, hrem, hp]; rfl
  · intro h; rw [hd] at h; simp at h
  · rw [hp]; rfl
  · rw [hrem]; exact Nat.zero_add _

/-! ## Opening a range -/

structure RangeOpened {σ : Type} (K : Crypto) (src : σ) (raw dek : Bytes)
    (want : SegmentParams) (rng : Range) (h : Header) (r : RangeReader σ) : Prop where
  raw_eq : h.raw = raw
  params : h.params.Meets want
  dek_length : dek.length = keySize
  le : rng.firstChunk ≤ rng.lastChunk
  fresh : r = { src := src, sealer := Sealer.of K dek h, rng := rng,
                log2C := h.params.log2ChunkSize, next := rng.firstChunk,
                remaining := rng.length, skip := rng.skip }

theorem newRangeReader_ok {K : Crypto} {src : σ} {raw : Bytes} {r : RangeReader σ}
    (hr : newRangeReader K src raw dek want rng = .ok r) :
    ∃ h, RangeOpened K src raw dek want rng h r := by
  obtain ⟨_, _, hr⟩ := bind_ok hr
  obtain ⟨h, hp, hr⟩ := bind_ok hr
  obtain ⟨_, hq, hr⟩ := bind_ok hr
  obtain ⟨hle, hr⟩ := else_ok hr
  obtain ⟨s, hs, hr⟩ := bind_ok hr
  cases hr
  obtain ⟨hlen, rfl⟩ := newSealer_ok_iff.mp hs
  exact ⟨h, parseHeader_raw hp, Header.requireParams_ok.mp hq, hlen, by omega, rfl⟩

theorem newRangeReader_of_header (K : Crypto) (src : σ) {h : Header} (hwant : want.validateExpectation = .ok ())
    (hmeets : h.params.Meets want) (hlen : dek.length = keySize) (hle : rng.firstChunk ≤ rng.lastChunk) :
    ∃ r, newRangeReader K src h.raw dek want rng = .ok r
      ∧ RangeOpened K src h.raw dek want rng h r := by
  refine ⟨_, ?_, rfl, hmeets, hlen, hle, rfl⟩
  unfold newRangeReader
  simp only [bind, Except.bind, hwant, parseHeader_of_raw, Header.requireParams_ok.mpr hmeets,
    newSealer_ok_iff.mpr ⟨hlen, rfl⟩]
  rw [if_neg (by omega)]

end BlindBucket.Stream
