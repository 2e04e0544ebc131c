import BlindBucket.Errors
import BlindBucket.Lib.Bytes

/-!
# Segment headers

A segment starts with a 32-byte header: magic, version, chunk size, flags, a reserved
byte, the part number and the salt. Every chunk is sealed with these bytes as
associated data, so what a decoder has to know about headers is that they can be
read in one way only: `parseHeader` accepts exactly the encodings, and
`headerBytes_inj` says that an encoding fixes its fields.
-/

namespace BlindBucket.Stream

open ByteIo List

/-! ## Constants -/

def headerSize : Nat := 32
def tagSize : Nat := 16
def nonceSize : Nat := 12
def saltSize : Nat := 20
def keySize : Nat := 32

def version : UInt8 := 1

def minLog2ChunkSize : Nat := 12
def maxLog2ChunkSize : Nat := 20

/-- The largest S3 part number. -/
def maxParts : Nat := 10000

/-- `"BLBK"`. -/
def magic : Bytes := [0x42, 0x4C, 0x42, 0x4B]

def flagMultipart : UInt8 := 1

/-- 64 TiB: the most plaintext one segment takes. -/
def maxPlaintextSize : Nat := 2 ^ 46

def offVersion : Nat := 4
def offLog2C : Nat := 5
def offFlags : Nat := 6
def offReserved : Nat := 7
def offIndex : Nat := 8
def offSalt : Nat := 12

abbrev Salt := { s : Bytes // s.length = saltSize }

/-- The salt of a part whose salt is not known. -/
def zeroSalt : Salt := ⟨replicate saltSize 0, length_replicate⟩

/-! ## Segment parameters -/

/-- The authenticated fields of a segment header. -/
structure SegmentParams where
  log2ChunkSize : Nat
  multipart : Bool
  index : Nat
deriving DecidableEq, Repr

/-- As the chunk size of an expectation: any. -/
def anyChunkSize : Nat := 0

def validateLog2ChunkSize (log2C : Nat) : Try Unit :=
  if log2C < minLog2ChunkSize ∨ maxLog2ChunkSize < log2C then
    .error (errorf "stream: log2 chunk size %d outside %d..%d"
      [.int log2C, .int minLog2ChunkSize, .int maxLog2ChunkSize])
  else .ok ()

def SegmentParams.validateIdentity (p : SegmentParams) : Try Unit :=
  if p.multipart then
    if p.index < 1 ∨ maxParts < p.index then
      .error (errorf "stream: multipart segment index %d outside 1..%d"
        [.int p.index, .int maxParts])
    else .ok ()
  else if p.index ≠ 0 then
    .error (errorf "stream: single-part segment must have index 0, got %d" [.int p.index])
  else .ok ()

def SegmentParams.validate (p : SegmentParams) : Try Unit := do
  validateLog2ChunkSize p.log2ChunkSize
  p.validateIdentity

def SegmentParams.validateExpectation (p : SegmentParams) : Try Unit := do
  if p.log2ChunkSize ≠ anyChunkSize then
    validateLog2ChunkSize p.log2ChunkSize
  p.validateIdentity

def ValidLog2 (c : Nat) : Prop := minLog2ChunkSize ≤ c ∧ c ≤ maxLog2ChunkSize

instance (c : Nat) : Decidable (ValidLog2 c) := inferInstanceAs (Decidable (_ ∧ _))

/-- The flag and the index agree. -/
def SegmentParams.IdentityOk (p : SegmentParams) : Prop :=
  if p.multipart then 1 ≤ p.index ∧ p.index ≤ maxParts else p.index = 0

instance (p : SegmentParams) : Decidable p.IdentityOk := by
  unfold SegmentParams.IdentityOk; infer_instance

def SegmentParams.Valid (p : SegmentParams) : Prop := ValidLog2 p.log2ChunkSize ∧ p.IdentityOk

instance (p : SegmentParams) : Decidable p.Valid := inferInstanceAs (Decidable (_ ∧ _))

variable {c : Nat} {b : Bytes} {want : SegmentParams}

theorem validateLog2ChunkSize_ok : validateLog2ChunkSize c = .ok () ↔ ValidLog2 c := by
  unfold validateLog2ChunkSize ValidLog2
  split
  next h =>
    simp only [reduceCtorEq, false_iff]
    omega
  next h =>
    simp only [true_iff]
    omega

variable {p : SegmentParams}

theorem SegmentParams.validateIdentity_ok : p.validateIdentity = .ok () ↔ p.IdentityOk := by
  unfold SegmentParams.validateIdentity SegmentParams.IdentityOk
  by_cases hm : p.multipart
  · rw [if_pos hm]
    split
    next h =>
      simp only [reduceCtorEq, false_iff]
      omega
    next h =>
      simp only [true_iff]
      omega
  · rw [if_neg hm, if_neg hm]
    split
    next h =>
      simp [h]
    next h =>
      simpa using h

theorem SegmentParams.validate_ok : p.validate = .ok () ↔ p.Valid := by
  unfold SegmentParams.validate SegmentParams.Valid
  rw [← validateLog2ChunkSize_ok, ← SegmentParams.validateIdentity_ok]
  cases validateLog2ChunkSize p.log2ChunkSize with
  | error e => simp [bind, Except.bind]
  | ok u => cases u; simp [bind, Except.bind]

/-- An encoder's parameters, or the same with the chunk size left open, are an expectation. -/
theorem SegmentParams.validateExpectation_ok : p.validateExpectation = .ok () ↔
      (p.log2ChunkSize = anyChunkSize ∨ ValidLog2 p.log2ChunkSize) ∧ p.IdentityOk := by
  unfold SegmentParams.validateExpectation
  rw [← validateLog2ChunkSize_ok, ← SegmentParams.validateIdentity_ok]
  by_cases h : p.log2ChunkSize = anyChunkSize
  · simp [h]
  · cases validateLog2ChunkSize p.log2ChunkSize with
    | error e => simp [h, bind, Except.bind]
    | ok u => cases u; simp [bind, Except.bind]

theorem validateLog2ChunkSize_ne_eof : validateLog2ChunkSize c ≠ .error .eof := by
  unfold validateLog2ChunkSize
  split <;> simp [errorf]

theorem SegmentParams.validateIdentity_ne_eof : p.validateIdentity ≠ .error .eof := by
  unfold SegmentParams.validateIdentity
  repeat' split
  all_goals simp [errorf]

theorem SegmentParams.validate_ne_eof : p.validate ≠ .error .eof :=
  bind_ne_error validateLog2ChunkSize_ne_eof fun _ => p.validateIdentity_ne_eof

theorem SegmentParams.validateExpectation_ne_eof : p.validateExpectation ≠ .error .eof := by
  unfold SegmentParams.validateExpectation
  by_cases h : p.log2ChunkSize = anyChunkSize
  · simpa [h] using p.validateIdentity_ne_eof
  · rw [if_pos h]
    exact p.validate_ne_eof

theorem SegmentParams.Valid.index_lt (h : p.Valid) : p.index < 256 ^ 4 := by
  have hid := h.2
  unfold SegmentParams.IdentityOk at hid
  split at hid
  · unfold maxParts at hid; omega
  · omega

/-! ## The header -/

/-- The plaintext size of every chunk but the last. -/
def SegmentParams.chunkSize (p : SegmentParams) : Nat := 2 ^ p.log2ChunkSize

def SegmentParams.flags (p : SegmentParams) : UInt8 := if p.multipart then flagMultipart else 0

/-- The wire form of a header, field by field in the order of the offsets. -/
def headerBytes (p : SegmentParams) (salt : Salt) : Bytes :=
  magic ++ [version, UInt8.ofNat p.log2ChunkSize, p.flags, 0] ++ beBytes 4 p.index ++ salt.val

/--
A segment header. `raw` is what stands on the wire; that it is the encoding of the
other fields is carried along, so that a header which decodes to something else
cannot be built.
-/
structure Header where
  params : SegmentParams
  salt : Salt
  raw : Bytes
  valid : params.Valid
  raw_eq : raw = headerBytes params salt

@[simp] theorem headerBytes_length (p : SegmentParams) (salt : Salt) : (headerBytes p salt).length = headerSize := by
  simp [headerBytes, magic, headerSize, salt.property, saltSize]

theorem Header.raw_length (h : Header) : h.raw.length = headerSize := by
  rw [h.raw_eq, headerBytes_length]

variable {h₁ h₂ h : Header}

theorem Header.ext_raw (hp : h₁.params = h₂.params) (hs : h₁.salt = h₂.salt) : h₁ = h₂ := by
  obtain ⟨p₁, s₁, r₁, v₁, e₁⟩ := h₁
  obtain ⟨p₂, s₂, r₂, v₂, e₂⟩ := h₂
  obtain rfl : p₁ = p₂ := hp
  obtain rfl : s₁ = s₂ := hs
  obtain rfl : r₁ = r₂ := e₁.trans e₂.symm
  rfl

def newHeaderWithSalt (p : SegmentParams) (salt : Salt) : Try Header :=
  match h : p.validate with
  | .error e => .error e
  | .ok _ => .ok ⟨p, salt, headerBytes p salt, SegmentParams.validate_ok.mp h, rfl⟩

theorem firstPart_valid : (⟨12, true, 1⟩ : SegmentParams).Valid := by decide

def Header.make (p : SegmentParams) (salt : Salt) (h : p.Valid) : Header :=
  ⟨p, salt, headerBytes p salt, h, rfl⟩

theorem newHeaderWithSalt_ok {salt : Salt} (h : p.Valid) : newHeaderWithSalt p salt = .ok (Header.make p salt h) := by
  unfold newHeaderWithSalt
  split
  next e he =>
    rw [SegmentParams.validate_ok.mpr h] at he
    simp at he
  · rfl

def Header.chunkSize (h : Header) : Nat := h.params.chunkSize

theorem Header.chunkSize_pos (h : Header) : 0 < h.chunkSize := Nat.pow_pos (by decide)

/-! ## Reading a header -/

/-- The part number stands in four bytes. -/
def headerIndex (b : Bytes) : Nat := ofBe ((b.drop offIndex).take 4)

def headerParams (b : Bytes) : SegmentParams where
  log2ChunkSize := (b.getD offLog2C 0).toNat
  multipart := b.getD offFlags 0 &&& flagMultipart != 0
  index := headerIndex b

theorem flags_cases (f : UInt8) (h : f &&& ~~~flagMultipart = 0) : f = 0 ∨ f = flagMultipart := by
  have key : ∀ n : Fin 256, UInt8.ofFin n &&& ~~~flagMultipart = 0 →
      UInt8.ofFin n = 0 ∨ UInt8.ofFin n = flagMultipart := by decide +kernel
  exact key f.toFin h

theorem drop_offSalt_length (h : b.length = headerSize) : (b.drop offSalt).length = saltSize := by
  rw [length_drop, h]; rfl

/-- What passes the checks of the fixed fields is the encoding of its own fields. -/
theorem eq_headerBytes (hlen : b.length = headerSize) (hmagic : b.take 4 = magic)
    (hversion : b.getD offVersion 0 = version) (hreserved : b.getD offReserved 0 = 0)
    (hflags : b.getD offFlags 0 &&& ~~~flagMultipart = 0) :
    b = headerBytes (headerParams b) ⟨b.drop offSalt, drop_offSalt_length hlen⟩ := by
  -- the twelve bytes before the salt, one by one
  obtain ⟨b0, b1, b2, b3, b4, b5, b6, b7, b8, b9, b10, b11, rest, rfl⟩ : ∃ b0 b1 b2 b3 b4 b5 b6 b7 b8 b9 b10 b11 rest,
        b = b0 :: b1 :: b2 :: b3 :: b4 :: b5 :: b6 :: b7 :: b8 :: b9 :: b10 :: b11 :: rest := by
    match b, hlen with
    | b0 :: b1 :: b2 :: b3 :: b4 :: b5 :: b6 :: b7 :: b8 :: b9 :: b10 :: b11 :: rest, _ =>
      exact ⟨b0, b1, b2, b3, b4, b5, b6, b7, b8, b9, b10, b11, rest, rfl⟩
  have hm : [b0, b1, b2, b3] = magic := hmagic
  have hv : b4 = version := hversion
  have hr : b7 = 0 := hreserved
  have hi : beBytes 4 (ofBe [b8, b9, b10, b11]) = [b8, b9, b10, b11] :=
    beBytes_ofBe [b8, b9, b10, b11]
  have hl : UInt8.ofNat b5.toNat = b5 := UInt8.ofNat_toNat
  have hf : (headerParams (b0 :: b1 :: b2 :: b3 :: b4 :: b5 :: b6 :: b7 :: b8 :: b9 :: b10 ::
      b11 :: rest)).flags = b6 := by
    show (if (b6 &&& flagMultipart != 0) = true then flagMultipart else 0) = b6
    rcases flags_cases b6 hflags with rfl | rfl <;> rfl
  unfold headerBytes
  rw [hf, ← hm, ← hv]
  show _ = [b0, b1, b2, b3] ++ [b4, UInt8.ofNat b5.toNat, b6, 0] ++
    beBytes 4 (ofBe [b8, b9, b10, b11]) ++ rest
  rw [hi, hl, ← hr]
  rfl

/-- Every field is checked before anything is derived from it. -/
def parseHeader (b : Bytes) : Try Header :=
  if hlen : b.length = headerSize then
    if hmagic : b.take 4 = magic then
      if hversion : b.getD offVersion 0 = version then
        match validateLog2ChunkSize (b.getD offLog2C 0).toNat with
        | .error e => .error (integrityOf .header e)
        | .ok _ =>
          if hreserved : b.getD offReserved 0 = 0 then
            if hflags : b.getD offFlags 0 &&& ~~~flagMultipart = 0 then
              match hvalid : (headerParams b).validate with
              | .error e => .error (integrityOf .header e)
              | .ok _ => .ok
                  { params := headerParams b
                    salt := ⟨b.drop offSalt, drop_offSalt_length hlen⟩
                    raw := b
                    valid := SegmentParams.validate_ok.mp hvalid
                    raw_eq := eq_headerBytes hlen hmagic hversion hreserved hflags }
            else .error (integrityf .header "undefined flag bits set: %#02x"
              [.int (b.getD offFlags 0).toNat])
          else .error (integrityf .header "reserved byte is %#02x, want 0x00"
            [.int (b.getD offReserved 0).toNat])
      else .error (integrityf .header "unsupported format version %d"
        [.int (b.getD offVersion 0).toNat])
    else .error (integrityf .header "bad magic %q" [.bytes (b.take 4)])
  else .error (integrityf .header "header is %d bytes, want %d" [.int b.length, .int headerSize])

theorem parseHeader_raw (hp : parseHeader b = .ok h) :
    h.raw = b := by
  unfold parseHeader at hp
  repeat' split at hp
  all_goals first
    | (obtain rfl := Except.ok.inj hp; rfl)
    | exact absurd hp (by simp)

theorem parseHeader_ne_eof : parseHeader b ≠ .error .eof := by
  intro hp
  unfold parseHeader at hp
  repeat' split at hp
  -- what a validator says is passed on as an integrity failure
  all_goals first
    | exact absurd (Except.error.inj hp) (by simp [integrityf])
    | (rename_i e he
       exact integrityOf_ne_eof (fun h => SegmentParams.validate_ne_eof (h ▸ he))
         (Except.error.inj hp))
    | (rename_i e he
       exact integrityOf_ne_eof (fun h => validateLog2ChunkSize_ne_eof (h ▸ he))
         (Except.error.inj hp))
    | exact absurd hp (by simp)

theorem headerParams_headerBytes (hp : p.Valid) (salt : Salt) : headerParams (headerBytes p salt) = p := by
  have hlog : (UInt8.ofNat p.log2ChunkSize).toNat = p.log2ChunkSize := by
    have hle := hp.1.2
    unfold maxLog2ChunkSize at hle
    have hbyte : (UInt8.ofNat p.log2ChunkSize).toNat = p.log2ChunkSize % 256 := UInt8.toNat_ofNat'
    rw [hbyte, Nat.mod_eq_of_lt (by omega)]
  have hflag : (p.flags &&& flagMultipart != 0) = p.multipart := by
    unfold SegmentParams.flags
    cases p.multipart <;> rfl
  have hindex : headerIndex (headerBytes p salt) = p.index := by
    have htake : ((headerBytes p salt).drop offIndex).take 4 = beBytes 4 p.index := by
      exact take_left' (beBytes_length 4 p.index)
    rw [headerIndex, htake, ofBe_beBytes hp.index_lt]
  show SegmentParams.mk (UInt8.ofNat p.log2ChunkSize).toNat (p.flags &&& flagMultipart != 0)
    (headerIndex (headerBytes p salt)) = p
  rw [hlog, hflag, hindex]

theorem drop_headerBytes (p : SegmentParams) (salt : Salt) : (headerBytes p salt).drop offSalt = salt.val := by
  unfold headerBytes
  simp [magic, offSalt]

theorem headerBytes_inj {q : SegmentParams} {s t : Salt} (hp : p.Valid) (hq : q.Valid)
    (h : headerBytes p s = headerBytes q t) : p = q ∧ s = t := by
  refine ⟨?_, Subtype.ext ?_⟩
  · rw [← headerParams_headerBytes hp s, h, headerParams_headerBytes hq t]
  · rw [← drop_headerBytes p s, h, drop_headerBytes]

theorem Header.raw_inj (h : h₁.raw = h₂.raw) : h₁ = h₂ := by
  rw [h₁.raw_eq, h₂.raw_eq] at h
  obtain ⟨hp, hs⟩ := headerBytes_inj h₁.valid h₂.valid h
  exact Header.ext_raw hp hs

theorem parseHeader_of_raw (h : Header) : parseHeader h.raw = .ok h := by
  have hparams : headerParams h.raw = h.params := by
    rw [h.raw_eq, headerParams_headerBytes h.valid]
  have hlen := h.raw_length
  have hmagic : h.raw.take 4 = magic := by rw [h.raw_eq]; rfl
  have hversion : h.raw.getD offVersion 0 = version := by rw [h.raw_eq]; rfl
  have hreserved : h.raw.getD offReserved 0 = 0 := by rw [h.raw_eq]; rfl
  have hflags : h.raw.getD offFlags 0 &&& ~~~flagMultipart = 0 := by
    rw [h.raw_eq]
    show h.params.flags &&& ~~~flagMultipart = 0
    unfold SegmentParams.flags
    split <;> rfl
  have hlog : validateLog2ChunkSize (h.raw.getD offLog2C 0).toNat = .ok () := by
    have hl : (h.raw.getD offLog2C 0).toNat = h.params.log2ChunkSize := by rw [← hparams]; rfl
    rw [hl]
    exact validateLog2ChunkSize_ok.mpr h.valid.1
  have hvalid : (headerParams h.raw).validate = .ok () := by
    rw [hparams]
    exact SegmentParams.validate_ok.mpr h.valid
  -- all checks pass, so some header comes out, and its wire form decides which
  obtain ⟨h', hp⟩ : ∃ h', parseHeader h.raw = .ok h' := by
    unfold parseHeader
    rw [dif_pos hlen, dif_pos hmagic, dif_pos hversion, hlog]
    dsimp only
    rw [dif_pos hreserved, dif_pos hflags]
    split
    next e he =>
      rw [hvalid] at he
      simp at he
    · exact ⟨_, rfl⟩
  rw [hp, Header.raw_inj (parseHeader_raw hp)]

/-! ## Expectations -/

/-- The header describes the segment that was asked for. -/
def Header.requireParams (h : Header) (want : SegmentParams) : Try Unit :=
  if want.log2ChunkSize ≠ anyChunkSize ∧ h.params.log2ChunkSize ≠ want.log2ChunkSize then
    .error (integrityf .header "chunk size 2^%d, want 2^%d"
      [.int h.params.log2ChunkSize, .int want.log2ChunkSize])
  else if h.params.multipart ≠ want.multipart then
    .error (integrityf .header "multipart flag is %t, want %t"
      [.bool h.params.multipart, .bool want.multipart])
  else if h.params.index ≠ want.index then
    .error (integrityf .header "segment index %d, want %d"
      [.int h.params.index, .int want.index])
  else .ok ()

/-- `p` is one of the segments `want` asks for. -/
def SegmentParams.Meets (p want : SegmentParams) : Prop :=
  (want.log2ChunkSize = anyChunkSize ∨ p.log2ChunkSize = want.log2ChunkSize)
    ∧ p.multipart = want.multipart ∧ p.index = want.index

theorem Header.requireParams_ok : h.requireParams want = .ok () ↔ h.params.Meets want := by
  unfold Header.requireParams SegmentParams.Meets
  split
  next hc =>
    simp [hc.1, hc.2]
  next hc =>
    have hc' : want.log2ChunkSize = anyChunkSize ∨ h.params.log2ChunkSize = want.log2ChunkSize := by
      by_contra hn
      exact hc (not_or.mp hn)
    split
    next hm =>
      simp [hm]
    next hm =>
      split
      next hi =>
        simp [hi]
      next hi =>
        simp only [true_iff]
        exact ⟨hc', not_not.mp hm, not_not.mp hi⟩

theorem Header.requireParams_ne_eof : h.requireParams want ≠ .error .eof := by
  unfold Header.requireParams
  repeat' split
  all_goals simp [integrityf]

/-- Valid parameters are met by themselves and may stand as an expectation. -/
theorem SegmentParams.Valid.expectation (h : p.Valid) : p.validateExpectation = .ok () :=
  SegmentParams.validateExpectation_ok.mpr ⟨Or.inr h.1, h.2⟩

/-- The salt in the bytes of a header that nobody has parsed. -/
def saltFromHeader (raw : Bytes) : Option Salt :=
  if h : headerSize ≤ raw.length then
    some ⟨(raw.drop offSalt).take saltSize, by
      rw [length_take, length_drop]
      unfold headerSize at h
      unfold offSalt saltSize
      omega⟩
  else none

theorem Header.saltFromHeader_raw (h : Header) : saltFromHeader h.raw = some h.salt := by
  have hlen := h.raw_length
  unfold saltFromHeader
  rw [dif_pos (by omega)]
  congr 1
  apply Subtype.ext
  show (h.raw.drop offSalt).take saltSize = h.salt.val
  rw [h.raw_eq, drop_headerBytes, take_of_length_le (Nat.le_of_eq h.salt.property)]

end BlindBucket.Stream
