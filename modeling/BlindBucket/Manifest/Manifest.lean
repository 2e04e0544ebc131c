import BlindBucket.Stream.Size
import BlindBucket.Stream.Chunk

/-!
# Manifests

The authenticated part list of a multipart object. Each part is a segment of its own;
the manifest says which segments make up the object, and in which order. It is bound to
the bucket, the key and the id it was written for, and authenticated with a key derived
from the data key of the object.
-/

namespace BlindBucket

open ByteIo BlindBucket.Stream List Option

namespace Manifest

def idSize : Nat := 16
def macSize : Nat := 32
def macKeyInfo : String := "blindbucket/v1/manifest"

/-- `"BBM2"`: each entry carries the salt of its segment. -/
def magic : Bytes := [0x42, 0x42, 0x4D, 0x32]

/-- `"BBM1"`: entries without salts, which are still read. -/
def magicV1 : Bytes := [0x42, 0x42, 0x4D, 0x31]

abbrev ID := { b : Bytes // b.length = idSize }

theorem length_zeroId : (List.replicate idSize (0 : UInt8)).length = idSize := length_replicate

theorem length_zeroMac (_ _ : Bytes) : (List.replicate macSize (0 : UInt8)).length = macSize := length_replicate

end Manifest

structure Hmac where
  sum : (key message : Bytes) → Bytes
  sum_length : ∀ key message, (sum key message).length = Manifest.macSize

structure Part where
  number : Nat
  plainSize : Int
  salt : Salt
deriving DecidableEq

/-- What `validate` accepts in a part. -/
structure Part.Ok (p : Part) : Prop where
  number_pos : 1 ≤ p.number
  number_le : p.number ≤ maxParts
  size_nonneg : 0 ≤ p.plainSize
  size_le : p.plainSize ≤ maxPlaintextSize

/-- The part list of an object. `legacy` says that it was read from a file without salts. -/
structure Manifest where
  bucket : Bytes
  key : Bytes
  id : Manifest.ID
  parts : List Part
  legacy : Bool := false
deriving DecidableEq

namespace Manifest

def hasSalts (m : Manifest) : Bool := !m.legacy

def plainSize (m : Manifest) : Int := (m.parts.map Part.plainSize).sum

def macKey (K : Crypto) (dek : Bytes) : Try Bytes :=
  if dek.length ≠ keySize then
    .error (errorf "manifest: DEK is %d bytes, want %d" [.int dek.length, .int keySize])
  else .ok (K.hkdf dek [] macKeyInfo keySize)

/-! ## Structural rules -/

/-- The loop of `validate`. Numbers are positive, so there is no part before the first
exactly when `previous` is 0. -/
def validateParts (previous : Nat) : List Part → Try Unit
  | [] => .ok ()
  | p :: ps =>
    if p.number < 1 ∨ maxParts < p.number then
      .error (errorf "manifest: part number %d outside 1..%d" [.int p.number, .int maxParts])
    else if p.number ≤ previous then
      .error (errorf "manifest: part numbers %d and %d are not ascending"
        [.int previous, .int p.number])
    else if p.plainSize < 0 ∨ maxPlaintextSize < p.plainSize then
      .error (errorf "manifest: part %d has an impossible size %d"
        [.int p.number, .int p.plainSize])
    else validateParts p.number ps

def validate (m : Manifest) : Try Unit :=
  if m.parts.length = 0 then
    .error (errorf "manifest: a multipart object has at least one part" [])
  else if maxParts < m.parts.length then
    .error (errorf "manifest: %d parts exceeds the maximum of %d"
      [.int m.parts.length, .int maxParts])
  else if 0xffff < m.bucket.length ∨ 0xffff < m.key.length then
    .error (errorf "manifest: bucket or key exceeds the length prefix" [])
  else validateParts 0 m.parts

variable {ps : List Part} {m : Manifest} {n : Nat} {K : Crypto} {H : Hmac} {dek raw : Bytes}

theorem validateParts_ok {previous : Nat} (h : validateParts previous ps = .ok ()) :
    (∀ p ∈ ps, p.Ok ∧ previous < p.number) ∧ ps.Pairwise (fun p q => p.number < q.number) := by
  induction ps generalizing previous with
  | nil => exact ⟨fun p hp => absurd hp (by simp), Pairwise.nil⟩
  | cons p ps ih =>
    obtain ⟨_, h⟩ := else_ok h
    obtain ⟨_, h⟩ := else_ok h
    obtain ⟨_, h⟩ := else_ok h
    obtain ⟨hall, hpair⟩ := ih h
    refine ⟨?_, Pairwise.cons (fun q hq => (hall q hq).2) hpair⟩
    intro q hq
    rcases mem_cons.mp hq with rfl | hq
    · exact ⟨⟨by omega, by omega, by omega, by omega⟩, by omega⟩
    · have := (hall q hq).2
      exact ⟨(hall q hq).1, by omega⟩

/-- **What a valid manifest is.** -/
theorem validate_ok (h : m.validate = .ok ()) : m.parts ≠ [] ∧ m.parts.length ≤ maxParts ∧ (∀ p ∈ m.parts, p.Ok)
      ∧ m.parts.Pairwise (fun p q => p.number < q.number) := by
  obtain ⟨hne, h⟩ := else_ok h
  obtain ⟨_, h⟩ := else_ok h
  obtain ⟨_, h⟩ := else_ok h
  obtain ⟨hall, hpair⟩ := validateParts_ok h
  exact ⟨fun hnil => hne (by rw [hnil]; rfl), by omega, fun p hp => (hall p hp).1, hpair⟩

theorem validate_fields (h : m.validate = .ok ()) : m.bucket.length ≤ 0xffff ∧ m.key.length ≤ 0xffff := by
  obtain ⟨_, h⟩ := else_ok h
  obtain ⟨_, h⟩ := else_ok h
  obtain ⟨_, h⟩ := else_ok h
  exact ⟨by omega, by omega⟩

/-! ## The wire form -/

/-- A field after its length in two bytes. -/
def appendLP (dst s : Bytes) : Try Bytes :=
  if 0xffff < s.length then
    .error (errorf "manifest: field of %d bytes exceeds the length prefix" [.int s.length])
  else .ok (dst ++ (beBytes 2 s.length ++ s))

def entryBytes (p : Part) : Bytes :=
  beBytes 2 p.number ++ (beBytes 8 p.plainSize.toNat ++ p.salt.val)

def marshal (K : Crypto) (H : Hmac) (m : Manifest) (dek : Bytes) : Try Bytes := do
  m.validate
  let key ← macKey K dek
  let out ← appendLP magic m.bucket
  let out ← appendLP out m.key
  let out := out ++ (m.id.val ++ (beBytes 2 m.parts.length ++ m.parts.flatMap entryBytes))
  .ok (out ++ H.sum key out)

/-- The next `n` bytes, and what follows them. -/
def next (n : Nat) (buf : Bytes) : Option (Bytes × Bytes) :=
  if buf.length < n then none else some (buf.take n, buf.drop n)

def readUint16 (buf : Bytes) : Option (Nat × Bytes) := do
  let (b, buf) ← next 2 buf
  some (ofBe b, buf)

def readUint64 (buf : Bytes) : Option (Nat × Bytes) := do
  let (b, buf) ← next 8 buf
  some (ofBe b, buf)

/-- `reader.lp`. -/
def readLP (buf : Bytes) : Option (Bytes × Bytes) := do
  let (n, buf) ← readUint16 buf
  next n buf

/-- `ErrVerify` with a text. -/
def verifyf (format : String) (args : List Arg) : Error := wrapf .manifestVerify format args

/-- A read of a field that must be there. -/
def must {α : Type} (what : String) : Option α → Try α
  | some a => .ok a
  | none => .error (verifyf what [])

theorem must_some {α : Type} (what : String) (a : α) : must what (some a) = .ok a := rfl

/-- The salt field of an entry, which a manifest without salts does not have. -/
def parseSalt (legacy : Bool) (buf : Bytes) : Try (Salt × Bytes) :=
  if legacy then .ok (zeroSalt, buf)
  else if h : (buf.take saltSize).length = saltSize then .ok (⟨buf.take saltSize, h⟩, buf.drop saltSize)
  else .error (verifyf "%w: truncated part list" [])

/-- The size an entry claims has to be one a segment can have. -/
def checkClaimed (number size : Nat) : Try Unit :=
  if maxPlaintextSize < size then
    .error (verifyf "%w: part %d claims %d bytes" [.int number, .int size])
  else .ok ()

/-- The loop of `parseBody` over the entries. -/
def parseEntries (legacy : Bool) : Nat → Bytes → Try (List Part × Bytes)
  | 0, buf => .ok ([], buf)
  | count + 1, buf => do
      let (number, buf) ← must "%w: truncated part list" (readUint16 buf)
      let (size, buf) ← must "%w: truncated part list" (readUint64 buf)
      checkClaimed number size
      let (salt, buf) ← parseSalt legacy buf
      let (parts, buf) ← parseEntries legacy count buf
      .ok (⟨number, size, salt⟩ :: parts, buf)

/-- The format a manifest says it is in: whether it is one without salts. -/
def parseMagic (b : Bytes) : Try Bool :=
  if b = magic then .ok false
  else if b = magicV1 then .ok true
  else .error (verifyf "%w: not a blindbucket manifest" [])

/-- The id field. -/
def parseId (buf : Bytes) : Try (ID × Bytes) :=
  if h : (buf.take idSize).length = idSize then .ok (⟨buf.take idSize, h⟩, buf.drop idSize)
  else .error (verifyf "%w: truncated manifest id" [])

/-- `parseBody`, on bytes whose tag was verified. -/
def parseBody (body : Bytes) : Try Manifest := do
  let (b, buf) ← must "%w: truncated magic" (next 4 body)
  let legacy ← parseMagic b
  let (bucket, buf) ← must "%w: truncated bucket" (readLP buf)
  let (key, buf) ← must "%w: truncated key" (readLP buf)
  let (id, buf) ← parseId buf
  let (count, buf) ← must "%w: truncated part count" (readUint16 buf)
  let (parts, buf) ← parseEntries legacy count buf
  if buf.length ≠ 0 then .error (verifyf "%w: %d trailing bytes" [.int buf.length])
  else .ok ⟨bucket, key, id, parts, legacy⟩

/-- Authenticate, parse, and compare with the object it was loaded for. -/
def unmarshal (K : Crypto) (H : Hmac) (raw dek bucket key : Bytes) (id : ID) : Try Manifest := do
  let key2 ← macKey K dek
  if raw.length < magic.length + macSize then
    .error (verifyf "%w: %d bytes is too short to be a manifest" [.int raw.length])
  else
    let body := raw.take (raw.length - macSize)
    if H.sum key2 body ≠ raw.drop (raw.length - macSize) then
      .error (verifyf "%w: bad authentication tag" [])
    else
      let m ← parseBody body
      if m.bucket ≠ bucket ∨ m.key ≠ key ∨ m.id ≠ id then
        .error (verifyf "%w: manifest belongs to a different object version" [])
      else
        match m.validate with
        | .error e => .error (wrapErr .manifestVerify "%w: %w" [] e)
        | .ok _ => .ok m

/-! ## What is written is read back -/

theorem next_append {b : Bytes} (h : b.length = n) (rest : Bytes) : next n (b ++ rest) = some (b, rest) := by
  unfold next
  rw [if_neg (by rw [length_append]; omega), take_left' h, drop_left' h]

theorem readUint16_append (h : n < 256 ^ 2) (rest : Bytes) :
    readUint16 (beBytes 2 n ++ rest) = some (n, rest) := by
  unfold readUint16
  rw [next_append (beBytes_length 2 n)]
  simp only [bind_eq_bind, bind_some, ofBe_beBytes h]

theorem readUint64_append (h : n < 256 ^ 8) (rest : Bytes) :
    readUint64 (beBytes 8 n ++ rest) = some (n, rest) := by
  unfold readUint64
  rw [next_append (beBytes_length 8 n)]
  simp only [bind_eq_bind, bind_some, ofBe_beBytes h]

theorem readLP_append {s : Bytes} (h : s.length ≤ 0xffff) (rest : Bytes) :
    readLP ((beBytes 2 s.length ++ s) ++ rest) = some (s, rest) := by
  unfold readLP
  rw [append_assoc, readUint16_append (by omega)]
  exact next_append rfl rest

theorem parseSalt_append (salt : Salt) (rest : Bytes) : parseSalt false (salt.val ++ rest) = .ok (salt, rest) := by
  have htake : (salt.val ++ rest).take saltSize = salt.val := take_left' salt.property
  unfold parseSalt
  rw [if_neg (by simp), dif_pos (by rw [htake]; exact salt.property)]
  simp only [htake, drop_left' salt.property]

theorem parseId_append (id : ID) (rest : Bytes) : parseId (id.val ++ rest) = .ok (id, rest) := by
  have htake : (id.val ++ rest).take idSize = id.val := take_left' id.property
  unfold parseId
  rw [dif_pos (by rw [htake]; exact id.property)]
  simp only [htake, drop_left' id.property]

theorem parseEntries_append (h : ∀ p ∈ ps, p.Ok) (rest : Bytes) :
    parseEntries false ps.length (ps.flatMap entryBytes ++ rest) = .ok (ps, rest) := by
  induction ps with
  | nil => rfl
  | cons p ps ih =>
    have hp := h p mem_cons_self
    have hnum := hp.number_le
    have hnonneg := hp.size_nonneg
    have hsize := hp.size_le
    unfold maxParts at hnum
    have hle : p.plainSize.toNat ≤ maxPlaintextSize := by omega
    have hfits : p.plainSize.toNat < 256 ^ 8 := hle.trans_lt (by decide)
    have hcast : ((p.plainSize.toNat : Nat) : Int) = p.plainSize := Int.toNat_of_nonneg hnonneg
    rw [length_cons, flatMap_cons, append_assoc, entryBytes, append_assoc,
      append_assoc, parseEntries, readUint16_append (by omega), must_some, ok_bind]
    dsimp only
    rw [readUint64_append hfits, must_some, ok_bind]
    rw [show checkClaimed p.number p.plainSize.toNat = .ok () from if_neg (Nat.not_lt.mpr hle),
      ok_bind, parseSalt_append, ok_bind]
    rw [ih (fun q hq => h q (mem_cons_of_mem p hq)), ok_bind, hcast]

/-- The bytes of a manifest before its tag. -/
def bodyBytes (m : Manifest) : Bytes :=
  magic ++ ((beBytes 2 m.bucket.length ++ m.bucket) ++ ((beBytes 2 m.key.length ++ m.key)
    ++ (m.id.val ++ (beBytes 2 m.parts.length ++ m.parts.flatMap entryBytes))))

theorem parseBody_bodyBytes (hv : m.validate = .ok ()) (hl : m.legacy = false) : parseBody m.bodyBytes = .ok m := by
  obtain ⟨_, hlen, hok, _⟩ := validate_ok hv
  obtain ⟨hb, hk⟩ := validate_fields hv
  unfold maxParts at hlen
  have hentries := parseEntries_append hok []
  rw [append_nil] at hentries
  unfold parseBody bodyBytes
  simp only [must, bind, Except.bind]
  rw [next_append (show magic.length = 4 from rfl)]
  dsimp only
  rw [show parseMagic magic = .ok false from rfl]
  rw [readLP_append hb]
  dsimp only
  rw [readLP_append hk]
  dsimp only
  rw [parseId_append]
  dsimp only
  rw [readUint16_append (by omega)]
  dsimp only
  rw [hentries]
  dsimp only
  rw [if_neg (by simp), ← hl]

theorem marshal_ok (h : m.marshal K H dek = .ok raw) : m.validate = .ok () ∧ ∃ key, macKey K dek = .ok key
      ∧ raw = m.bodyBytes ++ H.sum key m.bodyBytes := by
  obtain ⟨_, hv, h⟩ := bind_ok h
  obtain ⟨key, hkey, h⟩ := bind_ok h
  obtain ⟨hb, hk⟩ := validate_fields hv
  have hbucket : appendLP magic m.bucket = .ok (magic ++ (beBytes 2 m.bucket.length ++ m.bucket)) := if_neg (by omega)
  have hkeyField : appendLP (magic ++ (beBytes 2 m.bucket.length ++ m.bucket)) m.key
      = .ok (magic ++ (beBytes 2 m.bucket.length ++ m.bucket) ++ (beBytes 2 m.key.length ++ m.key)) := if_neg (by omega)
  rw [hbucket, ok_bind, hkeyField] at h
  cases h
  refine ⟨hv, key, hkey, ?_⟩
  simp only [bodyBytes, append_assoc]

/-- **A manifest that was written is read back as it was.** -/
theorem unmarshal_marshal (hl : m.legacy = false) (h : m.marshal K H dek = .ok raw) :
    unmarshal K H raw dek m.bucket m.key m.id = .ok m := by
  obtain ⟨hv, key, hkey, rfl⟩ := marshal_ok h
  have htag := H.sum_length key m.bodyBytes
  have hlen : (m.bodyBytes ++ H.sum key m.bodyBytes).length - macSize = m.bodyBytes.length := by
    rw [length_append]
    omega
  have hmagic : magic.length ≤ m.bodyBytes.length := by
    unfold bodyBytes
    rw [length_append]
    exact Nat.le_add_right _ _
  unfold unmarshal
  simp only [bind, Except.bind, hkey]
  rw [if_neg (by rw [length_append, htag]; omega), hlen, take_left,
    if_neg (by simp), parseBody_bodyBytes hv hl]
  dsimp only
  rw [if_neg (by simp), hv]

/-- What is accepted is valid, and is what the text says, whatever key it verified under. -/
theorem unmarshal_ok {bucket key : Bytes} {id : ID}
    (h : unmarshal K H raw dek bucket key id = .ok m) : m.validate = .ok ()
      ∧ dek.length = keySize ∧ parseBody (raw.take (raw.length - macSize)) = .ok m := by
  obtain ⟨key2, hkey, h⟩ := bind_ok h
  have hdek : dek.length = keySize := by
    obtain ⟨hlen, hkey⟩ := else_ok hkey
    exact Decidable.not_not.mp hlen
  obtain ⟨_, h⟩ := else_ok h
  obtain ⟨_, h⟩ := else_ok h
  obtain ⟨m', hparse, h⟩ := bind_ok h
  obtain ⟨_, h⟩ := else_ok h
  cases hv : m'.validate with
  | error e => rw [hv] at h; simp at h
  | ok u =>
    rw [hv] at h
    cases h
    exact ⟨hv, hdek, hparse⟩

end Manifest

end BlindBucket
