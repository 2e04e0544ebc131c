import BlindBucket.Stream.Format
import BlindBucket.Lib.Aead

/-!
# Chunks

A chunk is sealed under the segment's own key, with its position and the final flag
in the nonce and the segment header as associated data. `chunkNonce_inj` and
`Header.raw_inj` together say that a sealed chunk belongs to one place of one segment.
-/

namespace BlindBucket.Stream

open ByteIo

/-- HKDF-SHA256 and AES-256-GCM. -/
structure Crypto where
  hkdf : (secret salt : Bytes) → (info : String) → (length : Nat) → Bytes
  gcm : Aead tagSize

def subkeyInfo : String := "blindbucket/v1/segment"

/-- The key of a segment, for a data key of the right size. -/
def Crypto.subkey (K : Crypto) (dek : Bytes) (salt : Salt) : Bytes :=
  K.hkdf dek salt.val subkeyInfo keySize

def deriveSubkey (K : Crypto) (dek : Bytes) (salt : Salt) : Try Bytes :=
  if dek.length ≠ keySize then
    .error (errorf "stream: DEK is %d bytes, want %d" [.int dek.length, .int keySize])
  else .ok (K.subkey dek salt)

/-- The nonce of chunk `i`: the counter in 88 bits, of which it uses 64, then the final flag. -/
def chunkNonce (i : Nat) (final : Bool) : Bytes :=
  List.replicate (nonceSize - 9) 0 ++ beBytes 8 i ++ [if final then 1 else 0]

variable {i : Nat} {K : Crypto} {dek out : Bytes} {h : Header} {final : Bool}

theorem chunkNonce_inj {j : Nat} {f g : Bool} (hi : i < 256 ^ 8) (hj : j < 256 ^ 8)
    (h : chunkNonce i f = chunkNonce j g) : i = j ∧ f = g := by
  obtain ⟨hcounter, hflag⟩ := List.append_inj' h rfl
  obtain ⟨_, hbe⟩ := List.append_inj hcounter rfl
  refine ⟨beBytes_inj hi hj hbe, ?_⟩
  cases f <;> cases g <;> simp_all

/-- Seals and opens the chunks of one segment. -/
structure Sealer where
  gcm : Aead tagSize
  key : Bytes
  aad : Bytes
  chunkSize : Nat

/-- The sealer of a segment, for a data key of the right size. -/
def Sealer.of (K : Crypto) (dek : Bytes) (h : Header) : Sealer :=
  ⟨K.gcm, K.subkey dek h.salt, h.raw, h.chunkSize⟩

def newSealer (K : Crypto) (dek : Bytes) (h : Header) : Try Sealer := do
  let subkey ← deriveSubkey K dek h.salt
  .ok ⟨K.gcm, subkey, h.raw, h.chunkSize⟩

variable {s : Sealer}

theorem newSealer_ok_iff : newSealer K dek h = .ok s ↔ dek.length = keySize ∧ s = Sealer.of K dek h := by
  unfold newSealer deriveSubkey
  by_cases hlen : dek.length = keySize
  · rw [if_neg (by simpa using hlen)]
    constructor
    · intro hs
      exact ⟨hlen, (Except.ok.inj hs).symm⟩
    · rintro ⟨_, rfl⟩
      rfl
  · rw [if_pos hlen]
    constructor
    · intro hs
      simp [bind, Except.bind] at hs
    · rintro ⟨hl, _⟩
      exact absurd hl hlen

theorem newSealer_ne_eof : newSealer K dek h ≠ .error .eof := by
  unfold newSealer deriveSubkey
  split <;> simp [bind, Except.bind, errorf]

/-- `seal`. -/
def Sealer.sealChunk (s : Sealer) (plain : Bytes) (i : Nat) (final : Bool) : Bytes :=
  s.gcm.sealBytes s.key (chunkNonce i final) plain s.aad

/-- `open`. -/
def Sealer.openChunk (s : Sealer) (sealed : Bytes) (i : Nat) (final : Bool) : Try Bytes :=
  match s.gcm.openBytes s.key (chunkNonce i final) sealed s.aad with
  | some out => .ok out
  | none => .error (chunkErrorf i "authentication failed (final=%t)" [.bool final])

theorem Sealer.sealChunk_length (s : Sealer) (plain : Bytes) (i : Nat) (final : Bool) :
    (s.sealChunk plain i final).length = plain.length + tagSize :=
  s.gcm.sealBytes_length ..

theorem Sealer.openChunk_ok {sealed : Bytes} : s.openChunk sealed i final = .ok out ↔
      s.gcm.openBytes s.key (chunkNonce i final) sealed s.aad = some out := by
  unfold Sealer.openChunk
  split
  next p hp =>
    rw [hp]
    constructor
    · intro h; rw [Except.ok.inj h]
    · intro h; rw [Option.some.inj h]
  next hp =>
    rw [hp]
    constructor
    · intro h; simp at h
    · intro h; simp at h

theorem Sealer.openChunk_length {sealed : Bytes} (h : s.openChunk sealed i final = .ok out) :
    sealed.length = out.length + tagSize :=
  s.gcm.openBytes_length (Sealer.openChunk_ok.mp h)

theorem Sealer.openChunk_ne_eof {sealed : Bytes} : s.openChunk sealed i final ≠ .error .eof := by
  unfold Sealer.openChunk
  split <;> simp [chunkErrorf]

/-! ## Chunks of a plaintext -/

structure Chunk where
  index : Nat
  final : Bool
  plain : Bytes
deriving DecidableEq, Repr

def Sealer.sealed (s : Sealer) (c : Chunk) : Bytes := s.sealChunk c.plain c.index c.final

/-- Some chunks, sealed and put one after another. -/
def Sealer.sealAll (s : Sealer) (cs : List Chunk) : Bytes := (cs.map s.sealed).flatten

@[simp] theorem Sealer.sealAll_nil (s : Sealer) : s.sealAll [] = [] := rfl

@[simp] theorem Sealer.sealAll_append (s : Sealer) (cs ds : List Chunk) :
    s.sealAll (cs ++ ds) = s.sealAll cs ++ s.sealAll ds := by
  simp [Sealer.sealAll]

theorem Sealer.sealAll_singleton (s : Sealer) (c : Chunk) : s.sealAll [c] = s.sealed c := by
  simp [Sealer.sealAll]

/-- What the cipher is told when this chunk is sealed. -/
def Sealer.record (s : Sealer) (c : Chunk) : Aead.Record :=
  ⟨s.key, chunkNonce c.index c.final, s.aad, c.plain⟩

end BlindBucket.Stream
