import BlindBucket.Stream.Segment

/-!
# What was ever sealed

A `Transcript` is what one run of an encoder handed to the cipher: its header, the
plaintext it accepted and the chunks it sealed. The shape of the chunks is part of the
type, so that there is no transcript an encoder cannot leave behind; `Attempt.transcript`
is the one a run does leave, whether it was finished or abandoned.

`Secure` is the assumption of all results about hostile storage: under the keys of one
data key the cipher opens exactly what these transcripts sealed, and no two of them
share a salt. From it follows `Secure.opened`: a chunk that opens was sealed at that
position, with that flag, by the one encoder with that header.
-/

namespace BlindBucket.Stream

open ByteIo Blocks List

/-- The chunks of a finished or of an abandoned encoder of `T`. -/
def SealedShape (C : Nat) (T : Bytes) (cs : List Chunk) : Prop :=
  (∃ k, k * C ≤ T.length ∧ cs = openChunks C T k) ∨ cs = segmentChunks C T

/-- What a run of an encoder left behind. -/
structure Transcript where
  header : Header
  plain : Bytes
  chunks : List Chunk
  plain_le : plain.length ≤ maxPlaintextSize
  shape : SealedShape header.chunkSize plain chunks

namespace Transcript

/-- `Close` sealed the final chunk. -/
def Complete (t : Transcript) : Prop := ∃ c ∈ t.chunks, c.final = true

/-- The bytes the encoder put together. -/
def output (K : Crypto) (dek : Bytes) (t : Transcript) : Bytes :=
  t.header.raw ++ (Sealer.of K dek t.header).sealAll t.chunks

end Transcript

variable {c : Chunk} {t : Transcript} {K : Crypto} {S : Set Transcript}

theorem SealedShape.mem {C : Nat} (hC : 0 < C) {T : Bytes} {cs : List Chunk} (h : SealedShape C T cs) (hc : c ∈ cs) :
    c.plain = block C T c.index ∧ c.index < cs.length ∧ c.index < count C T.length
      ∧ (c.final = false → (c.index + 1) * C ≤ T.length)
      ∧ (c.final = true → cs = segmentChunks C T ∧ c.index + 1 = count C T.length) := by
  rcases h with ⟨k, hk, rfl⟩ | rfl
  · obtain ⟨i, hi, rfl⟩ := mem_map.mp hc
    have hik := mem_range.mp hi
    have hle : (i + 1) * C ≤ T.length := Nat.le_trans (Nat.mul_le_mul_right C hik) hk
    refine ⟨rfl, by simpa [openChunks] using hik, ?_, fun _ => hle, by simp⟩
    -- a full block among the first `k` is a block of `T`
    show i < count C T.length
    by_contra hge
    have hcount := le_count_mul hC T.length
    have hmul : count C T.length * C ≤ i * C := Nat.mul_le_mul_right C (by omega)
    rw [Nat.add_mul] at hle
    omega
  · rw [segmentChunks_eq_map] at hc
    obtain ⟨i, hi, rfl⟩ := mem_map.mp hc
    have hik := mem_range.mp hi
    refine ⟨rfl, by rw [segmentChunks_length]; exact hik, hik, ?_, ?_⟩
    · intro hf
      have hne : i + 1 ≠ count C T.length := by simpa [chunkAt] using hf
      show (i + 1) * C ≤ T.length
      exact mul_le_of_lt_count hC (by omega)
    · intro hf
      exact ⟨rfl, by simpa [chunkAt] using hf⟩

variable {dek : Bytes}

namespace Transcript

/-- A complete transcript holds all chunks of its plaintext. -/
theorem Complete.chunks_eq (h : t.Complete) : t.chunks = segmentChunks t.header.chunkSize t.plain := by
  obtain ⟨c, hc, hf⟩ := h
  exact ((t.shape.mem t.header.chunkSize_pos hc).2.2.2.2 hf).1

theorem Complete.output_eq (h : t.Complete) : t.output K dek = segmentBytes K dek t.header t.plain := by
  unfold output segmentBytes
  rw [h.chunks_eq]

theorem count_lt (t : Transcript) : count t.header.chunkSize t.plain.length < 256 ^ 8 := by
  have hC := t.header.chunkSize_pos
  have hle := t.plain_le
  unfold maxPlaintextSize at hle
  obtain ⟨_, _, h | h⟩ := (count_eq_iff hC t.plain.length _).mp rfl
  · omega
  · have hmul : (count t.header.chunkSize t.plain.length - 1) * 1
        ≤ (count t.header.chunkSize t.plain.length - 1) * t.header.chunkSize :=
      Nat.mul_le_mul_left _ hC
    omega

theorem index_lt (hc : c ∈ t.chunks) : c.index < 256 ^ 8 :=
  Nat.lt_trans (t.shape.mem t.header.chunkSize_pos hc).2.2.1 t.count_lt

theorem abc_fits : [(97 : UInt8), 98, 99].length ≤ maxPlaintextSize := by decide

/-- The transcript of a finished encoder. -/
def finished (h : Header) (T : Bytes) (hT : T.length ≤ maxPlaintextSize) : Transcript :=
  ⟨h, T, segmentChunks h.chunkSize T, hT, Or.inr rfl⟩

theorem finished_complete (h : Header) (T : Bytes) (hT : T.length ≤ maxPlaintextSize) :
    (finished h T hT).Complete :=
  ⟨finalChunk h.chunkSize T, by simp [finished, segmentChunks], rfl⟩

end Transcript

/-! ## Runs of the encoder -/

/-- A use of an encoder: the calls that were made on it, with the sink it wrote to. -/
structure Attempt (δ : Type) where
  header : Header
  dst : δ
  ops : List EncryptWriter.Op

namespace Attempt

variable {δ : Type} [ByteWriter δ GoErr]

/-- The encoder at the beginning, as `newEncryptWriter` returns it. -/
def start (K : Crypto) (dek : Bytes) (a : Attempt δ) : EncryptWriter δ :=
  { dst := a.dst, header := a.header, sealer := Sealer.of K dek a.header }

/-- The encoder after the calls, and the plaintext it accepted. -/
def result (K : Crypto) (dek : Bytes) (a : Attempt δ) : EncryptWriter δ × Bytes :=
  (a.start K dek).run a.ops

variable [LawfulWriter δ]

/-- A run leaves a transcript, whatever was called and however the sink failed. -/
theorem result_shape (K : Crypto) (hdek : dek.length = keySize) (a : Attempt δ) :
    (a.result K dek).2.length ≤ maxPlaintextSize ∧
      SealedShape a.header.chunkSize (a.result K dek).2 (a.result K dek).1.sealed := by
  obtain ⟨hnew, _⟩ := EncryptWriter.encInv_new
    (newEncryptWriter_ok a.dst a.header hdek)
  obtain ⟨hinv, hsame⟩ := EncryptWriter.encInv_run a.ops hnew
  have hheader : (a.result K dek).1.header = a.header := hsame.1
  refine ⟨hinv.total_le, ?_⟩
  rw [← hheader]
  rcases hinv.phase with ⟨h, _⟩ | h | h
  · exact Or.inl ⟨_, h.le, h.sealed⟩
  · exact Or.inr h.sealed
  · exact h.sealed

def transcript (K : Crypto) {dek : Bytes} (hdek : dek.length = keySize) (a : Attempt δ) : Transcript :=
  ⟨a.header, (a.result K dek).2, (a.result K dek).1.sealed, (a.result_shape K hdek).1,
    (a.result_shape K hdek).2⟩

end Attempt

/-! ## The assumption on the cipher -/

def subkeys (K : Crypto) (dek : Bytes) (key : Bytes) : Prop :=
  ∃ salt, key = K.subkey dek salt

/-- Everything these encoders sealed. -/
def sealedLog (K : Crypto) (dek : Bytes) (S : Set Transcript) (r : Aead.Record) : Prop :=
  ∃ t ∈ S, ∃ c ∈ t.chunks, r = (Sealer.of K dek t.header).record c

/-- **The assumption about hostile storage.** Under the keys of `dek` exactly what the transcripts
in `S` sealed opens, and every one of them drew its own salt. -/
structure Secure (K : Crypto) (dek : Bytes) (S : Set Transcript) : Prop where
  ideal : K.gcm.Ideal (subkeys K dek) (sealedLog K dek S)
  distinct : ∀ t ∈ S, ∀ u ∈ S, t.header.salt = u.header.salt → t = u

theorem Secure.unique (hs : Secure K dek S) {u : Transcript} (ht : t ∈ S) (hu : u ∈ S) (h : t.header = u.header) :
    t = u :=
  hs.distinct t ht u hu (by rw [h])

/-- **A chunk that opens was sealed there.** -/
theorem Secure.opened (hs : Secure K dek S) {h : Header} {sealed p : Bytes} {i : Nat} {final : Bool}
    (hi : i < 256 ^ 8) (ho : (Sealer.of K dek h).openChunk sealed i final = .ok p) :
    ∃ t ∈ S, t.header = h ∧ (⟨i, final, p⟩ : Chunk) ∈ t.chunks
      ∧ sealed = (Sealer.of K dek h).sealed ⟨i, final, p⟩ := by
  have hopen := Sealer.openChunk_ok.mp ho
  have hkey : subkeys K dek (Sealer.of K dek h).key := ⟨h.salt, rfl⟩
  obtain ⟨t, ht, c, hc, hrec⟩ := hs.ideal.logged hkey hopen
  obtain ⟨_, hnonce, haad, hplain⟩ := Aead.Record.mk.inj hrec
  have hheader : t.header = h := (Header.raw_inj haad).symm
  obtain ⟨hindex, hfinal⟩ := chunkNonce_inj hi (Transcript.index_lt hc) hnonce
  have hchunk : c = ⟨i, final, p⟩ := by
    rw [Chunk.mk.injEq]
    exact ⟨hindex.symm, hfinal.symm, hplain.symm⟩
  rw [hchunk] at hc
  exact ⟨t, ht, hheader, hc, hs.ideal.sealed_eq hkey hopen⟩

theorem Secure.opens (hs : Secure K dek S) (ht : t ∈ S) (hc : c ∈ t.chunks) :
    (Sealer.of K dek t.header).openChunk ((Sealer.of K dek t.header).sealed c) c.index c.final
      = .ok c.plain :=
  Sealer.openChunk_ok.mpr (hs.ideal.opens ⟨t.header.salt, rfl⟩ ⟨t, ht, c, hc, rfl⟩)

theorem Secure.opens_segment (hs : Secure K dek S) (ht : t ∈ S) (hc : t.Complete) : Opens K dek t.header t.plain := by
  intro i hi
  have hmem : chunkAt t.header.chunkSize t.plain i ∈ t.chunks := by
    rw [hc.chunks_eq, segmentChunks_eq_map]
    exact mem_map_of_mem (mem_range.mpr hi)
  exact hs.opens ht hmem

/-! ### The assumption can be met -/

/-- Primitives that open what a list of transcripts sealed. -/
def tableCrypto (hkdf : (secret salt : Bytes) → (info : String) → (length : Nat) → Bytes)
    (dek : Bytes) (ts : List Transcript) : Crypto :=
  ⟨hkdf, Aead.tableAead tagSize (ts.flatMap fun t => t.chunks.map fun c =>
    ⟨hkdf dek t.header.salt.val subkeyInfo keySize, chunkNonce c.index c.final, t.header.raw,
      c.plain⟩)⟩

/-- For any transcripts with different salts there are primitives that satisfy `Secure`. -/
theorem secure_tableCrypto (hkdf : (secret salt : Bytes) → (info : String) → (length : Nat) → Bytes)
    (dek : Bytes) {ts : List Transcript}
    (hsalts : ∀ t ∈ ts, ∀ u ∈ ts, t.header.salt = u.header.salt → t = u) :
    Secure (tableCrypto hkdf dek ts) dek {t | t ∈ ts} := by
  refine ⟨?_, hsalts⟩
  have hlog : sealedLog (tableCrypto hkdf dek ts) dek {t | t ∈ ts}
      = (· ∈ ts.flatMap fun t => t.chunks.map fun c => (⟨hkdf dek t.header.salt.val subkeyInfo
          keySize, chunkNonce c.index c.final, t.header.raw, c.plain⟩ : Aead.Record)) := by
    simp only [mem_flatMap, mem_map, eq_comm]
    rfl
  rw [hlog]
  exact Aead.tableAead_ideal _ _

theorem secure_tableCrypto_one (hkdf : (secret salt : Bytes) → (info : String) → (length : Nat) → Bytes)
    (dek : Bytes) (t : Transcript) : Secure (tableCrypto hkdf dek [t]) dek {t} := by
  have hsalts : ∀ u ∈ [t], ∀ v ∈ [t], u.header.salt = v.header.salt → u = v := by
    intro u hu v hv _
    rw [mem_singleton.mp hu, mem_singleton.mp hv]
  have hset : {u | u ∈ [t]} = {t} := Set.ext fun u => mem_singleton
  exact hset ▸ secure_tableCrypto hkdf dek hsalts

end BlindBucket.Stream
