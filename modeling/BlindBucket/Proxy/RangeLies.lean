import BlindBucket.Proxy.RangeAnswers

/-!
# Ranges from a lying provider

A range of a single-part object is located with the size and the chunk size that the
provider reports, neither of which is authenticated, and opened with the chunk size of
the segment header, which is. This module says exactly when the two cannot disagree to
the client's harm: `ranged_read_sound_iff` for a chunk size that is reported wrongly,
`claimed_size_iff` for a wrong size.
-/

namespace BlindBucket

open ByteIo BlindBucket.Stream Blocks GoText
open List hiding count

/-- **A single-part object, stored honestly**, and the gateway that reads it. Nothing but the object
was ever sealed under its data key. -/
structure StoredObject where
  gateway : Gateway
  dek : Bytes
  header : Stream.Header
  plain : Bytes
  plain_le : plain.length ≤ maxPlaintextSize
  single : header.params.multipart = false
  secure : Secure gateway.crypto dek {Transcript.finished header plain plain_le}

/-- The provider answers with metadata that unwraps to the data key of the object; for the rest of
its answers there is no condition. -/
structure Served {σ : Type} (o : StoredObject) (up : Upstream σ) (bucket key stored : Bytes)
    (info : ObjectInfo) (m : Meta) : Prop where
  stored_eq : o.gateway.storedKey bucket key = .ok stored
  head : up.headObject bucket stored = .ok info
  parsed : parseObjectMeta o.gateway info.metadata = .ok m
  unwraps : o.gateway.unwrapDEK bucket key m = .ok o.dek

variable {spec : Bytes} {fin : Int} {rng : Stream.Range} {n i c c₀ a : Nat} {ks : List Nat}

variable {σ : Type}

theorem copyOutcome_ok {q : ReadResult (RangeBody σ) GoErr} {part : Bytes}
    (h : copyOutcome q = some (.ok part)) : q.err = some .eof ∧ part = q.out := by
  unfold copyOutcome at h
  split at h
  · simp at h
  next he =>
    exact ⟨he, (Except.ok.inj (Option.some.inj h)).symm⟩
  · simp at h

theorem copyOutcome_ne_none {q : ReadResult (RangeBody σ) GoErr} (h : q.err ≠ none) :
    copyOutcome q ≠ none := by
  unfold copyOutcome
  split
  next he =>
    exact absurd he h
  · simp
  · simp

variable [ByteReader σ GoErr] {o : StoredObject} {up : Upstream σ} {bucket key stored : Bytes}
  {info : ObjectInfo} {m : Meta} {start : Int} {r : RangeReader σ}

theorem uploadPartCopy_ok (hserved : Served o up bucket key stored info m) {s : SourceRange σ}
    (h : uploadPartCopy o.gateway up bucket key spec = .ok s) :
    openSourceRange o.gateway up bucket key stored info spec = .ok s ∧ s.length ≠ 0 := by
  unfold uploadPartCopy at h
  rw [hserved.stored_eq, ok_bind, mapError_ok.mpr hserved.head, ok_bind] at h
  obtain ⟨s', hs, h⟩ := bind_ok h
  obtain ⟨hlen, h⟩ := else_ok h
  obtain ⟨_, _, h⟩ := bind_ok h
  obtain ⟨_, h⟩ := else_ok h
  cases h
  exact ⟨hs, hlen⟩

variable [LawfulReader σ]

theorem Served.getObjectRange_ok (hv : Served o up bucket key stored info m)
    {resp : RangeResponse σ} (h : getObjectRange o.gateway up bucket key spec = .ok resp) :
    ∃ plainLen rng r, openedSize info.contentLength m.log2ChunkSize = .ok plainLen
      ∧ parseRange spec plainLen = .ok (resp.start, resp.fin) ∧ resp.body = .segment r
      ∧ SegmentAnswer o.gateway info m o.dek resp.start resp.fin rng r := by
  unfold getObjectRange at h
  rw [hv.stored_eq, ok_bind, mapError_ok.mpr hv.head, ok_bind, hv.parsed, ok_bind] at h
  cases hid : m.manifestID with
  | some id =>
    -- no part was sealed under the data key
    rw [hid] at h
    obtain ⟨_, h, _⟩ := bind_ok h
    unfold openMultipartRange at h
    rw [hv.unwraps, ok_bind] at h
    obtain ⟨_, _, h⟩ := bind_ok h
    obtain ⟨layout, _, h⟩ := bind_ok h
    obtain ⟨⟨start, fin⟩, _, h⟩ := bind_ok h
    obtain ⟨q, hq, _⟩ := bind_ok h
    obtain ⟨t, ht, hpart, -⟩ := openChain_part o.secure hq
    rw [Set.mem_singleton_iff.mp ht] at hpart
    exact absurd (hpart.symm.trans o.single) (by simp)
  | none =>
    rw [hid] at h
    obtain ⟨plainLen, dek, rng, r, h1, h2, h3, h4, h5⟩ := getSegmentRange_ok h
    rw [hv.unwraps] at h3
    cases h3
    exact ⟨plainLen, rng, r, h1, h2, h4, h5⟩

theorem Served.openSourceRange_ok (hv : Served o up bucket key stored info m) {s : SourceRange σ}
    (h : openSourceRange o.gateway up bucket key stored info spec = .ok s) :
    (s.body = .empty ∧ s.length = 0) ∨
      ∃ plainLen fin rng r, openedSize info.contentLength m.log2ChunkSize = .ok plainLen
        ∧ sourceRange spec plainLen = .ok (s.start, fin) ∧ s.body = .segment r
        ∧ SegmentAnswer o.gateway info m o.dek s.start fin rng r := by
  unfold openSourceRange at h
  rw [hv.parsed, ok_bind, hv.unwraps, ok_bind] at h
  cases hid : m.manifestID with
  | some id =>
    rw [hid] at h
    obtain ⟨_, _, h⟩ := bind_ok h
    obtain ⟨layout, _, h⟩ := bind_ok h
    obtain ⟨⟨start, fin⟩, _, h⟩ := bind_ok h
    dsimp only at h
    split at h
    · rw [← Except.ok.inj h]
      exact Or.inl ⟨rfl, rfl⟩
    · obtain ⟨q, hq, _⟩ := bind_ok h
      obtain ⟨t, ht, hpart, -⟩ := openChain_part o.secure hq
      rw [Set.mem_singleton_iff.mp ht] at hpart
      exact absurd (hpart.symm.trans o.single) (by simp)
  | none =>
    rw [hid] at h
    obtain ⟨plainLen, fin, h1, h2, h3⟩ := openSegmentSourceRange_ok h
    rcases h3 with ⟨_, hbody, hlen⟩ | ⟨rng, r, _, hbody, hans⟩
    · exact Or.inl ⟨hbody, hlen⟩
    · exact Or.inr ⟨plainLen, fin, rng, r, h1, h2, hbody, hans⟩

/-- **What an answer holds**: the bytes of the object that stand where the chunk size of its *header*
puts the range that was mapped with the *reported* chunk size. -/
theorem SegmentAnswer.verdict
    (h : SegmentAnswer o.gateway info m o.dek start fin rng r) :
    ∃ n a b : Nat, info.contentLength = sealedLen m.log2ChunkSize n ∧ n ≤ maxPlaintextSize
      ∧ start = a ∧ fin = b ∧ a ≤ b ∧ a < n
      ∧ rng = rangeOf m.log2ChunkSize n a (min b (n - 1))
      ∧ (∃ N, ∀ ks : List Nat, N < (ks.filter (0 < ·)).length → (readMany r ks).err ≠ none)
      ∧ ∀ ks, RangeVerdict (Transcript.finished o.header o.plain o.plain_le) rng (readMany r ks) := by
  obtain ⟨n, a, b, _, hn, hlen, ha, hb, hab, han, hrng⟩ := mapRange_ok_iff.mp h.mapped
  obtain ⟨raw, body, hopen⟩ := h.opened
  obtain ⟨r₀, hnew, hverify⟩ := openRange_ok hopen
  have hpos : 0 < rng.length := by rw [hrng]; exact Nat.succ_pos _
  obtain ⟨t, ht, _, _, hterm, hall⟩ := range_verdict o.secure (mapRange_last_lt h.mapped) hpos hnew
    hverify
  obtain rfl := Set.mem_singleton_iff.mp ht
  exact ⟨n, a, b, hlen, hn, ha, hb, hab, han, hrng, hterm, hall⟩

/-! ## A lie that is served -/

/-- `n` zeros with a one at position `i`. -/
def spike (n i : Nat) : Bytes := (range n).map fun j => if j = i then 1 else 0

theorem spike_length (n i : Nat) : (spike n i).length = n := by
  rw [spike, length_map, length_range]

theorem spike_getElem? (n i j : Nat) : (spike n i)[j]? = if j < n then some (if j = i then 1 else 0) else none := by
  rw [spike, getElem?_map]
  by_cases h : j < n
  · rw [getElem?_range h, if_pos h]; rfl
  · rw [if_neg h, getElem?_eq_none (by rw [length_range]; omega)]; rfl

theorem spike_slice {j : Nat} (h : j < n) : ((spike n i).drop j).take 1 = [if j = i then 1 else 0] := by
  have hget := spike_getElem? n i j
  rw [if_pos h, ← head?_drop] at hget
  cases hd : (spike n i).drop j with
  | nil => rw [hd] at hget; simp at hget
  | cons b t => rw [hd] at hget; rw [take_one, head?_cons, ← Option.some.inj hget]; rfl

/-- The metadata of an object with chunk size `2^c`. -/
def metadataOf (c : Nat) : ObjectMeta.Metadata :=
  [(ObjectMeta.metaVersion, ascii "1"), (ObjectMeta.metaKeyID, ascii "k"),
   (ObjectMeta.metaDEK, ascii "AA"), (ObjectMeta.metaChunkSize, decimal c)]

def zeroDEK : Bytes := replicate keySize 0

/-- A gateway that stores objects under their own names and holds one data key. -/
def oneKeyGateway (K : Crypto) : Gateway where
  crypto := K
  hmac := ⟨fun _ _ => replicate Manifest.macSize 0, Manifest.length_zeroMac⟩
  base64 _ := some (replicate ObjectMeta.wrappedDEKSize 0)
  log2C := minLog2ChunkSize
  storedKey _ key := .ok key
  unwrapDEK _ _ _ := .ok zeroDEK
  checkFreshness _ _ _ := .ok ()

/-- What that gateway makes of the metadata. -/
def metaOf (c : Nat) : Meta :=
  ⟨1, ascii "k", replicate ObjectMeta.wrappedDEKSize 0, c, true, none⟩

theorem parseObjectMeta_metadataOf (K : Crypto) (hc : ValidLog2 c) :
    parseObjectMeta (oneKeyGateway K) (metadataOf c) = .ok (metaOf c) := by
  have hsize := ObjectMeta.parseChunkSize_itoa hc (oneKeyGateway K).log2C
  rw [itoa_natCast] at hsize
  have hval := validateLog2ChunkSize_ok.mpr hc
  unfold parseObjectMeta
  unfold ObjectMeta.parse
  have h1 : lookupFold ObjectMeta.metaDEK (metadataOf c) = ascii "AA" := rfl
  have h2 : ObjectMeta.parseVersion (lookupFold ObjectMeta.metaVersion (metadataOf c)) = .ok 1 := rfl
  have h3 : lookupFold ObjectMeta.metaKeyID (metadataOf c) = ascii "k" := rfl
  have h4 : lookupFold ObjectMeta.metaChunkSize (metadataOf c) = decimal c := rfl
  have h5 : lookupFold ObjectMeta.metaManifestID (metadataOf c) = [] := rfl
  have h6 : ObjectMeta.validateKID (ascii "k") = .ok () := by decide
  have h7 : ObjectMeta.decodeWrapped (oneKeyGateway K).base64 (ascii "AA")
      = .ok (replicate ObjectMeta.wrappedDEKSize 0) := rfl
  rw [h1, h2, h3, h4]
  dsimp only
  rw [if_neg (by decide), ok_bind, h6, ok_bind, h7, ok_bind, hsize, ok_bind]
  rw [hval]
  rfl

/-- A provider with one answer to each question: where the header is asked for on its own it is
`header`, and `body` otherwise. -/
def answering (info : ObjectInfo) (header body : Bytes) : Upstream (BytesReader GoErr) where
  headObject _ _ := .ok info
  getObject _ _ range _ :=
    .ok ⟨if range = ((0 : Int), (headerSize : Int) - 1) then header else body, .eof⟩
  manifest _ _ _ := .error .notFound

theorem fetchRange_answering (info : ObjectInfo) (bucket stored etag : Bytes) (h : Stream.Header)
    (chunks : Bytes) (hend : headerSize ≤ rng.cipherEnd) :
    ∃ body : BytesReader GoErr,
      fetchRange (answering info h.raw
          (if rng.needsSeparateHeader then chunks else h.raw ++ chunks)) bucket stored etag rng
        = .ok (h.raw, body) ∧ content body = chunks ∧ EndsInEof body := by
  have hends : ∀ b : Bytes, EndsInEof (⟨b, .eof⟩ : BytesReader GoErr) := fun b e he => he
  have hne : ∀ a : Int, ((a, (rng.cipherEnd : Int)) = ((0 : Int), (headerSize : Int) - 1)) = False := by
    intro a
    apply eq_false
    intro heq
    have := (Prod.mk.inj heq).2
    omega
  unfold fetchRange
  cases hsep : rng.needsSeparateHeader with
  | true =>
    refine ⟨⟨chunks, .eof⟩, ?_, rfl, hends _⟩
    have hc : content (⟨h.raw, .eof⟩ : BytesReader GoErr) = h.raw ++ [] := (append_nil _).symm
    obtain ⟨src', hread, _⟩ := readHeader_ok hc
    simp only [answering, hne, if_true, if_false, Except.mapError, ok_bind, fetchHeader, hread]
  | false =>
    have hc : content (⟨h.raw ++ chunks, .eof⟩ : BytesReader GoErr) = h.raw ++ chunks := rfl
    obtain ⟨src', hread, hcont, hsteps⟩ := readHeader_ok hc
    refine ⟨src', ?_, hcont, (hends _).steps hsteps⟩
    simp only [answering, hne, if_false, Bool.false_eq_true, Except.mapError, ok_bind, hread]

theorem headerSize_le_cipherEnd (c n a e : Nat) : headerSize ≤ (rangeOf c n a e).cipherEnd := by
  have hsealed : headerSize + 1 ≤ sealedLen c n := by
    have hcount : tagSize * 1 ≤ tagSize * count (2 ^ c) n := Nat.mul_le_mul_left _ (count_pos ..)
    have htag : tagSize = 16 := rfl
    unfold sealedLen
    omega
  have hstride : 1 ≤ (e / 2 ^ c + 1) * (2 ^ c + tagSize) :=
    Nat.mul_pos (Nat.succ_pos _) (Nat.add_pos_right _ (by decide))
  show headerSize ≤ min (headerSize + (e / 2 ^ c + 1) * (2 ^ c + tagSize)) (sealedLen c n) - 1
  omega

/-- Zeros with a one at position `i`, stored honestly with chunks of `2^c` bytes. -/
def spikeObject (c n i : Nat) (hc : ValidLog2 c) (hn : n ≤ maxPlaintextSize) : StoredObject :=
  let h := Header.make ⟨c, false, 0⟩ zeroSalt ⟨hc, rfl⟩
  let t := Transcript.finished h (spike n i) (by rw [spike_length]; exact hn)
  { gateway := oneKeyGateway (tableCrypto (fun _ _ _ k => replicate k 0) zeroDEK [t])
    dek := zeroDEK
    header := h
    plain := spike n i
    plain_le := by rw [spike_length]; exact hn
    single := rfl
    secure := secure_tableCrypto_one .. }

theorem spikeObject_plain (c n i : Nat) (hc : ValidLog2 c) (hn : n ≤ maxPlaintextSize) :
    (spikeObject c n i hc hn).plain = spike n i := rfl

/-- **A lie that is served.** If a range that is mapped with a reported chunk size and a reported
size happens to fit the chunks the object really has, a provider can have it delivered. -/
theorem spikeObject_lie {n' e : Nat} (hc₀ : ValidLog2 c₀) (hc : ValidLog2 c) (hn : n ≤ maxPlaintextSize)
    (hn' : n' ≤ maxPlaintextSize) (hae : a ≤ e) (he : e < n') (hspec : parseRange spec n' = .ok ((a : Int), (e : Int)))
    (hfits : (rangeOf c n' a e).Fits (2 ^ c₀) n) :
    ∃ (up : Upstream (BytesReader GoErr)) (info : ObjectInfo) (resp : RangeResponse (BytesReader GoErr)),
      Served (spikeObject c₀ n i hc₀ hn) up [] [] [] info (metaOf c)
      ∧ info.contentLength = sealedLen c n'
      ∧ getObjectRange (spikeObject c₀ n i hc₀ hn).gateway up [] [] spec = .ok resp
      ∧ resp.start = a
      ∧ ∃ ks, (readMany resp.body ks).err = some .eof
        ∧ (readMany resp.body ks).out = (rangeOf c n' a e).slice (2 ^ c₀) (spike n i) := by
  let o := spikeObject c₀ n i hc₀ hn
  let rng := rangeOf c n' a e
  have hplain : (spike n i).length = n := spike_length n i
  have hfits' : rng.Fits o.header.chunkSize o.plain.length := by
    show rng.Fits (2 ^ c₀) (spike n i).length
    rw [hplain]
    exact hfits
  have hend : headerSize ≤ rng.cipherEnd := headerSize_le_cipherEnd c n' a e
  let info : ObjectInfo := ⟨metadataOf c, sealedLen c n', []⟩
  let chunks := (Sealer.of o.gateway.crypto o.dek o.header).sealAll
    (rng.chunks o.header.chunkSize o.plain)
  obtain ⟨body, hfetch, hcont, hends⟩ := fetchRange_answering info [] [] [] o.header chunks hend
  have hopens : Opens o.gateway.crypto o.dek o.header o.plain :=
    o.secure.opens_segment rfl (Transcript.finished_complete ..)
  have hdek : o.dek.length = keySize := length_replicate
  obtain ⟨r, hopen, ks, heof, hout⟩ := openRange_honest o.single hdek hopens hfits'
    hcont hends
  let up := answering info o.header.raw
    (if rng.needsSeparateHeader then chunks else o.header.raw ++ chunks)
  have hmeta := parseObjectMeta_metadataOf o.gateway.crypto hc
  refine ⟨up, info, ⟨a, e, n', rng.length, .segment r⟩, ⟨rfl, rfl, hmeta, rfl⟩, rfl, ?_, rfl, ks, ?_⟩
  · have hsize : openedSize info.contentLength (metaOf c).log2ChunkSize = .ok n' :=
      openedSize_sealedLen hc hn'
    have hmap : mapRange a e info.contentLength (metaOf c).log2ChunkSize = .ok rng := by
      show mapRange a e (sealedLen c n') c = .ok rng
      rw [mapRange_natCast hc hn' hae (by omega), Nat.min_eq_left (by omega)]
    have hseg : getSegmentRange o.gateway up [] [] [] info (metaOf c) spec
        = .ok ⟨a, e, n', rng.length, .segment r⟩ := by
      unfold getSegmentRange openSegmentRange
      rw [mapError_ok.mpr hsize, ok_bind, hspec, ok_bind]
      dsimp only
      rw [mapError_ok.mpr hmap, ok_bind, hfetch, ok_bind]
      rw [show o.gateway.unwrapDEK [] [] (metaOf c) = .ok o.dek from rfl, ok_bind, hopen]
      rfl
    unfold getObjectRange
    rw [show o.gateway.storedKey [] [] = .ok [] from rfl, ok_bind,
      show (up.headObject [] []).mapError ApiError.upstream = .ok info from rfl, ok_bind]
    rw [show parseObjectMeta o.gateway info.metadata = .ok (metaOf c) from hmeta]
    exact hseg
  · obtain ⟨h1, h2⟩ := readMany_segment ks r
    exact ⟨h2.trans heof, h1.trans hout⟩

/-! ## A chunk size that is reported wrongly -/

/-- Every byte of `out` is the one that `P` has at its offset from `start`. -/
def AtOffset (P : Bytes) (start : Int) (out : Bytes) : Prop :=
  ∀ (j : Nat) (b : UInt8), out[j]? = some b → 0 ≤ start ∧ P[start.toNat + j]? = some b

theorem atOffset_of_prefix {P out : Bytes} {len : Nat} (h : out <+: (P.drop a).take len) : AtOffset P a out := by
  intro j b hj
  obtain ⟨t, ht⟩ := h
  have hin : ((P.drop a).take len)[j]? = some b := by
    rw [← ht, List.getElem?_append_left (List.getElem?_eq_some_iff.mp hj).1]
    exact hj
  rw [getElem?_take] at hin
  obtain ⟨_, hin⟩ := Option.ite_none_right_eq_some.mp hin
  rw [getElem?_drop] at hin
  exact ⟨Int.natCast_nonneg a, hin⟩

theorem atOffset_nil (P : Bytes) (start : Int) : AtOffset P start [] := by
  intro j b hj
  simp at hj

/-- A range of a segment that is located with the right chunk size, or that lies in a segment of one
chunk, is delivered from its offset. -/
theorem SegmentAnswer.atOffset (h : SegmentAnswer o.gateway info m o.dek start fin rng r)
    (hgood : m.log2ChunkSize = o.header.params.log2ChunkSize ∨ o.plain.length ≤ o.header.chunkSize)
    (ks : List Nat) :
    AtOffset o.plain start (readMany (RangeBody.segment r) ks).out := by
  obtain ⟨n, a, b, _, _, rfl, _, _, _, hrng, _, hall⟩ := h.verdict
  rw [(readMany_segment ks r).1]
  have hrel : (readMany r ks).out <+: rng.slice o.header.chunkSize o.plain := (hall ks).released
  have hstart := rangeOf_start m.log2ChunkSize n a (min b (n - 1))
  rw [← hrng] at hstart
  unfold Stream.Range.slice at hrel
  rcases hgood with hsame | hone
  · have hC : o.header.chunkSize = 2 ^ m.log2ChunkSize := by rw [hsame]; rfl
    rw [hC, hstart] at hrel
    exact atOffset_of_prefix hrel
  · -- only the first chunk exists, and its offset does not depend on the chunk size
    rcases Nat.eq_zero_or_pos rng.firstChunk with hzero | hpos
    · rw [hzero, Nat.zero_mul] at hrel hstart
      rw [hstart] at hrel
      exact atOffset_of_prefix hrel
    · have hbeyond : o.plain.length ≤ rng.firstChunk * o.header.chunkSize + rng.skip :=
        hone.trans (Nat.le_trans (Nat.le_mul_of_pos_left _ hpos) (Nat.le_add_right ..))
      rw [drop_of_length_le hbeyond, take_nil] at hrel
      rw [prefix_nil.mp hrel]
      exact atOffset_nil _ _

/-- A range of one byte that begins a chunk of `2^c` bytes and a size to go with it, such that the
mapped range fits a segment of several chunks of `2^c₀` bytes. -/
theorem misplaced_fits (hn : 2 ^ c₀ < n) : ∃ n', 2 ^ c < n' ∧ n' ≤ 2 * 2 ^ c + 1
      ∧ (rangeOf c n' (2 ^ c) (2 ^ c)).Fits (2 ^ c₀) n
      ∧ (rangeOf c n' (2 ^ c) (2 ^ c)).slice (2 ^ c₀) (spike n (2 ^ c₀)) = [1] := by
  have hC := two_pow_pos' c
  have hC₀ := two_pow_pos' c₀
  have hcount : 2 ≤ count (2 ^ c₀) n := by
    have := div_lt_count hC₀ hn
    rw [Nat.div_self hC₀] at this
    omega
  -- the size decides whether chunk 1 is opened as the final one
  obtain ⟨n', hlt, hle, hn'⟩ : ∃ n', 2 ^ c < n' ∧ n' ≤ 2 * 2 ^ c + 1
      ∧ decide (1 + 1 = count (2 ^ c) n') = decide (1 + 1 = count (2 ^ c₀) n) := by
    by_cases h2 : 1 + 1 = count (2 ^ c₀) n
    · refine ⟨2 ^ c + 1, by omega, by omega, ?_⟩
      rw [decide_eq_true h2, decide_eq_true_iff, eq_comm, count_eq_iff hC]
      exact ⟨by omega, by omega, Or.inr (by omega)⟩
    · refine ⟨2 * 2 ^ c + 1, by omega, by omega, ?_⟩
      rw [decide_eq_false h2, decide_eq_false_iff_not, eq_comm, count_eq_iff hC]
      omega
  have hdiv : 2 ^ c / 2 ^ c = 1 := Nat.div_self hC
  have hfirst : (rangeOf c n' (2 ^ c) (2 ^ c)).firstChunk = 1 := hdiv
  have hlast : (rangeOf c n' (2 ^ c) (2 ^ c)).lastChunk = 1 := hdiv
  have hskip : (rangeOf c n' (2 ^ c) (2 ^ c)).skip = 0 := by
    show 2 ^ c - 2 ^ c / 2 ^ c * 2 ^ c = 0
    rw [hdiv]
    omega
  have hlen : (rangeOf c n' (2 ^ c) (2 ^ c)).length = 1 := by
    show 2 ^ c - 2 ^ c + 1 = 1
    omega
  have hfinal : (rangeOf c n' (2 ^ c) (2 ^ c)).lastIsFinal = decide (1 + 1 = count (2 ^ c₀) n) := by
    show decide (2 ^ c / 2 ^ c + 1 = count (2 ^ c) n') = _
    rw [hdiv]
    exact hn'
  refine ⟨n', hlt, hle, ⟨?_, ?_, ?_, ?_, ?_, ?_, ?_, ?_⟩, ?_⟩
  · rw [hfirst, hlast]
  · rw [hlast]; omega
  · rw [hlast]; exact hfinal
  · rw [hskip]; exact hC₀
  · rw [hfirst, hskip, hlen]; omega
  · rw [hfirst, hskip, hlen, hlast]; omega
  · rw [hlen]; exact Nat.one_pos
  · rw [hfirst, hskip, hlen, hlast]; omega
  · unfold Stream.Range.slice
    rw [hfirst, hskip, hlen, Nat.one_mul, Nat.add_zero, spike_slice hn, if_pos rfl]

/-- Objects of `n` bytes in chunks of `2^c₀`, read through metadata that reports chunks of `2^c`:
whatever the provider answers, every byte that is given out for an offset is the one the object has
there. -/
def RangedReadSound (c₀ c n : Nat) : Prop :=
  ∀ o : StoredObject, o.header.params.log2ChunkSize = c₀ → o.plain.length = n →
    ∀ (σ : Type) [ByteReader σ GoErr] [LawfulReader σ] (up : Upstream σ)
      (bucket key stored : Bytes) (info : ObjectInfo) (m : Meta),
      Served o up bucket key stored info m → m.log2ChunkSize = c → ∀ spec : Bytes,
        (∀ resp, getObjectRange o.gateway up bucket key spec = .ok resp → ∀ ks,
          AtOffset o.plain resp.start (readMany resp.body ks).out)
        ∧ (∀ s, openSourceRange o.gateway up bucket key stored info spec = .ok s → ∀ ks,
          AtOffset o.plain s.start (readMany s.body ks).out)

/--
**Ranged reads of a single-part object.** They are sound against every provider if and only if the
reported chunk size is the one of the object, or the object is no longer than one chunk. The gateway
never compares the two.
-/
theorem ranged_read_sound_iff {c₀ c n : Nat} (hc₀ : ValidLog2 c₀) (hc : ValidLog2 c)
    (hn : n ≤ maxPlaintextSize) : RangedReadSound c₀ c n ↔ c = c₀ ∨ n ≤ 2 ^ c₀ := by
  constructor
  · intro hall
    by_contra hbad
    rw [not_or, Nat.not_le] at hbad
    obtain ⟨hne, hlong⟩ := hbad
    obtain ⟨n', hlt, hle, hfits, hslice⟩ := misplaced_fits hlong
    have hpow : 2 ^ c ≤ 2 ^ 20 := Nat.pow_le_pow_right (by decide) hc.2
    have hmax : maxPlaintextSize = 2 ^ 46 := rfl
    obtain ⟨up, info, resp, hserved, _, hget, hstart, ks, _, hout⟩ :=
      spikeObject_lie hc₀ hc hn (by omega) le_rfl hlt
        (parseRange_closed le_rfl hlt (by omega)) hfits
    -- the byte at offset `2^c₀` is delivered as the one at offset `2^c`
    have hat := (hall (spikeObject c₀ n (2 ^ c₀) hc₀ hn) rfl (spike_length ..) _ up [] [] [] info
      (metaOf c) hserved rfl _).1 resp hget ks
    rw [hout, hslice, hstart] at hat
    obtain ⟨_, hbyte⟩ := hat 0 1 rfl
    have hpos : 2 ^ c ≠ 2 ^ c₀ := fun h => hne (Nat.pow_right_injective (by decide) h)
    have hzero := spike_getElem? n (2 ^ c₀) (2 ^ c)
    change (spike n (2 ^ c₀))[2 ^ c]? = some 1 at hbyte
    rw [hbyte] at hzero
    split at hzero
    · exact absurd hzero (by decide)
    · simp at hzero
  · rintro hgood o rfl rfl σ _ _ up bucket key stored info m hserved hm spec
    have hgood' : m.log2ChunkSize = o.header.params.log2ChunkSize ∨ o.plain.length ≤ o.header.chunkSize := by
      rw [hm]
      exact hgood
    refine ⟨?_, ?_⟩
    · intro resp hresp ks
      obtain ⟨_, rng, r, _, _, hbody, hans⟩ := hserved.getObjectRange_ok hresp
      rw [hbody]
      exact hans.atOffset hgood' ks
    · intro s hs ks
      rcases hserved.openSourceRange_ok hs with ⟨hempty, _⟩ | ⟨_, _, rng, r, _, _, hbody, hans⟩
      · rw [hempty, readMany_empty]
        exact atOffset_nil _ _
      · rw [hbody]
        exact hans.atOffset hgood' ks

/-- A reported chunk size that is right. -/
theorem ranged_read_sound_small : RangedReadSound 12 12 5000 :=
  (ranged_read_sound_iff (by decide) (by decide) (by decide)).mpr (Or.inl rfl)

/-- Of an object with chunks of 8192 bytes, reported as 4096, the byte at 8192 is given out as the
byte at 4096. -/
theorem ranged_read_misplaced :
    ∃ (up : Upstream (BytesReader GoErr)) (info : ObjectInfo) (resp : RangeResponse (BytesReader GoErr))
      (ks : List Nat),
      Served (spikeObject 13 8193 8192 (by decide) (by decide)) up [] [] [] info (metaOf 12)
      ∧ getObjectRange (spikeObject 13 8193 8192 (by decide) (by decide)).gateway up [] []
          (ascii "bytes=4096-4096") = .ok resp
      ∧ resp.start = 4096 ∧ (readMany resp.body ks).out = [1]
      ∧ (spikeObject 13 8193 8192 (by decide) (by decide)).plain[4096]? = some 0 := by
  have hspec : parseRange (ascii "bytes=4096-4096") ((4097 : Nat) : Int)
      = .ok (((4096 : Nat) : Int), ((4096 : Nat) : Int)) := by decide
  have hfits : (rangeOf 12 4097 4096 4096).Fits (2 ^ 13) 8193 := by
    constructor <;> decide
  obtain ⟨up, info, resp, h1, _, h2, h3, ks, _, h4⟩ := spikeObject_lie
    (show ValidLog2 13 by decide) (show ValidLog2 12 by decide) (by decide) (by decide)
    le_rfl (by decide) hspec hfits
  refine ⟨up, info, resp, ks, h1, h2, h3, ?_, ?_⟩
  · rw [h4]
    show ((spike 8193 8192).drop 8192).take 1 = [1]
    rw [spike_slice (by decide), if_pos rfl]
  · rw [spikeObject_plain, spike_getElem?, if_pos (by decide), if_neg (by decide)]

/-! ## A size that is reported wrongly -/

/-- A range request answers with an error, or its body ends in one, or it is exactly `expected`. -/
def EndsRight {σ : Type} [ByteReader σ GoErr] (x : Except ApiError (RangeResponse σ)) (expected : Bytes) : Prop :=
  ∀ resp, x = .ok resp →
    (∃ N, ∀ ks : List Nat, N < (ks.filter (0 < ·)).length → (readMany resp.body ks).err ≠ none)
    ∧ ∀ ks, (readMany resp.body ks).err = some .eof → (readMany resp.body ks).out = expected

/-- A range to the end of a plaintext of `n'` bytes that is read to its own end: the object has the
chunks of that plaintext, and at least its bytes. -/
theorem SegmentAnswer.to_end (hlen : info.contentLength = sealedLen m.log2ChunkSize n)
    (hm : m.log2ChunkSize = o.header.params.log2ChunkSize)
    (h : SegmentAnswer o.gateway info m o.dek start ((n : Int) - 1) rng r)
    (heof : (readMany r ks).err = some .eof) :
    0 < n ∧ n ≤ o.plain.length ∧ count o.header.chunkSize n = count o.header.chunkSize o.plain.length
      ∧ (readMany r ks).out = (o.plain.drop start.toNat).take (n - start.toNat) := by
  obtain ⟨n', a, b, hlen', _, rfl, hb, hab, han, hrng, _, hall⟩ := h.verdict
  obtain rfl : n = n' := sealedLen_inj (Int.ofNat.inj (hlen.symm.trans hlen'))
  obtain ⟨hout, hfull, hchunks⟩ := (hall ks).eof heof
  have hC := o.header.chunkSize_pos
  have hCm : 2 ^ m.log2ChunkSize = o.header.chunkSize := by rw [hm]; rfl
  have hstart := rangeOf_start m.log2ChunkSize n a (min b (n - 1))
  have hfits : (rangeOf m.log2ChunkSize n a (min b (n - 1))).Fits (2 ^ m.log2ChunkSize) n :=
    rangeOf_fits (by omega) (by omega)
  have hlenr : rng.length = n - a := by
    rw [hrng]
    show min b (n - 1) - a + 1 = n - a
    omega
  rw [← hrng, hCm] at hstart hfits
  have hslice : rng.slice o.header.chunkSize o.plain = (o.plain.drop a).take (n - a) := by
    unfold Stream.Range.slice
    rw [hstart, hlenr]
  have hout : (readMany r ks).out = (o.plain.drop a).take (n - a) := hout.trans hslice
  have hcount : count o.header.chunkSize n = rng.lastChunk + 1 := by
    have h1 := hfits.touches
    have h2 := hfits.within_last
    rw [count_eq_iff hC]
    exact ⟨by omega, by omega, Or.inr (by rw [Nat.add_sub_cancel]; omega)⟩
  refine ⟨by omega, ?_, ?_, hout⟩
  · rw [hout, length_take, length_drop] at hfull
    omega
  · -- the last chunk was opened as the final one
    have hmem := hchunks rng.lastChunk hfits.first_le hfits.touches
    have hflag : rng.flag rng.lastChunk = true := by
      unfold Stream.Range.flag
      rw [hfits.final, decide_eq_true rfl, decide_eq_true hcount.symm]
      rfl
    obtain ⟨_, _, _, _, hfinal⟩ := SealedShape.mem hC
      (Transcript.finished o.header o.plain o.plain_le).shape hmem
    rw [hcount]
    exact (hfinal hflag).2

/-- A reported size that is accepted in place of `n`: another plaintext of as many chunks, which is
shorter. -/
def Shrinks (c n : Nat) (claimed : Int) : Prop :=
  ∃ n', claimed = sealedLen c n' ∧ 0 < n' ∧ n' < n ∧ count (2 ^ c) n' = count (2 ^ c) n

/-- Where the size cannot shrink, a range to the end is the end of the object. -/
theorem SegmentAnswer.rest (hlen : info.contentLength = sealedLen m.log2ChunkSize n)
    (hm : m.log2ChunkSize = o.header.params.log2ChunkSize)
    (hgood : ¬ Shrinks o.header.params.log2ChunkSize o.plain.length info.contentLength)
    (h : SegmentAnswer o.gateway info m o.dek start ((n : Int) - 1) rng r)
    (heof : (readMany r ks).err = some .eof) :
    n = o.plain.length ∧ (readMany r ks).out = o.plain.drop start.toNat := by
  obtain ⟨hpos, hle, hcount, hout⟩ := h.to_end hlen hm heof
  have hn : n = o.plain.length := by
    by_contra hne
    exact hgood ⟨n, by rw [hlen, hm], hpos, by omega, hcount⟩
  refine ⟨hn, ?_⟩
  rw [hout, take_of_length_le (by rw [length_drop, hn])]

/-- A request for a range to the end, by what its header means for a size. -/
theorem Served.endsRight (hserved : Served o up bucket key stored info m) {expected : Bytes}
    (hm : m.log2ChunkSize = o.header.params.log2ChunkSize)
    (hgood : ¬ Shrinks o.header.params.log2ChunkSize o.plain.length info.contentLength)
    (hspec : ∀ (n : Nat) (start fin : Int), parseRange spec n = .ok (start, fin) →
      fin = (n : Int) - 1 ∧ (n = o.plain.length → o.plain.drop start.toNat = expected)) :
    EndsRight (getObjectRange o.gateway up bucket key spec) expected := by
  intro resp hresp
  obtain ⟨plainLen, rng, r, hsize, hparse, hbody, hans⟩ := hserved.getObjectRange_ok hresp
  obtain ⟨_, n, rfl, _, hlen⟩ := openedSize_ok_iff.mp hsize
  obtain ⟨hfin, hexp⟩ := hspec n _ _ hparse
  rw [hfin] at hans
  rw [hbody]
  obtain ⟨_, _, _, _, _, _, _, _, _, _, ⟨N, hN⟩, _⟩ := hans.verdict
  refine ⟨⟨N, fun ks hks => by rw [(readMany_segment ks r).2]; exact hN ks hks⟩, ?_⟩
  intro ks heof
  rw [(readMany_segment ks r).2] at heof
  obtain ⟨hn, hout⟩ := hans.rest hlen hm hgood heof
  rw [(readMany_segment ks r).1, hout, hexp hn]

/-- Objects of `n` bytes in chunks of `2^c`, whose chunk size is reported as it is and whose stored
size is reported as `claimed`: a suffix, an open range and the copy of the whole object fail, or
deliver what they name. -/
def ClaimedSizeSound (c n : Nat) (claimed : Int) : Prop :=
  ∀ o : StoredObject, o.header.params.log2ChunkSize = c → o.plain.length = n →
    ∀ (σ : Type) [ByteReader σ GoErr] [LawfulReader σ] (up : Upstream σ)
      (bucket key stored : Bytes) (info : ObjectInfo) (m : Meta),
      Served o up bucket key stored info m → m.log2ChunkSize = c → info.contentLength = claimed →
        (∀ k, 1 ≤ k → EndsRight (getObjectRange o.gateway up bucket key (suffixSpec k))
          (o.plain.drop (n - k)))
        ∧ (∀ a, EndsRight (getObjectRange o.gateway up bucket key (openSpec a)) (o.plain.drop a))
        ∧ (∀ s, uploadPartCopy o.gateway up bucket key [] = .ok s →
          (∃ N, ∀ ks : List Nat, N < (ks.filter (0 < ·)).length →
            copyOutcome (readMany s.body ks) ≠ none)
          ∧ ∀ ks part, copyOutcome (readMany s.body ks) = some (.ok part) → part = o.plain)

/--
**A stored size that is reported wrongly.** Suffixes, open ranges and whole copies of a single-part
object fail or deliver what they name, whatever the provider serves, if and only if the reported
size does not open to a shorter plaintext of as many chunks. Such a size is accepted: the last chunk
is opened under the right flag, and cut short.
-/
theorem claimed_size_iff {c n : Nat} {claimed : Int} (hc : ValidLog2 c) (hn : n ≤ maxPlaintextSize) :
    ClaimedSizeSound c n claimed ↔ ¬ Shrinks c n claimed := by
  constructor
  · rintro hall ⟨n', rfl, hpos, hlt, hcount⟩
    -- the last byte is asked for, and the last one of the shorter plaintext comes
    have hspec : parseRange (suffixSpec 1) n' = .ok (((n' - 1 : Nat) : Int), ((n' - 1 : Nat) : Int)) := by
      rw [parseRange_suffix, if_pos (by decide)]
      congr 2
      omega
    have hfits : (rangeOf c n' (n' - 1) (n' - 1)).Fits (2 ^ c) n' :=
      rangeOf_fits le_rfl (by omega)
    have hfits' : (rangeOf c n' (n' - 1) (n' - 1)).Fits (2 ^ c) n :=
      ⟨hfits.first_le, hcount ▸ hfits.last_lt, hcount ▸ hfits.final, hfits.skip_lt,
        hfits.within.trans (hlt.le), hfits.within_last, hfits.first_pos, hfits.touches⟩
    obtain ⟨up, info, resp, hserved, hlen, hget, _, ks, heof, hout⟩ :=
      spikeObject_lie hc hc hn (by omega) (Nat.le_refl (n' - 1)) (by omega) hspec hfits'
    have hright := ((hall (spikeObject c n (n - 1) hc hn) rfl (spike_length ..) _ up [] [] [] info
      (metaOf c) hserved rfl hlen).1 1 le_rfl resp hget).2 ks heof
    have hslice : (rangeOf c n' (n' - 1) (n' - 1)).slice (2 ^ c) (spike n (n - 1)) = [0] := by
      unfold Stream.Range.slice
      rw [rangeOf_start, show (rangeOf c n' (n' - 1) (n' - 1)).length = 1 by
        show n' - 1 - (n' - 1) + 1 = 1; omega, spike_slice (by omega), if_neg (by omega)]
    have hend : (spike n (n - 1)).drop (n - 1) = [1] := by
      have h1 := spike_slice (n := n) (i := n - 1) (j := n - 1) (by omega)
      rw [if_pos rfl, take_of_length_le (by rw [length_drop, spike_length]; omega)] at h1
      exact h1
    rw [hout, hslice, spikeObject_plain, hend] at hright
    exact absurd hright (by decide)
  · rintro hgood o rfl rfl σ _ _ up bucket key stored info m hserved hm rfl
    refine ⟨?_, ?_, ?_⟩
    · intro k hk
      apply hserved.endsRight hm hgood
      intro n' start fin hparse
      rw [parseRange_suffix] at hparse
      obtain ⟨_, hparse⟩ := then_ok hparse
      cases hparse
      exact ⟨rfl, fun h => by rw [h]; rfl⟩
    · intro a
      apply hserved.endsRight hm hgood
      intro n' start fin hparse
      obtain ⟨rfl, hfin, _⟩ := parseRange_open_ok hparse
      exact ⟨hfin, fun _ => rfl⟩
    · intro s hs
      obtain ⟨hopen, hne⟩ := uploadPartCopy_ok hserved hs
      rcases hserved.openSourceRange_ok hopen with ⟨_, h0⟩ | ⟨plainLen, fin, rng, r, hsize, hspec, hbody, hans⟩
      · exact absurd h0 hne
      · obtain ⟨_, n', rfl, _, hlen⟩ := openedSize_ok_iff.mp hsize
        obtain ⟨hstart, rfl⟩ := Prod.mk.inj (Except.ok.inj hspec)
        rw [hbody]
        obtain ⟨_, _, _, _, _, _, _, _, _, _, ⟨N, hN⟩, _⟩ := hans.verdict
        refine ⟨⟨N, fun ks hks => copyOutcome_ne_none
          (by rw [(readMany_segment ks r).2]; exact hN ks hks)⟩, ?_⟩
        intro ks part hpart
        obtain ⟨heof, rfl⟩ := copyOutcome_ok hpart
        rw [(readMany_segment ks r).2] at heof
        rw [(readMany_segment ks r).1, (hans.rest hlen hm hgood heof).2, ← hstart]
        rfl

/-- A size that is reported too large is never accepted. -/
theorem claimed_size_grown : ClaimedSizeSound 12 5000 (sealedLen 12 5001) := by
  apply (claimed_size_iff (by decide) (by decide)).mpr
  rintro ⟨n', hlen, _, hlt, _⟩
  have := sealedLen_inj (Int.ofNat.inj hlen)
  omega

/-- Of three bytes `0, 0, 1`, stored in one chunk and reported as the size of two, the last byte is
given out as `0`. -/
theorem claimed_size_shrunk :
    ∃ (up : Upstream (BytesReader GoErr)) (info : ObjectInfo) (resp : RangeResponse (BytesReader GoErr))
      (ks : List Nat),
      Served (spikeObject 12 3 2 (by decide) (by decide)) up [] [] [] info (metaOf 12)
      ∧ info.contentLength = sealedLen 12 2
      ∧ getObjectRange (spikeObject 12 3 2 (by decide) (by decide)).gateway up [] [] (ascii "bytes=-1") = .ok resp
      ∧ (readMany resp.body ks).err = some .eof ∧ (readMany resp.body ks).out = [0]
      ∧ (spikeObject 12 3 2 (by decide) (by decide)).plain = [0, 0, 1] := by
  have hspec : parseRange (ascii "bytes=-1") ((2 : Nat) : Int) = .ok (((1 : Nat) : Int), ((1 : Nat) : Int)) := by decide
  have hfits : (rangeOf 12 2 1 1).Fits (2 ^ 12) 3 := by
    constructor <;> decide
  obtain ⟨up, info, resp, h1, h2, h3, _, ks, h4, h5⟩ := spikeObject_lie
    (show ValidLog2 12 by decide) (show ValidLog2 12 by decide) (by decide) (by decide)
    le_rfl (by decide) hspec hfits
  exact ⟨up, info, resp, ks, h1, h2, h3, h4, h5.trans (by decide), rfl⟩

end BlindBucket
