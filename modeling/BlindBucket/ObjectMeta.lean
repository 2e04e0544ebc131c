import BlindBucket.Lib.BaseText
import BlindBucket.Lib.GoText
import BlindBucket.Manifest.Manifest

/-!
# Object metadata

The `bb-*` metadata that is stored alongside an object. None of it is authenticated:
the provider may answer with any map, and `parse` decides what of it can be used.
-/

namespace BlindBucket

open ByteIo BlindBucket.Stream GoText List

namespace ObjectMeta

def metaVersion : Bytes := ascii "bb-v"
def metaKeyID : Bytes := ascii "bb-kid"
def metaDEK : Bytes := ascii "bb-dek"
def metaChunkSize : Bytes := ascii "bb-c"
def metaManifestID : Bytes := ascii "bb-mid"

def wrapNonceSize : Nat := 12
def wrapTagSize : Nat := 16
def wrappedDEKSize : Nat := wrapNonceSize + keySize + wrapTagSize
def maxKIDLen : Nat := 64

/-- The metadata map of a provider's answer, in the order in which it is walked. No name matches two
of the keys, so that one order serves all lookups. -/
abbrev Metadata := List (Bytes × Bytes)

end ObjectMeta

/-- What is recorded alongside an object. `manifestID` is set for a multipart object. -/
structure Meta where
  version : Int
  keyID : Bytes
  wrappedDEK : Bytes
  log2ChunkSize : Nat
  hasChunkSize : Bool
  manifestID : Option Manifest.ID
deriving DecidableEq

def Meta.multipart (m : Meta) : Bool := m.manifestID.isSome

variable {md : Metadata} {c : Nat} {m : Meta}

namespace ObjectMeta

def kidChar (c : UInt8) : Bool :=
  decide (0x41 ≤ c ∧ c ≤ 0x5A) || decide (0x61 ≤ c ∧ c ≤ 0x7A) || decide (0x30 ≤ c ∧ c ≤ 0x39)
    || c == 0x2E || c == 0x5F || c == 0x2D

def validateKID (kid : Bytes) : Try Unit :=
  if kid.length = 0 ∨ maxKIDLen < kid.length then
    .error (wrapf .kidInvalid "%w: length %d outside 1..%d" [.int kid.length, .int maxKIDLen])
  else if ¬ kid.all kidChar then
    .error (wrapf .kidInvalid "%w: %q contains a character outside [A-Za-z0-9._-]" [.bytes kid])
  else .ok ()

section

-- `base64.RawURLEncoding.DecodeString`
variable (base64 : Bytes → Option Bytes)

def decodeWrapped (s : Bytes) : Try Bytes :=
  match base64 s with
  | none => .error (errorf "keys: wrapped key is not valid base64url: %w" [])
  | some b => .ok b

def parseID (s : Bytes) : Try Manifest.ID :=
  match base64 s with
  | none => .error (errorf "manifest: id is not valid base64url: %w" [])
  | some b =>
    if h : b.length = Manifest.idSize then .ok ⟨b, h⟩
    else .error (errorf "manifest: id is %d bytes, want %d" [.int b.length, .int Manifest.idSize])

/-- The version that `bb-v` holds. -/
def parseVersion (raw : Bytes) : Try Int :=
  match parseInt raw with
  | none => .error (errorf "object metadata has no usable %s: %w" [.bytes metaVersion])
  | some v =>
    if v ≠ version.toNat then
      .error (errorf "object is format version %d, this build reads %d"
        [.int v, .int version.toNat])
    else .ok v

/-- The chunk size that `bb-c` holds, and whether it holds one. -/
def parseChunkSize (raw : Bytes) (fallbackLog2C : Nat) : Try (Nat × Bool) :=
  if raw = [] then .ok (fallbackLog2C, false)
  else
    match parseInt raw with
    | none => .error (errorf "object metadata has an unreadable %s" [.bytes metaChunkSize])
    | some c =>
      if c < 0 ∨ 255 < c then
        .error (errorf "object metadata has an unreadable %s" [.bytes metaChunkSize])
      else .ok (c.toNat, true)

/-- The manifest that `bb-mid` names, if any. -/
def parseManifestID (raw : Bytes) : Try (Option Manifest.ID) :=
  if raw = [] then .ok none
  else (parseID base64 raw).map some

def parse (md : Metadata) (fallbackLog2C : Nat) : Try Meta := do
  let raw := lookupFold metaDEK md
  if raw = [] then
    .error (wrapf .notEncrypted "object was not written by this gateway" [])
  else
    let v ← parseVersion (lookupFold metaVersion md)
    let kid := lookupFold metaKeyID md
    validateKID kid
    let wrapped ← decodeWrapped base64 raw
    if wrapped.length ≠ wrappedDEKSize then
      .error (errorf "wrapped key is %d bytes, want %d"
        [.int wrapped.length, .int wrappedDEKSize])
    else
      let (log2C, recorded) ← parseChunkSize (lookupFold metaChunkSize md) fallbackLog2C
      validateLog2ChunkSize log2C
      let id ← parseManifestID base64 (lookupFold metaManifestID md)
      .ok ⟨v, kid, wrapped, log2C, recorded, id⟩

variable {base64}

/-- What metadata holds that parses. -/
structure Parses (base64 : Bytes → Option Bytes) (md : Metadata) (c : Nat) (m : Meta) : Prop where
  named : lookupFold metaDEK md ≠ []
  version : m.version = Stream.version.toNat
  keyID : m.keyID = lookupFold metaKeyID md
  kid : validateKID m.keyID = .ok ()
  wrapped : base64 (lookupFold metaDEK md) = some m.wrappedDEK
  size : m.wrappedDEK.length = wrappedDEKSize
  chunk : parseChunkSize (lookupFold metaChunkSize md) c = .ok (m.log2ChunkSize, m.hasChunkSize)
  log2 : ValidLog2 m.log2ChunkSize
  manifest : parseManifestID base64 (lookupFold metaManifestID md) = .ok m.manifestID

theorem parseVersion_ok {raw : Bytes} {v : Int} (h : parseVersion raw = .ok v) : v = Stream.version.toNat := by
  unfold parseVersion at h
  split at h
  · simp at h
  · obtain ⟨hv, h⟩ := else_ok h
    rw [← Except.ok.inj h]
    exact not_not.mp hv

theorem decodeWrapped_ok {s w : Bytes} (h : decodeWrapped base64 s = .ok w) : base64 s = some w := by
  unfold decodeWrapped at h
  split at h
  · simp at h
  next hb =>
    rw [hb, Except.ok.inj h]

theorem parse_ok (h : parse base64 md c = .ok m) : Parses base64 md c m := by
  obtain ⟨hnamed, h⟩ := else_ok h
  obtain ⟨v, hv, h⟩ := bind_ok h
  obtain ⟨_, hkid, h⟩ := bind_ok h
  obtain ⟨w, hw, h⟩ := bind_ok h
  obtain ⟨hsize, h⟩ := else_ok h
  obtain ⟨⟨log2C, recorded⟩, hchunk, h⟩ := bind_ok h
  obtain ⟨_, hc, h⟩ := bind_ok h
  obtain ⟨id, hid, h⟩ := bind_ok h
  cases h
  exact ⟨hnamed, parseVersion_ok hv, rfl, hkid, decodeWrapped_ok hw, not_not.mp hsize, hchunk,
    validateLog2ChunkSize_ok.mp hc, hid⟩

end

/-! ## What the gateway writes -/

/-- The prefix of the gateway's own entries. -/
def metaPrefix : Bytes := ascii "bb-"

/-- An encoding of bytes as text. -/
structure Base64 where
  encode : Bytes → Bytes
  decode : Bytes → Option Bytes
  decode_nil : decode [] = some []
  decode_encode : ∀ b, decode (encode b) = some b

/-- `base64.RawURLEncoding`. -/
def rawURLEncoding : BaseText.Alphabet where
  width := 6
  chars := ascii "ABCDEFGHIJKLMNOPQRSTUVWXYZabcdefghijklmnopqrstuvwxyz0123456789-_"
  width_pos := by decide
  width_le := by decide
  size := by decide
  nodup := by decide
  no_lf := by decide
  no_cr := by decide

def rawURL : Base64 :=
  ⟨rawURLEncoding.encode, rawURLEncoding.decode, rfl, rawURLEncoding.decode_encode⟩

theorem Base64.encode_ne_nil (E : Base64) {b : Bytes} (h : b ≠ []) : E.encode b ≠ [] := by
  intro he
  have hb := E.decode_encode b
  rw [he, E.decode_nil] at hb
  exact h (Option.some.inj hb).symm

theorem Base64.encode_inj (E : Base64) {x y : Bytes} (h : E.encode x = E.encode y) : x = y := by
  have hx := E.decode_encode x
  rw [h, E.decode_encode] at hx
  exact (Option.some.inj hx).symm

/-- `strings.HasPrefix(strings.ToLower(name), Prefix)`. -/
def reserved (name : Bytes) : Bool := metaPrefix.isPrefixOf (toLower name)

/-- What a client set. -/
def userMetadataOf (md : Metadata) : Metadata := md.filter fun e => !reserved e.1

/-- `bb-dek` as the provider holds it. -/
def storedDEK (md : Metadata) : Bytes := lookupFold metaDEK md

def namedManifest (E : Base64) (md : Metadata) : Option Manifest.ID :=
  match parseManifestID E.decode (lookupFold metaManifestID md) with
  | .ok id => id
  | .error _ => none

end ObjectMeta

open ObjectMeta

def Meta.headers (E : Base64) (m : Meta) : Metadata :=
  [(metaVersion, itoa m.version), (metaKeyID, m.keyID), (metaDEK, E.encode m.wrappedDEK),
    (metaChunkSize, itoa m.log2ChunkSize)]
    ++ match m.manifestID with
      | some id => [(metaManifestID, E.encode id.1)]
      | none => []

/-- The gateway's entries replace those of the same name. -/
def mergeMetadata (E : Base64) (client : Metadata) (own : Meta) : Metadata :=
  client.filter (fun e => !(own.headers E).any fun h => h.1 == e.1) ++ own.headers E

namespace ObjectMeta

variable {E : Base64}

variable {key t : Bytes} {client : Metadata} {e : Bytes × Bytes}

theorem not_equalFold {name : Bytes} (hkey : fold key = 0x62 :: 0x62 :: 0x2D :: t) (h : reserved name = false) :
    equalFold name key = false := by
  rw [equalFold, decide_eq_false_iff_not, hkey]
  intro he
  obtain ⟨s₁, h₁, he⟩ := toLower_of_fold (by decide) (by decide) (by decide) (by decide) he
  obtain ⟨s₂, h₂, he⟩ := toLower_of_fold (by decide) (by decide) (by decide) (by decide) he
  obtain ⟨s₃, h₃, -⟩ := toLower_of_fold (by decide) (by decide) (by decide) (by decide) he
  rw [reserved, h₁, h₂, h₃] at h
  simp [metaPrefix, ascii, List.isPrefixOf] at h

theorem parseManifestID_encode (id : Manifest.ID) : parseManifestID E.decode (E.encode id.1) = .ok (some id) := by
  have hne : id.1 ≠ [] := by
    intro h
    have := id.2
    rw [h] at this
    exact absurd this (by decide)
  rw [parseManifestID, if_neg (E.encode_ne_nil hne), parseID, E.decode_encode]
  dsimp only
  rw [dif_pos id.2]
  rfl

/-- No two of the gateway's entries have one name, in whatever case. -/
theorem headers_nodup : ((m.headers E).map fun e => fold e.1).Nodup := by
  have hall : ([metaVersion, metaKeyID, metaDEK, metaChunkSize, metaManifestID].map fold).Nodup := by decide
  unfold Meta.headers
  cases m.manifestID with
  | none => exact hall.sublist (sublist_append_left (map fold [metaVersion, metaKeyID, metaDEK, metaChunkSize]) _)
  | some id => exact hall

section

variable {stored : Metadata} (hc : ∀ e ∈ client, reserved e.1 = false)
  (hs : stored.Perm (mergeMetadata E client m))

include hc hs

theorem mem_headers_of_fold (hkey : fold key = 0x62 :: 0x62 :: 0x2D :: t) (he : e ∈ stored)
    (hf : equalFold e.1 key = true) : e ∈ m.headers E := by
  rcases mem_append.mp (hs.mem_iff.mp he) with he | he
  · rw [not_equalFold hkey (hc e (mem_filter.mp he).1)] at hf
    simp at hf
  · exact he

theorem lookupFold_merge {v : Bytes} (hkey : fold key = 0x62 :: 0x62 :: 0x2D :: t) (hmem : (key, v) ∈ m.headers E) :
    lookupFold key stored = v := by
  refine lookupFold_eq (hs.mem_iff.mpr (mem_append_right _ hmem)) fun e he hf => ?_
  have heq : e = (key, v) :=
    inj_on_of_nodup_map headers_nodup (mem_headers_of_fold hc hs hkey he hf) hmem (of_decide_eq_true hf)
  rw [heq]

theorem parseManifestID_merge : parseManifestID E.decode (lookupFold metaManifestID stored) = .ok m.manifestID := by
  have hkey : fold metaManifestID = 0x62 :: 0x62 :: 0x2D :: ascii "mid" := by decide
  cases hid : m.manifestID with
  | none =>
    have hnone : ∀ e ∈ m.headers E, equalFold e.1 metaManifestID = false := by
      simp only [Meta.headers, hid, append_nil, forall_mem_cons, not_mem_nil, false_imp_iff, implies_true]
      decide
    rw [lookupFold_eq_nil fun e he => ?_]
    · rfl
    · by_contra hf
      rw [Bool.not_eq_false] at hf
      rw [hnone e (mem_headers_of_fold hc hs hkey he hf)] at hf
      simp at hf
  | some id =>
    rw [lookupFold_merge hc hs hkey (v := E.encode id.1) (by simp [Meta.headers, hid]), parseManifestID_encode]

end

/-- What is written names the manifest it was given, and no other. -/
theorem namedManifest_merge (hc : ∀ e ∈ client, reserved e.1 = false) (m : Meta) :
    namedManifest E (mergeMetadata E client m) = m.manifestID := by
  rw [namedManifest, parseManifestID_merge hc (.refl _)]

theorem storedDEK_merge (hc : ∀ e ∈ client, reserved e.1 = false) (m : Meta) :
    storedDEK (mergeMetadata E client m) = E.encode m.wrappedDEK :=
  lookupFold_merge hc (.refl _) (t := ascii "dek") (by decide) (by simp [Meta.headers])

theorem userMetadataOf_not_reserved (h : e ∈ userMetadataOf md) : reserved e.1 = false := by
  have h := (mem_filter.mp h).2
  simpa using h

theorem reserved_headers (h : e ∈ m.headers E) : reserved e.1 = true := by
  have hv : reserved metaVersion = true := by decide
  have hk : reserved metaKeyID = true := by decide
  have hd : reserved metaDEK = true := by decide
  have hc : reserved metaChunkSize = true := by decide
  have hm : reserved metaManifestID = true := by decide
  rcases mem_append.mp h with h | h
  · simp only [mem_cons, not_mem_nil, or_false] at h
    rcases h with rfl | rfl | rfl | rfl
    · exact hv
    · exact hk
    · exact hd
    · exact hc
  · cases hid : m.manifestID with
    | none =>
      rw [hid] at h
      exact absurd h not_mem_nil
    | some id =>
      rw [hid] at h
      rw [mem_singleton.mp h]
      exact hm

/-- What a client set is read back as it was set. -/
theorem userMetadataOf_merge (md : Metadata) (m : Meta) :
    userMetadataOf (mergeMetadata E (userMetadataOf md) m) = userMetadataOf md := by
  have hkeep : (userMetadataOf md).filter (fun e => !(m.headers E).any fun h => h.1 == e.1) = userMetadataOf md := by
    refine filter_eq_self.mpr fun e he => ?_
    have hres := userMetadataOf_not_reserved he
    rw [Bool.not_eq_true', any_eq_false]
    intro h hh heq
    rw [← eq_of_beq heq, reserved_headers hh] at hres
    simp at hres
  have hown : userMetadataOf (m.headers E) = [] := by
    refine filter_eq_nil_iff.mpr fun e he => ?_
    rw [reserved_headers he]
    simp
  have hself : userMetadataOf (userMetadataOf md) = userMetadataOf md :=
    filter_eq_self.mpr fun e he => (mem_filter.mp he).2
  rw [mergeMetadata, hkeep]
  unfold userMetadataOf at hown hself ⊢
  rw [filter_append, hown, append_nil, hself]

theorem namedManifest_mergeUser (md : Metadata) (m : Meta) :
    namedManifest E (mergeMetadata E (userMetadataOf md) m) = m.manifestID :=
  namedManifest_merge (fun _ he => userMetadataOf_not_reserved he) m

theorem parse_namedManifest (h : parse E.decode md c = .ok m) : m.manifestID = namedManifest E md := by
  rw [namedManifest, (parse_ok h).manifest]

theorem parseChunkSize_itoa {n : Nat} (h : ValidLog2 n) (c : Nat) : parseChunkSize (itoa n) c = .ok (n, true) := by
  have hmax : n ≤ 20 := h.2
  have hn : n < 2 ^ 63 := by omega
  have hp : parseInt (itoa n) = some (n : Int) := by rw [itoa_natCast, parseInt_decimal, if_pos hn]
  have hne : itoa (n : Int) ≠ [] := by
    intro he
    rw [he] at hp
    simp [parseInt, parseSign] at hp
  rw [parseChunkSize, if_neg hne, hp]
  dsimp only
  rw [if_neg (by omega), Int.toNat_natCast]

theorem parseVersion_itoa : parseVersion (itoa Stream.version.toNat) = .ok (Stream.version.toNat : Int) := by
  have hp : parseInt (itoa Stream.version.toNat) = some (Stream.version.toNat : Int) := by
    rw [itoa_natCast, parseInt_decimal, if_pos (by decide)]
  rw [parseVersion, hp]
  dsimp only
  rw [if_neg (not_not.mpr rfl)]

/-- **What the gateway writes it reads back**, with the chunk size recorded, in whatever order the map is
walked. -/
theorem parse_merge {stored : Metadata} (hc : ∀ e ∈ client, reserved e.1 = false)
    (hs : stored.Perm (mergeMetadata E client m)) (hv : m.version = Stream.version.toNat)
    (hkid : validateKID m.keyID = .ok ()) (hsize : m.wrappedDEK.length = wrappedDEKSize)
    (hlog : ValidLog2 m.log2ChunkSize) (c : Nat) :
    parse E.decode stored c = .ok { m with hasChunkSize := true } := by
  have hdek : lookupFold metaDEK stored = E.encode m.wrappedDEK :=
    lookupFold_merge hc hs (t := ascii "dek") (by decide) (by simp [Meta.headers])
  have hver : lookupFold metaVersion stored = itoa m.version :=
    lookupFold_merge hc hs (t := ascii "v") (by decide) (by simp [Meta.headers])
  have hk : lookupFold metaKeyID stored = m.keyID :=
    lookupFold_merge hc hs (t := ascii "kid") (by decide) (by simp [Meta.headers])
  have hch : lookupFold metaChunkSize stored = itoa m.log2ChunkSize :=
    lookupFold_merge hc hs (t := ascii "c") (by decide) (by simp [Meta.headers])
  have hid := parseManifestID_merge hc hs
  have hne : m.wrappedDEK ≠ [] := by
    intro h
    rw [h] at hsize
    exact absurd hsize (by decide)
  have hwrap : decodeWrapped E.decode (E.encode m.wrappedDEK) = .ok m.wrappedDEK := by
    rw [decodeWrapped, E.decode_encode]
  unfold parse
  dsimp only
  rw [hdek, if_neg (E.encode_ne_nil hne), hver, hv, parseVersion_itoa, hk, hkid, hwrap, hch,
    parseChunkSize_itoa hlog, hid]
  have hl : validateLog2ChunkSize m.log2ChunkSize = .ok () := validateLog2ChunkSize_ok.mpr hlog
  cases m
  simp [hsize, hl, bind, Except.bind]

/-- What is stored of an object that was rewritten for each of these, the last one first. -/
def rewritten (E : Base64) (md : Metadata) : List Meta → Metadata
  | [] => md
  | m :: before => mergeMetadata E (userMetadataOf (rewritten E md before)) m

theorem userMetadataOf_rewritten (md : Metadata) (ms : List Meta) :
    userMetadataOf (rewritten E md ms) = userMetadataOf md := by
  induction ms with
  | nil => rfl
  | cons m before ih => rw [rewritten, userMetadataOf_merge, ih]

theorem reserved_merge (hc : ∀ e ∈ client, reserved e.1 = false) (m : Meta) :
    (mergeMetadata E client m).filter (fun e => reserved e.1) = m.headers E := by
  rw [mergeMetadata, filter_append, filter_eq_nil_iff.mpr fun e he => ?_, nil_append,
    filter_eq_self.mpr fun e he => reserved_headers he]
  rw [hc e (mem_filter.mp he).1]
  simp

/-- **Rewriting leaves what a client set**, however often it is done and whatever was stored. In whatever order the map
is walked, the last that was written is all that is left under the gateway's names, and it is read back. -/
theorem rewritten_reads_back (md : Metadata) (before : List Meta) (hv : m.version = Stream.version.toNat)
    (hkid : validateKID m.keyID = .ok ()) (hsize : m.wrappedDEK.length = wrappedDEKSize)
    (hlog : ValidLog2 m.log2ChunkSize) (c : Nat) :
    userMetadataOf (rewritten E md (m :: before)) = userMetadataOf md ∧
      ∀ stored : Metadata, stored.Perm (rewritten E md (m :: before)) →
        (stored.filter fun e => reserved e.1).Perm (m.headers E) ∧
          parse E.decode stored c = .ok { m with hasChunkSize := true } := by
  have hc : ∀ e ∈ userMetadataOf (rewritten E md before), reserved e.1 = false :=
    fun _ he => userMetadataOf_not_reserved he
  refine ⟨userMetadataOf_rewritten md _, fun stored hs => ⟨?_, parse_merge hc hs hv hkid hsize hlog c⟩⟩
  rw [← reserved_merge hc m]
  exact hs.filter _

/-- A client's entry beside a `BB-Dek` that somebody else put there, walked from the last entry to the first. -/
theorem rewritten_reads_back_planted :
    parse rawURL.decode (rewritten rawURL [(ascii "BB-Dek", [1]), (ascii "x", [2])]
      [⟨1, ascii "k", replicate 60 0, 16, false, none⟩]).reverse 12
        = .ok ⟨1, ascii "k", replicate 60 0, 16, true, none⟩ :=
  ((rewritten_reads_back _ _ rfl (by decide) (by decide) (by decide) 12).2 _ (reverse_perm _)).2

end ObjectMeta

end BlindBucket
