import BlindBucket.Keys.Aad

/-!
# Keyrings

A keyring holds the key-encryption keys of one tenant under their ids, and wraps data keys under them. The
maps of the source, from key ids to keys and to creation dates, are one list sorted by key id, so that two
keyrings with the same keys are the same. A key that is read from a file without a date has none.
-/

namespace BlindBucket.Keys

open ByteIo GoText ObjectMeta List

def keySize : Nat := 32

/-- The key of an upload token has the size of a key-encryption key. -/
def tokenKeySize : Nat := keySize

def tokenKeyInfo : String := "blindbucket/v1/upload-token"

/-- `hkdf.Key` over SHA-256, which does not fail for keys of this size. -/
abbrev Hkdf := (secret salt : Bytes) → (info : String) → (length : Nat) → Bytes

def wrapNonceSize : Nat := 12
def wrapTagSize : Nat := 16
def maxSealed : Nat := 2 ^ 20

/-- `sealKey`, with the nonce it draws. -/
def sealKey (A : Aead wrapTagSize) (nonce kek plain aad : Bytes) : Try Bytes :=
  if maxSealed < plain.length then
    .error (errorf "keys: refusing to seal %d bytes, at most %d" [.int plain.length, .int maxSealed])
  else if kek.length ≠ keySize then
    .error (errorf "keys: key-encryption key is %d bytes, want %d" [.int kek.length, .int keySize])
  else
    .ok (nonce ++ A.sealBytes kek nonce plain aad)

def openKey (A : Aead wrapTagSize) (kek wrapped aad : Bytes) : Try Bytes :=
  if wrapped.length < wrapNonceSize + wrapTagSize then
    .error (wrapf .unwrap "%w: wrapped key is %d bytes, too short to be one" [.int wrapped.length])
  else if kek.length ≠ keySize then
    .error (errorf "keys: key-encryption key is %d bytes, want %d" [.int kek.length, .int keySize])
  else
    match A.openBytes kek (wrapped.take wrapNonceSize) (wrapped.drop wrapNonceSize) aad with
    | none => .error (wrapf .unwrap "keys: unwrapping failed" [])
    | some plain => .ok plain

/-- The bytes of a key: a key-encryption key, or the secret of an audit, name or freshness key. -/
abbrev Secret := { s : Bytes // s.length = keySize }

structure KeyRow where
  kid : Bytes
  kek : Secret
  created : Option Int
deriving DecidableEq

structure Keyring where
  /-- The key that new data keys are wrapped under, empty if none is. -/
  active : Bytes
  keys : List KeyRow
  audit : Option Secret
  name : Option Secret
  freshness : Option Secret
  /-- No key id is there twice. -/
  sorted : keys.Pairwise fun a b => a.kid < b.kid
  /-- What `Add` has checked. -/
  valid : ∀ r ∈ keys, validateKID r.kid = .ok ()
deriving DecidableEq

def newKeyring : Keyring where
  active := []
  keys := []
  audit := none
  name := none
  freshness := none
  sorted := List.Pairwise.nil
  valid := by simp

/-- The key at its place. -/
def insertRow (row : KeyRow) : List KeyRow → List KeyRow
  | [] => [row]
  | r :: rest => if row.kid < r.kid then row :: r :: rest else r :: insertRow row rest

variable {row : KeyRow} {r r' : Keyring} {kid kek : Bytes} {A : Aead wrapTagSize} {created : Option Int}

theorem mem_insertRow {r : KeyRow} {rows : List KeyRow} : r ∈ insertRow row rows ↔ r = row ∨ r ∈ rows := by
  induction rows with
  | nil => simp [insertRow]
  | cons x rest ih =>
    unfold insertRow
    split
    · simp
    · rw [mem_cons, mem_cons]
      tauto

theorem insertRow_sorted {rows : List KeyRow} (hs : rows.Pairwise fun a b => a.kid < b.kid)
    (hnew : ∀ r ∈ rows, r.kid ≠ row.kid) :
    (insertRow row rows).Pairwise fun a b => a.kid < b.kid := by
  induction rows with
  | nil => exact pairwise_singleton _ _
  | cons x rest ih =>
    obtain ⟨hx, hrest⟩ := pairwise_cons.mp hs
    unfold insertRow
    split
    next hlt =>
      refine pairwise_cons.mpr ⟨fun r hr => ?_, hs⟩
      rcases mem_cons.mp hr with rfl | hr
      · exact hlt
      · exact Std.lt_trans hlt (hx r hr)
    next hnlt =>
      have hlt : x.kid < row.kid := by
        by_contra hno
        have heq := Std.le_antisymm (Std.not_lt.mp hno) (Std.not_lt.mp hnlt)
        exact hnew x mem_cons_self heq.symm
      refine pairwise_cons.mpr ⟨fun r hr => ?_, ih hrest fun r hr => hnew r (mem_cons_of_mem _ hr)⟩
      rcases mem_insertRow.mp hr with rfl | hr
      · exact hlt
      · exact hx r hr

namespace Keyring

/-- `KIDs`, sorted. -/
def kids (r : Keyring) : List Bytes := r.keys.map KeyRow.kid

/-- `Add`. It stamps a key with the current time; what is read from a file gets the date it records. -/
def add (r : Keyring) (kid kek : Bytes) (created : Option Int) : Try Keyring :=
  match hv : validateKID kid with
  | .error e => .error e
  | .ok () =>
    if hl : kek.length ≠ keySize then
      .error (errorf "keys: KEK %q is %d bytes, want %d" [.bytes kid, .int kek.length, .int keySize])
    else if he : kid ∈ r.kids then
      .error (errorf "keys: key id %q already exists" [.bytes kid])
    else
      .ok { r with
        active := if r.active = [] then kid else r.active
        keys := insertRow ⟨kid, ⟨kek, Classical.not_not.mp hl⟩, created⟩ r.keys
        sorted := insertRow_sorted r.sorted fun x hx heq => he (List.mem_map.mpr ⟨x, hx, heq⟩)
        valid := by
          intro x hx
          rcases mem_insertRow.mp hx with rfl | hx
          · exact hv
          · exact r.valid x hx }

def setActive (r : Keyring) (kid : Bytes) : Try Keyring :=
  if kid ∈ r.kids then .ok { r with active := kid }
  else .error (wrapf .unknownKID "%w: %q" [.bytes kid])

def createdAt (r : Keyring) (kid : Bytes) : Option Int :=
  (r.keys.find? fun row => row.kid = kid).bind KeyRow.created

def lookup (r : Keyring) (kid : Bytes) : Try Secret :=
  match r.keys.find? fun row => row.kid = kid with
  | none => .error (wrapf .unknownKID "%w: %q" [.bytes kid])
  | some row => .ok row.kek

def wrap (A : Aead wrapTagSize) (nonce : Bytes) (r : Keyring) (kid dek aad : Bytes) :
    Try Bytes := do
  let kek ← r.lookup kid
  sealKey A nonce kek.val dek aad

def unwrap (A : Aead wrapTagSize) (r : Keyring) (kid wrapped aad : Bytes) : Try Bytes := do
  let kek ← r.lookup kid
  openKey A kek.val wrapped aad

def tokenKey (H : Hkdf) (r : Keyring) (kid : Bytes) : Try Bytes := do
  let kek ← r.lookup kid
  .ok (H kek.val [] tokenKeyInfo tokenKeySize)

/-! ## Lookups -/

theorem lookup_ok (h : kid ∈ r.kids) : ∃ kek, r.lookup kid = .ok kek := by
  obtain ⟨row, hrow, rfl⟩ := mem_map.mp h
  unfold lookup
  cases hf : r.keys.find? fun x => x.kid = row.kid with
  | none => exact absurd (find?_eq_none.mp hf row hrow) (by simp)
  | some found => exact ⟨found.kek, rfl⟩

end Keyring

theorem openKey_sealKey (hA : A.Correct) {nonce plain aad sealed : Bytes} (hnonce : nonce.length = wrapNonceSize)
    (h : sealKey A nonce kek plain aad = .ok sealed) :
    openKey A kek sealed aad = .ok plain := by
  obtain ⟨_, h⟩ := else_ok h
  obtain ⟨hkek, h⟩ := else_ok h
  cases h
  have hlong : ¬ (nonce ++ A.sealBytes kek nonce plain aad).length < wrapNonceSize + wrapTagSize := by
    rw [length_append, A.sealBytes_length]
    omega
  unfold openKey
  rw [if_neg hlong, if_neg hkek, take_left' hnonce, drop_left' hnonce, hA]

theorem sealKey_ok (A : Aead wrapTagSize) (nonce aad : Bytes) {plain : Bytes} (hkek : kek.length = keySize)
    (hplain : plain.length ≤ maxSealed) :
    sealKey A nonce kek plain aad = .ok (nonce ++ A.sealBytes kek nonce plain aad) := by
  unfold sealKey
  rw [if_neg (Nat.not_lt.mpr hplain), if_neg (by simp [hkek])]

theorem Keyring.unwrap_wrap (hA : A.Correct) (h : kid ∈ r.kids) {nonce : Bytes}
    (hnonce : nonce.length = wrapNonceSize) {dek : Bytes} (hdek : dek.length ≤ maxSealed) (aad : Bytes) :
    ∃ wrapped, r.wrap A nonce kid dek aad = .ok wrapped ∧ r.unwrap A kid wrapped aad = .ok dek := by
  obtain ⟨kek, hkek⟩ := r.lookup_ok h
  have hseal := sealKey_ok A nonce aad kek.property hdek
  refine ⟨nonce ++ A.sealBytes kek.val nonce dek aad, ?_, ?_⟩
  · unfold wrap
    rw [hkek, ok_bind, hseal]
  · unfold unwrap
    rw [hkek, ok_bind, openKey_sealKey hA hnonce hseal]

theorem Keyring.add_ok (h : r.add kid kek created = .ok r') :
    kid ∉ r.kids ∧ (∃ hk : kek.length = keySize, r'.keys = insertRow ⟨kid, ⟨kek, hk⟩, created⟩ r.keys) ∧
      r'.active = (if r.active = [] then kid else r.active) ∧ r'.audit = r.audit ∧ r'.name = r.name ∧
        r'.freshness = r.freshness := by
  unfold add at h
  split at h
  · simp at h
  · split at h
    · simp at h
    · split at h
      · simp at h
      next hl he =>
        cases h
        exact ⟨he, ⟨Classical.not_not.mp hl, rfl⟩, rfl, rfl, rfl, rfl⟩

theorem Keyring.mem_kids_add (h : r.add kid kek created = .ok r') (x : Bytes) : x ∈ r'.kids ↔ x = kid ∨ x ∈ r.kids := by
  obtain ⟨_, ⟨hk, hkeys⟩, _⟩ := add_ok h
  unfold kids
  rw [hkeys]
  simp only [mem_map, mem_insertRow]
  constructor
  · rintro ⟨row, rfl | hrow, rfl⟩
    · exact Or.inl rfl
    · exact Or.inr ⟨row, hrow, rfl⟩
  · rintro (rfl | ⟨row, hrow, rfl⟩)
    · exact ⟨_, Or.inl rfl, rfl⟩
    · exact ⟨row, Or.inr hrow, rfl⟩

end BlindBucket.Keys
