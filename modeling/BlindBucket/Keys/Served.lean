import BlindBucket.Keys.File

/-!
# Serving a keyring

`NewServed` turns an opened file into what a gateway asks for keys: for each bucket whose keys its writes
use, and for each key id the ring that holds it. A bucket of a destroyed tenant, or of one that did not open
here, gets no keys at all.
-/

namespace BlindBucket.Keys

open ByteIo GoText ObjectMeta List

structure BucketKeys where
  tenant : Bytes
  kid : Bytes
  nameTenant : Bytes
  name : Option Secret
deriving DecidableEq

/-- `Keyring.For`: without tenants every bucket is the default tenant's. -/
def Keyring.forBucket (r : Keyring) : BucketKeys := ⟨defaultTenant, r.active, defaultTenant, r.name⟩

/-- What a snapshot keeps of a tenant to answer for it. -/
structure ServedTenant where
  activeKID : Bytes
  ring : Try Keyring

/-- `Served`. The maps are lists, in which what was put in last comes first. -/
structure Served where
  default : Keyring
  dir : Directory
  generation : Nat
  byKID : List (Bytes × Keyring)
  tenants : List (Bytes × ServedTenant)

/-- The ring under each of its key ids. -/
def ringRows (r : Keyring) : List (Bytes × Keyring) := r.kids.map fun kid => (kid, r)

/-- What a tenant adds to the map of rings. -/
def Tenant.ringRows (t : Tenant) : List (Bytes × Keyring) :=
  match t.ring with
  | .error _ => []
  | .ok r => Keys.ringRows r

def newServed (f : File) : Served where
  default := f.default
  dir := f.directory
  generation := f.generation
  byKID := f.tenants.foldl (fun rows t => t.ringRows ++ rows) (ringRows f.default)
  tenants := f.tenants.foldl (fun rows t => (t.name, ⟨t.activeKID, t.ring⟩) :: rows) []

namespace Served

def ring (s : Served) (kid : Bytes) : Try Keyring :=
  match s.byKID.find? fun row => row.1 = kid with
  | none => .error (wrapf .unknownKID "%w: %q" [.bytes kid])
  | some row => .ok row.2

def wrap (A : Aead wrapTagSize) (nonce : Bytes) (s : Served) (kid dek aad : Bytes) :
    Try Bytes := do
  let r ← s.ring kid
  r.wrap A nonce kid dek aad

def unwrap (A : Aead wrapTagSize) (s : Served) (kid wrapped aad : Bytes) : Try Bytes := do
  let r ← s.ring kid
  r.unwrap A kid wrapped aad

def tokenKey (H : Hkdf) (s : Served) (kid : Bytes) : Try Bytes := do
  let r ← s.ring kid
  r.tokenKey H kid

/-- `For`. -/
def forBucket (s : Served) (bucket : Bytes) : Try BucketKeys :=
  let (name, destroyed) := s.dir.tenant bucket
  if destroyed = true then .error (wrapf .tenantDestroyed "%w: %q" [.bytes name])
  else if name = defaultTenant then .ok s.default.forBucket
  else
    match s.tenants.find? fun row => row.1 = name with
    -- every tenant of the directory is in the map, so this is never reached
    | none => .error (errorf "nil pointer dereference" [])
    | some (_, t) =>
      match t.ring with
      | .error _ => .error (wrapf .tenantUnopened "%w: %q" [.bytes name])
      | .ok r =>
        if t.activeKID = [] then .ok { s.default.forBucket with tenant := name }
        else .ok ⟨name, t.activeKID, name, r.name⟩

end Served

/-! ## What opening a file has checked -/

/-- What holds of every file that was opened: the directory is well formed, and a tenant that opened has the
keys the directory lists, with the active key it says. -/
structure File.Sound (f : File) : Prop where
  directory : f.directory.WellFormed f.default.kids
  /-- The default tenant's active key is one of its keys. -/
  active : f.default.active ∈ f.default.kids
  opened : ∀ t ∈ f.tenants, ∀ r, t.ring = .ok r → ∀ kid, kid ∈ r.kids ↔ kid ∈ t.kids

variable {A : Aead wrapTagSize} {H : Hkdf}

variable {J : FileCodec} {rootKey hint kid n : Bytes} {s : TenantSection} {r : Keyring} {tenantRoot : TenantRoot}
  {f : File}
  {t : Tenant} {row : Bytes × Keyring} {ts : List Tenant}

theorem openSectionKeys_kids {tenant : Bytes} {entries : List KeyEntry} {ring ring' : Keyring}
    (h : openSectionKeys A J tenant rootKey ring entries = .ok ring') (kid : Bytes) :
    kid ∈ ring'.kids ↔ kid ∈ ring.kids ∨ kid ∈ entries.map KeyEntry.kid := by
  induction entries generalizing ring with
  | nil =>
    cases h
    simp
  | cons e rest ih =>
    obtain ⟨_, _, h⟩ := bind_ok h
    obtain ⟨_, _, h⟩ := bind_ok h
    obtain ⟨_, _, h⟩ := bind_ok h
    obtain ⟨ring₁, hadd, h⟩ := bind_ok h
    rw [ih h, Keyring.mem_kids_add hadd, map_cons, mem_cons]
    tauto

theorem openSection_kids {active : Bytes} (h : openSection A J s active rootKey = .ok r) (kid : Bytes) :
    kid ∈ r.kids ↔ kid ∈ s.keys.map KeyEntry.kid := by
  obtain ⟨_, h⟩ := else_ok h
  obtain ⟨ring, hkeys, h⟩ := bind_ok h
  obtain ⟨_, _, h⟩ := bind_ok h
  obtain ⟨_, _, h⟩ := bind_ok h
  obtain ⟨_, _, h⟩ := bind_ok h
  obtain ⟨_, _, h⟩ := bind_ok h
  cases h
  have := openSectionKeys_kids hkeys kid
  simpa [newKeyring, Keyring.kids] using this

theorem openTenant_kids {t : DirectoryTenant} (h : openTenant A J rootKey tenantRoot t s = .ok r) (kid : Bytes) :
    kid ∈ r.kids ↔ kid ∈ s.keys.map KeyEntry.kid := by
  unfold openTenant at h
  split at h
  · exact openSection_kids h kid
  · split at h
    · simp at h
    · obtain ⟨_, _, h⟩ := bind_ok h
      obtain ⟨_, _, h⟩ := bind_ok h
      exact openSection_kids h kid

theorem mem_sortStrings {l : List Bytes} {x : Bytes} : x ∈ sortStrings l ↔ x ∈ l :=
  (perm_insertionSort _ l).mem_iff

/-- The section of a tenant that was checked lists the tenant's keys. -/
theorem checkTenants_kids {sections : List TenantSection} {ts : List DirectoryTenant}
    (h : checkTenants sections ts = .ok ()) {t : DirectoryTenant} (ht : t ∈ ts) (kid : Bytes) :
    kid ∈ (sectionOf sections t.name).keys.map KeyEntry.kid ↔ kid ∈ t.kids := by
  induction ts with
  | nil => simp at ht
  | cons x rest ih =>
    obtain ⟨_, hx, h⟩ := bind_ok h
    rcases mem_cons.mp ht with rfl | ht
    · unfold checkTenant at hx
      unfold sectionOf
      split at hx
      · simp at hx
      next s hs =>
        rw [hs, Option.getD_some]
        obtain ⟨hsame, hx⟩ := else_ok hx
        rw [← mem_sortStrings, Classical.not_not.mp hsame, mem_sortStrings]
    · exact ih h ht

theorem openKeyring_active {file : KeyringFile} (h : openKeyring A J file rootKey hint = .ok r) :
    r.active ∈ r.kids := by
  obtain ⟨ring, _, h⟩ := bind_ok h
  obtain ⟨ring', hactive, h⟩ := bind_ok h
  obtain ⟨_, _, h⟩ := bind_ok h
  obtain ⟨_, _, h⟩ := bind_ok h
  obtain ⟨_, _, h⟩ := bind_ok h
  cases h
  rw [mapError_ok] at hactive
  obtain ⟨hmem, hactive⟩ := then_ok hactive
  cases hactive
  exact hmem

theorem openDirectory_wellFormed {file : FileV2} {defaultKIDs : List Bytes} {dir : Directory}
    (h : openDirectory A J file rootKey defaultKIDs = .ok dir) : dir.WellFormed defaultKIDs := by
  obtain ⟨_, h⟩ := else_ok h
  obtain ⟨_, _, h⟩ := bind_ok h
  obtain ⟨_, _, h⟩ := bind_ok h
  obtain ⟨d, _, h⟩ := bind_ok h
  obtain ⟨_, h⟩ := else_ok h
  obtain ⟨⟨⟩, hvalid, h⟩ := bind_ok h
  cases h
  exact Directory.wellFormed_of_validate hvalid

/-- **A file that opens is sound**, whatever its bytes. -/
theorem openFile_sound {data : Bytes} {base : KeyringFile}
    (h : openFile A J data base rootKey tenantRoot hint = .ok f) : f.Sound := by
  obtain ⟨ring, hring, h⟩ := bind_ok h
  split at h
  · cases h
    refine ⟨⟨⟨?_, ?_, ?_, ?_, ?_, ?_, ?_⟩, ?_, ?_⟩, openKeyring_active hring, ?_⟩ <;>
      simp [File.directory, Directory.owners]
  · obtain ⟨file, _, h⟩ := bind_ok h
    obtain ⟨dir, hdir, h⟩ := bind_ok h
    obtain ⟨_, _, h⟩ := bind_ok h
    obtain ⟨_, h⟩ := else_ok h
    obtain ⟨⟨⟩, hcheck, h⟩ := bind_ok h
    cases h
    have hentries : (dir.tenants.map (readTenant A J rootKey tenantRoot file.tenants)).map Tenant.entry =
        dir.tenants := by
      rw [map_map]
      exact (map_congr_left fun _ _ => rfl).trans (map_id _)
    refine ⟨?_, openKeyring_active hring, ?_⟩
    · have hsame : File.directory ⟨ring, dir.generation,
          dir.tenants.map (readTenant A J rootKey tenantRoot file.tenants), dir.tombstones⟩ = dir := by
        unfold File.directory
        rw [hentries]
      rw [hsame]
      exact openDirectory_wellFormed hdir
    · intro t ht r hr kid
      obtain ⟨d, hd, rfl⟩ := mem_map.mp ht
      exact (openTenant_kids hr kid).trans (checkTenants_kids hcheck hd kid)

/-! ## The maps of a snapshot -/

theorem mem_ringRows : row ∈ ringRows r ↔ row.1 ∈ r.kids ∧ row.2 = r := by
  unfold ringRows
  rw [mem_map]
  constructor
  · rintro ⟨kid, hkid, rfl⟩
    exact ⟨hkid, rfl⟩
  · rintro ⟨hkid, hr⟩
    exact ⟨row.1, hkid, by rw [← hr]⟩

theorem Tenant.mem_ringRows : row ∈ t.ringRows ↔ t.ring = .ok row.2 ∧ row.1 ∈ row.2.kids := by
  unfold Tenant.ringRows
  cases hr : t.ring with
  | error e => simp
  | ok r =>
    rw [Keys.mem_ringRows]
    constructor
    · rintro ⟨hkid, hrow⟩
      exact ⟨by rw [hrow], by rw [hrow]; exact hkid⟩
    · rintro ⟨hrow, hkid⟩
      cases hrow
      exact ⟨hkid, rfl⟩

theorem mem_byKID_foldl {rows : List (Bytes × Keyring)} : row ∈ ts.foldl (fun rows t => t.ringRows ++ rows) rows ↔
      row ∈ rows ∨ ∃ t ∈ ts, t.ring = .ok row.2 ∧ row.1 ∈ row.2.kids := by
  induction ts generalizing rows with
  | nil => simp
  | cons t rest ih =>
    rw [foldl_cons, ih, mem_append, Tenant.mem_ringRows]
    simp only [mem_cons, exists_eq_or_imp]
    tauto

theorem mem_tenants_foldl {rows : List (Bytes × ServedTenant)} {row : Bytes × ServedTenant} :
    row ∈ ts.foldl (fun rows t => (t.name, ⟨t.activeKID, t.ring⟩) :: rows) rows ↔
      row ∈ rows ∨ ∃ t ∈ ts, row = (t.name, ⟨t.activeKID, t.ring⟩) := by
  induction ts generalizing rows with
  | nil => simp
  | cons t rest ih =>
    rw [foldl_cons, ih]
    simp only [mem_cons, exists_eq_or_imp]
    tauto

/-- Which ring holds a key id, and for which tenant. -/
inductive File.Holds (f : File) (kid : Bytes) : Bytes → Keyring → Prop where
  | default (h : kid ∈ f.default.kids) : f.Holds kid defaultTenant f.default
  | tenant {t : Tenant} {r : Keyring} (ht : t ∈ f.tenants) (hr : t.ring = .ok r) (h : kid ∈ r.kids) :
      f.Holds kid t.name r

namespace File.Sound

theorem entry_mem (ht : t ∈ f.tenants) : t.entry ∈ f.directory.tenants :=
  mem_map_of_mem ht

theorem owner_mem (ht : t ∈ f.tenants) : t.entry.owner ∈ f.directory.owners :=
  Directory.owner_mem_of_live (entry_mem ht)

theorem names (h : f.Sound) : (f.tenants.map Tenant.name).Nodup := by
  have hall := h.directory.apart.names
  unfold Directory.owners at hall
  rw [map_append] at hall
  have hlive := (nodup_append.mp hall).1
  unfold File.directory at hlive
  rw [map_map, map_map] at hlive
  exact hlive

theorem holds_unique (h : f.Sound) {n' : Bytes} {r' : Keyring} (hr : f.Holds kid n r) (hr' : f.Holds kid n' r') :
    n = n' ∧ r = r' := by
  cases hr with
  | default hk =>
    cases hr' with
    | default _ => exact ⟨rfl, rfl⟩
    | @tenant t _ ht ho hk' =>
      have hkid : kid ∈ t.kids := (h.opened t ht _ ho kid).mp hk'
      exact absurd hk (h.directory.apart.foreign _ (owner_mem ht) kid hkid)
  | @tenant t _ ht ho hk =>
    have hkid : kid ∈ t.kids := (h.opened t ht _ ho kid).mp hk
    cases hr' with
    | default hk' => exact absurd hk' (h.directory.apart.foreign _ (owner_mem ht) kid hkid)
    | @tenant t' _ ht' ho' hk' =>
      have hkid' : kid ∈ t'.kids := (h.opened t' ht' _ ho' kid).mp hk'
      have hown := h.directory.apart.owner_of_kid (owner_mem ht) (owner_mem ht') hkid hkid'
      have hname : t.name = t'.name := congrArg Owner.name hown
      obtain rfl := inj_on_of_nodup_map h.names ht ht' hname
      exact ⟨rfl, Except.ok.inj (ho.symm.trans ho')⟩

theorem not_holds_destroyed (h : f.Sound) {s : Tombstone} (hs : s ∈ f.tombstones) (hkid : kid ∈ s.kids) :
    ¬ f.Holds kid n r := by
  have hmem : s.owner ∈ f.directory.owners := Directory.owner_mem_of_destroyed hs
  intro hr
  cases hr with
  | default hk => exact h.directory.apart.foreign _ hmem kid hkid hk
  | @tenant t _ ht ho hk =>
    have hkid' : kid ∈ t.kids := (h.opened t ht _ ho kid).mp hk
    have hown := h.directory.apart.owner_of_kid (owner_mem ht) hmem hkid' hkid
    exact h.directory.live_not_destroyed (entry_mem ht) hs (congrArg Owner.name hown)

theorem not_holds_unopened (h : f.Sound) (ht : t ∈ f.tenants) {e : Error} (he : t.ring = .error e) (hkid : kid ∈ t.kids) :
    ¬ f.Holds kid n r := by
  intro hr
  cases hr with
  | default hk => exact h.directory.apart.foreign _ (owner_mem ht) kid hkid hk
  | @tenant t' _ ht' ho hk =>
    have hkid' : kid ∈ t'.kids := (h.opened t' ht' _ ho kid).mp hk
    have hown := h.directory.apart.owner_of_kid (owner_mem ht) (owner_mem ht') hkid hkid'
    obtain rfl := inj_on_of_nodup_map h.names ht ht' (congrArg Owner.name hown)
    exact absurd (he.symm.trans ho) (by simp)

end File.Sound

theorem mem_byKID : row ∈ (newServed f).byKID ↔ ∃ n, f.Holds row.1 n row.2 := by
  unfold newServed
  rw [mem_byKID_foldl, mem_ringRows]
  constructor
  · rintro (⟨hkid, hr⟩ | ⟨t, ht, hr, hkid⟩)
    · refine ⟨defaultTenant, ?_⟩
      rw [hr]
      exact .default hkid
    · exact ⟨t.name, .tenant ht hr hkid⟩
  · rintro ⟨n, h⟩
    generalize hr : row.2 = r at h
    cases h with
    | default hkid => exact Or.inl ⟨hkid, rfl⟩
    | tenant ht ho hkid => exact Or.inr ⟨_, ht, ho, hkid⟩

theorem ring_of_holds (hf : f.Sound) (h : f.Holds kid n r) : (newServed f).ring kid = .ok r := by
  unfold Served.ring
  cases hfind : (newServed f).byKID.find? fun row => row.1 = kid with
  | none => exact absurd (find?_eq_none.mp hfind (kid, r) (mem_byKID.mpr ⟨n, h⟩)) (by simp)
  | some row =>
    obtain ⟨n', h'⟩ := mem_byKID.mp (mem_of_find?_eq_some hfind)
    have hkid : row.1 = kid := by simpa using find?_some hfind
    rw [hkid] at h'
    exact congrArg Except.ok (hf.holds_unique h' h).2

theorem ring_of_not_holds (h : ∀ n r, ¬ f.Holds kid n r) :
    (newServed f).ring kid = .error (wrapf .unknownKID "%w: %q" [.bytes kid]) := by
  unfold Served.ring
  have hfind : ((newServed f).byKID.find? fun row => row.1 = kid) = none := by
    refine find?_eq_none.mpr fun row hrow => ?_
    obtain ⟨n, hh⟩ := mem_byKID.mp hrow
    simpa using fun heq : row.1 = kid => h n row.2 (heq ▸ hh)
  rw [hfind]

theorem find?_tenants (hf : f.Sound) {t : Tenant} (ht : t ∈ f.tenants) :
    ((newServed f).tenants.find? fun row => row.1 = t.name) = some (t.name, ⟨t.activeKID, t.ring⟩) := by
  have hmem : ∀ row, row ∈ (newServed f).tenants ↔
      ∃ t ∈ f.tenants, row = (t.name, (⟨t.activeKID, t.ring⟩ : ServedTenant)) := by
    intro row
    unfold newServed
    rw [mem_tenants_foldl]
    simp
  cases hfind : (newServed f).tenants.find? fun row => row.1 = t.name with
  | none => exact absurd (find?_eq_none.mp hfind _ ((hmem _).mpr ⟨t, ht, rfl⟩)) (by simp)
  | some row =>
    obtain ⟨t', ht', rfl⟩ := (hmem row).mp (mem_of_find?_eq_some hfind)
    have hname : t'.name = t.name := by simpa using find?_some hfind
    obtain rfl := inj_on_of_nodup_map hf.names ht' ht hname
    rfl

/-! ## Fails closed -/

/-- What a gateway can ask a snapshot for. -/
structure Answers where
  forBucket : Bytes → Try BucketKeys
  wrap : (nonce kid dek aad : Bytes) → Try Bytes
  unwrap : (kid wrapped aad : Bytes) → Try Bytes
  tokenKey : (kid : Bytes) → Try Bytes

def Served.answers (A : Aead wrapTagSize) (H : Hkdf) (s : Served) : Answers where
  forBucket := s.forBucket
  wrap nonce kid dek aad := s.wrap A nonce kid dek aad
  unwrap kid wrapped aad := s.unwrap A kid wrapped aad
  tokenKey kid := s.tokenKey H kid

/-- A key id no ring answers for. -/
def Answers.Unusable (a : Answers) (kid : Bytes) : Prop :=
  (∀ nonce dek aad, ∃ e, a.wrap nonce kid dek aad = .error e ∧ isSentinel .unknownKID e = true) ∧
    (∀ wrapped aad, ∃ e, a.unwrap kid wrapped aad = .error e ∧ isSentinel .unknownKID e = true) ∧
      ∃ e, a.tokenKey kid = .error e ∧ isSentinel .unknownKID e = true

/-- A key id that wraps every data key, opens what it wrapped and has a key for upload tokens. -/
def Answers.Usable (a : Answers) (kid : Bytes) : Prop :=
  (∀ nonce dek aad, nonce.length = wrapNonceSize → dek.length ≤ maxSealed →
    ∃ wrapped, a.wrap nonce kid dek aad = .ok wrapped ∧ a.unwrap kid wrapped aad = .ok dek) ∧
      ∃ tk, a.tokenKey kid = .ok tk

/-- What serving a file owes each bucket. A bucket matches an entry in any letter case. -/
structure Answers.FailsClosed (a : Answers) (f : File) : Prop where
  /-- A destroyed tenant's bucket gets no keys. -/
  destroyed : ∀ bucket, ∀ s ∈ f.tombstones, matchesAny s.buckets (toLower bucket) = true →
    ∃ e, a.forBucket bucket = .error e ∧ isSentinel .tenantDestroyed e = true
  /-- Nor does the bucket of a tenant that did not open. -/
  unopened : ∀ bucket, ∀ t ∈ f.tenants, matchesAny t.buckets (toLower bucket) = true →
    ∀ why, t.ring = .error why → ∃ e, a.forBucket bucket = .error e ∧ isSentinel .tenantUnopened e = true
  /-- An active tenant's bucket gets its active key and its name key. -/
  active : ∀ bucket, ∀ t ∈ f.tenants, matchesAny t.buckets (toLower bucket) = true → ∀ r, t.ring = .ok r →
    t.activeKID ≠ [] → a.forBucket bucket = .ok ⟨t.name, t.activeKID, t.name, r.name⟩
  /-- An inactive tenant's bucket gets the default tenant's keys. -/
  inactive : ∀ bucket, ∀ t ∈ f.tenants, matchesAny t.buckets (toLower bucket) = true → ∀ r, t.ring = .ok r →
    t.activeKID = [] → a.forBucket bucket = .ok ⟨t.name, f.default.active, defaultTenant, f.default.name⟩
  /-- Every other bucket is the default tenant's. -/
  other : ∀ bucket, (∀ t ∈ f.tenants, matchesAny t.buckets (toLower bucket) = false) →
    (∀ s ∈ f.tombstones, matchesAny s.buckets (toLower bucket) = false) →
      a.forBucket bucket = .ok ⟨defaultTenant, f.default.active, defaultTenant, f.default.name⟩
  /-- The key id that is returned can be used, and only the ring of the tenant whose it is holds it. -/
  usable : ∀ bucket keys, a.forBucket bucket = .ok keys →
    a.Usable keys.kid ∧ (∃ r, f.Holds keys.kid keys.nameTenant r) ∧
      ∀ n r, f.Holds keys.kid n r → n = keys.nameTenant
  /-- A destroyed tenant's key ids cannot be used. -/
  shredded : ∀ s ∈ f.tombstones, ∀ kid ∈ s.kids, a.Unusable kid
  /-- Nor can those of a tenant that did not open. -/
  closed : ∀ t ∈ f.tenants, ∀ why, t.ring = .error why → ∀ kid ∈ t.kids, a.Unusable kid

theorem usable_of_holds (hA : A.Correct) (hf : f.Sound) (h : f.Holds kid n r) :
    ((newServed f).answers A H).Usable kid := by
  have hkid : kid ∈ r.kids := by
    cases h with
    | default hk => exact hk
    | tenant _ _ hk => exact hk
  refine ⟨?_, ?_⟩
  · intro nonce dek aad hnonce hdek
    obtain ⟨wrapped, hwrap, hunwrap⟩ := Keyring.unwrap_wrap hA hkid hnonce hdek aad
    refine ⟨wrapped, ?_, ?_⟩
    · unfold Served.answers Served.wrap
      dsimp only
      rw [ring_of_holds hf h, ok_bind, hwrap]
    · unfold Served.answers Served.unwrap
      dsimp only
      rw [ring_of_holds hf h, ok_bind, hunwrap]
  · obtain ⟨kek, hkek⟩ := r.lookup_ok hkid
    refine ⟨H kek.val [] tokenKeyInfo tokenKeySize, ?_⟩
    unfold Served.answers Served.tokenKey Keyring.tokenKey
    dsimp only
    rw [ring_of_holds hf h, ok_bind, hkek, ok_bind]

theorem unusable_of_not_holds (h : ∀ n r, ¬ f.Holds kid n r) :
    ((newServed f).answers A H).Unusable kid := by
  have hring := ring_of_not_holds h
  refine ⟨fun nonce dek aad => ?_, fun wrapped aad => ?_, ?_⟩
  · refine ⟨wrapf .unknownKID "%w: %q" [.bytes kid], ?_, rfl⟩
    unfold Served.answers Served.wrap
    dsimp only
    rw [hring, error_bind]
  · refine ⟨wrapf .unknownKID "%w: %q" [.bytes kid], ?_, rfl⟩
    unfold Served.answers Served.unwrap
    dsimp only
    rw [hring, error_bind]
  · refine ⟨wrapf .unknownKID "%w: %q" [.bytes kid], ?_, rfl⟩
    unfold Served.answers Served.tokenKey
    dsimp only
    rw [hring, error_bind]

theorem forBucket_of_live (hf : f.Sound) (ht : t ∈ f.tenants) {bucket : Bytes}
    (hm : matchesAny t.buckets (toLower bucket) = true) :
    (newServed f).forBucket bucket =
      match t.ring with
      | .error _ => .error (wrapf .tenantUnopened "%w: %q" [.bytes t.name])
      | .ok r =>
        if t.activeKID = [] then .ok { f.default.forBucket with tenant := t.name }
        else .ok ⟨t.name, t.activeKID, t.name, r.name⟩ := by
  have hdir : (newServed f).dir.tenant bucket = (t.name, false) :=
    hf.directory.tenant_of_live (File.Sound.entry_mem ht) hm
  have hname : t.name ≠ defaultTenant := hf.directory.name_ne_default (File.Sound.owner_mem ht)
  unfold Served.forBucket
  rw [hdir]
  dsimp only
  rw [if_neg hname, find?_tenants hf ht]
  rfl

/-- **Serving a sound file fails closed.** -/
theorem newServed_failsClosed (hA : A.Correct) (hf : f.Sound) :
    ((newServed f).answers A H).FailsClosed f := by
  have hother : ∀ bucket, (∀ t ∈ f.tenants, matchesAny t.buckets (toLower bucket) = false) →
      (∀ s ∈ f.tombstones, matchesAny s.buckets (toLower bucket) = false) →
        (newServed f).forBucket bucket = .ok f.default.forBucket := by
    intro bucket hlive hdestroyed
    have hdir : (newServed f).dir.tenant bucket = (defaultTenant, false) := by
      refine Directory.tenant_of_none ?_ hdestroyed
      intro d hd
      obtain ⟨t, ht, rfl⟩ := mem_map.mp hd
      exact hlive t ht
    unfold Served.forBucket
    rw [hdir]
    rfl
  have hdestroyed : ∀ bucket, ∀ s ∈ f.tombstones, matchesAny s.buckets (toLower bucket) = true →
      (newServed f).forBucket bucket = .error (wrapf .tenantDestroyed "%w: %q" [.bytes s.name]) := by
    intro bucket s hs hm
    have hdir : (newServed f).dir.tenant bucket = (s.name, true) :=
      hf.directory.tenant_of_destroyed hs hm
    unfold Served.forBucket
    rw [hdir]
    dsimp only
    rw [if_pos rfl]
  have hdefault : f.Holds f.default.active defaultTenant f.default := .default hf.active
  refine ⟨?_, ?_, ?_, ?_, hother, ?_, ?_, ?_⟩
  · intro bucket s hs hm
    exact ⟨_, hdestroyed bucket s hs hm, rfl⟩
  · intro bucket t ht hm why hwhy
    have h := forBucket_of_live hf ht hm
    rw [hwhy] at h
    exact ⟨_, h, rfl⟩
  · intro bucket t ht hm r hr hactive
    have h := forBucket_of_live hf ht hm
    rw [hr] at h
    dsimp only at h
    rw [if_neg hactive] at h
    exact h
  · intro bucket t ht hm r hr hactive
    have h := forBucket_of_live hf ht hm
    rw [hr] at h
    dsimp only at h
    rw [if_pos hactive] at h
    exact h
  · intro bucket keys hkeys
    -- it is enough to find the ring that holds the key id for that tenant
    suffices hholds : ∃ r, f.Holds keys.kid keys.nameTenant r by
      obtain ⟨r, hr⟩ := hholds
      exact ⟨usable_of_holds hA hf hr, ⟨r, hr⟩, fun n r' hr' => (hf.holds_unique hr' hr).1⟩
    have hkeys' : (newServed f).forBucket bucket = .ok keys := hkeys
    by_cases hlive : ∃ t ∈ f.tenants, matchesAny t.buckets (toLower bucket) = true
    · obtain ⟨t, ht, hm⟩ := hlive
      rw [forBucket_of_live hf ht hm] at hkeys'
      split at hkeys'
      · simp at hkeys'
      next r hr =>
        split at hkeys'
        · obtain rfl := Except.ok.inj hkeys'
          exact ⟨_, hdefault⟩
        next hactive =>
          obtain rfl := Except.ok.inj hkeys'
          have hkid : t.activeKID ∈ t.kids :=
            (hf.directory.active t.entry (File.Sound.entry_mem ht)).resolve_left hactive
          exact ⟨r, .tenant ht hr ((hf.opened t ht r hr _).mpr hkid)⟩
    · by_cases hdead : ∃ s ∈ f.tombstones, matchesAny s.buckets (toLower bucket) = true
      · obtain ⟨s, hs, hm⟩ := hdead
        rw [hdestroyed bucket s hs hm] at hkeys'
        simp at hkeys'
      · have hnone := hother bucket (fun t ht => by simpa using fun hm => hlive ⟨t, ht, hm⟩)
          (fun s hs => by simpa using fun hm => hdead ⟨s, hs, hm⟩)
        rw [hnone] at hkeys'
        obtain rfl := Except.ok.inj hkeys'
        exact ⟨_, hdefault⟩
  · intro s hs kid hkid
    exact unusable_of_not_holds fun n r => hf.not_holds_destroyed hs hkid
  · intro t ht why hwhy kid hkid
    exact unusable_of_not_holds fun n r => hf.not_holds_unopened ht hwhy hkid

end BlindBucket.Keys
