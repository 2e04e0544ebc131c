import BlindBucket.Keys.Aad
import Mathlib.Data.List.Nodup
import Mathlib.Data.List.Pairwise

/-!
# The directory of a keyring

With tenants, a keyring file carries a sealed directory: which tenants there are, which buckets and key ids
are theirs, and which locks they ever had. A destroyed tenant leaves a tombstone, which keeps its buckets
and its key ids taken. `validate` is what a reader and a writer check before they believe a directory, and
`tenant` finds the tenant of a bucket in it.
-/

namespace BlindBucket.Keys

open ByteIo GoText ObjectMeta List

structure Lock where
  source : Bytes
  keyName : Bytes := []
  salt : Bytes := []
deriving DecidableEq

structure DirectoryTenant where
  name : Bytes
  buckets : List Bytes
  kids : List Bytes
  activeKID : Bytes
  locks : List Lock
deriving DecidableEq

structure Tombstone where
  name : Bytes
  buckets : List Bytes
  kids : List Bytes
  locks : List Lock
  destroyed : Int
deriving DecidableEq

structure Directory where
  generation : Nat
  tenants : List DirectoryTenant
  tombstones : List Tombstone
deriving DecidableEq

def defaultTenant : Bytes := ascii "default"

def star : UInt8 := 0x2A

/-- `strings.CutSuffix` with a star: what an entry for a prefix of bucket names begins with. -/
def cutStar (e : Bytes) : Option Bytes :=
  if [star] <:+ e then some (trimSuffix [star] e) else none

def matchesEntry (e bucket : Bytes) : Bool :=
  match cutStar e with
  | some p => p.isPrefixOf bucket
  | none => e == bucket

def matchesAny (entries : List Bytes) (bucket : Bytes) : Bool :=
  entries.any fun e => matchesEntry e bucket

def Directory.tenant (d : Directory) (bucket : Bytes) : Bytes × Bool :=
  match d.tenants.find? fun t => matchesAny t.buckets (toLower bucket) with
  | some t => (t.name, false)
  | none =>
    match d.tombstones.find? fun t => matchesAny t.buckets (toLower bucket) with
    | some t => (t.name, true)
    | none => (defaultTenant, false)

def bucketChar (c : UInt8) : Bool :=
  (0x61 ≤ c && c ≤ 0x7A) || (0x30 ≤ c && c ≤ 0x39) || c == 0x2E || c == 0x2D

def validBucketEntry (e : Bytes) : Bool :=
  match cutStar e with
  | some body => decide (1 ≤ body.length ∧ body.length ≤ 62) && body.all bucketChar
  | none => decide (3 ≤ e.length ∧ e.length ≤ 63) && e.all bucketChar

def overlap (a b : Bytes) : Bool :=
  match cutStar a, cutStar b with
  | some pa, some pb => pb.isPrefixOf pa || pa.isPrefixOf pb
  | some pa, none => pa.isPrefixOf b
  | none, some pb => pb.isPrefixOf a
  | none, none => a == b

def validateTenantName (name : Bytes) : Try Unit :=
  if name = defaultTenant then
    .error (errorf "keys: %q names the default tenant, which every bucket no tenant claims belongs to"
      [.bytes name])
  else (validateKID name).mapError (aroundErr "keys: tenant name %q: %w" [.bytes name])

def validTenantName (name : Bytes) : Try Unit :=
  (validateTenantName name).mapError (wrapErr .keyringMalformed "%w: %w" [])

/-- What `validate` has seen: the names, the key ids with their owners, and the bucket entries. -/
structure Claimed where
  names : List Bytes
  kids : List (Bytes × Bytes)
  entries : List Bytes

/-- The key ids of a tenant, one after the other. -/
def claimKIDs (tenant : Bytes) : Claimed → List Bytes → Try Claimed
  | c, [] => .ok c
  | c, kid :: rest => do
      (validateKID kid).mapError (wrapErr .keyringMalformed "%w: %w" [])
      match c.kids.find? fun k => k.1 = kid with
      | some (_, owner) =>
        .error (wrapf .keyringMalformed "%w: key id %q is used by %q and %q"
          [.bytes kid, .bytes owner, .bytes tenant])
      | none => claimKIDs tenant { c with kids := (kid, tenant) :: c.kids } rest

def claimEntries (tenant : Bytes) : Claimed → List Bytes → Try Claimed
  | c, [] => .ok c
  | c, e :: rest =>
    if validBucketEntry e = false then
      .error (wrapf .keyringMalformed "%w: tenant %q: %q is not a bucket name or prefix"
        [.bytes tenant, .bytes e])
    else
      match c.entries.find? fun prev => overlap prev e with
      | some prev =>
        .error (wrapf .keyringMalformed "%w: bucket entries %q and %q overlap" [.bytes prev, .bytes e])
      | none => claimEntries tenant { c with entries := c.entries ++ [e] } rest

def claim (c : Claimed) (tenant : Bytes) (kids buckets : List Bytes) : Try Claimed := do
  validTenantName tenant
  if tenant ∈ c.names then
    .error (wrapf .keyringMalformed "%w: tenant %q is listed twice" [.bytes tenant])
  else if kids = [] then
    .error (wrapf .keyringMalformed "%w: tenant %q has no keys" [.bytes tenant])
  else
    let c ← claimKIDs tenant { c with names := tenant :: c.names } kids
    claimEntries tenant c buckets

/-- The live tenants. -/
def claimTenants : Claimed → List DirectoryTenant → Try Claimed
  | c, [] => .ok c
  | c, t :: rest => do
      let c ← claim c t.name t.kids t.buckets
      if t.activeKID ≠ [] ∧ t.activeKID ∉ t.kids then
        .error (wrapf .keyringMalformed "%w: tenant %q: active key %q is not one of its keys"
          [.bytes t.name, .bytes t.activeKID])
      else if t.locks = [] then
        .error (wrapf .keyringMalformed "%w: tenant %q has no lock" [.bytes t.name])
      else claimTenants c rest

def claimTombstones : Claimed → List Tombstone → Try Claimed
  | c, [] => .ok c
  | c, t :: rest => do
      let c ← claim c t.name t.kids t.buckets
      claimTombstones c rest

def Directory.validate (d : Directory) (defaultKIDs : List Bytes) : Try Unit := do
  let c ← claimTenants ⟨[], defaultKIDs.map fun kid => (kid, defaultTenant), []⟩ d.tenants
  let _ ← claimTombstones c d.tombstones
  .ok ()

/-! ## Entries that match one bucket overlap -/

variable {bucket : Bytes} {c c' : Claimed}

theorem overlap_of_matches {a b : Bytes} (ha : matchesEntry a bucket = true) (hb : matchesEntry b bucket = true) :
    overlap a b = true := by
  unfold matchesEntry at ha hb
  unfold overlap
  cases hca : cutStar a with
  | some pa =>
    rw [hca] at ha
    cases hcb : cutStar b with
    | some pb =>
      rw [hcb] at hb
      -- both begin the bucket's name, so one begins the other
      have ha := isPrefixOf_iff_prefix.mp ha
      have hb := isPrefixOf_iff_prefix.mp hb
      rcases prefix_or_prefix_of_prefix ha hb with h | h
      · have h := isPrefixOf_iff_prefix.mpr h
        simp [h]
      · have h := isPrefixOf_iff_prefix.mpr h
        simp [h]
    | none =>
      rw [hcb] at hb
      rw [eq_of_beq hb]
      exact ha
  | none =>
    rw [hca] at ha
    cases hcb : cutStar b with
    | some pb =>
      rw [hcb] at hb
      rw [eq_of_beq ha]
      exact hb
    | none =>
      rw [hcb] at hb
      rw [eq_of_beq ha, eq_of_beq hb]
      exact beq_self_eq_true bucket

theorem overlap_comm (a b : Bytes) : overlap a b = overlap b a := by
  unfold overlap
  cases cutStar a with
  | some pa =>
    cases cutStar b with
    | some pb => exact Bool.or_comm _ _
    | none => rfl
  | none =>
    cases cutStar b with
    | some pb => rfl
    | none => exact Bool.beq_comm

theorem matchesAny_iff {entries : List Bytes} :
    matchesAny entries bucket = true ↔ ∃ e ∈ entries, matchesEntry e bucket = true := by
  unfold matchesAny
  rw [any_eq_true]

/-! ## What a directory that validates is like -/

/-- What a tenant, live or destroyed, keeps for itself. -/
structure Owner where
  name : Bytes
  kids : List Bytes
  buckets : List Bytes
deriving DecidableEq

def DirectoryTenant.owner (t : DirectoryTenant) : Owner := ⟨t.name, t.kids, t.buckets⟩
def Tombstone.owner (t : Tombstone) : Owner := ⟨t.name, t.kids, t.buckets⟩

/-- Live tenants first, as the directory is searched. -/
def Directory.owners (d : Directory) : List Owner :=
  d.tenants.map DirectoryTenant.owner ++ d.tombstones.map Tombstone.owner

/-- Owners that share nothing, among them or with the default tenant. -/
structure Apart (defaultKIDs : List Bytes) (l : List Owner) : Prop where
  /-- No name is taken twice. -/
  names : (l.map Owner.name).Nodup
  /-- No key id is taken twice. -/
  kids : (l.flatMap Owner.kids).Nodup
  /-- No key id is the default tenant's. -/
  foreign : ∀ o ∈ l, ∀ kid ∈ o.kids, kid ∉ defaultKIDs
  /-- No two bucket entries overlap. -/
  entries : (l.flatMap Owner.buckets).Pairwise fun a b => overlap a b = false
  /-- The names are tenants' names. -/
  named : ∀ o ∈ l, validTenantName o.name = .ok ()
  /-- Everyone has a key. -/
  keyed : ∀ o ∈ l, o.kids ≠ []
  /-- The bucket entries are well formed. -/
  formed : ∀ o ∈ l, ∀ e ∈ o.buckets, validBucketEntry e = true

/-- What `validate` establishes. -/
structure Directory.WellFormed (d : Directory) (defaultKIDs : List Bytes) : Prop where
  apart : Apart defaultKIDs d.owners
  /-- An active key is one of the tenant's. -/
  active : ∀ t ∈ d.tenants, t.activeKID = [] ∨ t.activeKID ∈ t.kids
  /-- Every live tenant is sealed by something. -/
  locked : ∀ t ∈ d.tenants, t.locks ≠ []

/-- What has been seen after these owners. -/
structure Claimed.Covers (c : Claimed) (defaultKIDs : List Bytes) (l : List Owner) : Prop where
  apart : Apart defaultKIDs l
  names : ∀ n, n ∈ c.names ↔ n ∈ l.map Owner.name
  kids : ∀ kid, kid ∈ c.kids.map Prod.fst ↔ kid ∈ defaultKIDs ∨ kid ∈ l.flatMap Owner.kids
  entries : c.entries = l.flatMap Owner.buckets

theorem find?_kid_eq_none {kids : List (Bytes × Bytes)} {kid : Bytes}
    (h : (kids.find? fun k => k.1 = kid) = none) : kid ∉ kids.map Prod.fst := by
  intro hmem
  obtain ⟨k, hk, rfl⟩ := mem_map.mp hmem
  exact absurd (find?_eq_none.mp h k hk) (by simp)

/-- What the loop over a tenant's key ids has checked, and what it leaves. -/
theorem claimKIDs_ok {tenant : Bytes} {kids : List Bytes} (h : claimKIDs tenant c kids = .ok c') :
    kids.Nodup ∧ (∀ kid ∈ kids, kid ∉ c.kids.map Prod.fst) ∧ c'.names = c.names ∧ c'.entries = c.entries ∧
      ∀ kid, kid ∈ c'.kids.map Prod.fst ↔ kid ∈ c.kids.map Prod.fst ∨ kid ∈ kids := by
  induction kids generalizing c with
  | nil =>
    cases h
    simp
  | cons kid rest ih =>
    obtain ⟨_, _, h⟩ := bind_ok h
    split at h
    · simp at h
    next hnone =>
      have hfresh := find?_kid_eq_none hnone
      obtain ⟨hnodup, hnew, hnames, hentries, hkids⟩ := ih h
      -- the rest was checked against this key id as well
      have hrest : kid ∉ rest := fun hmem => hnew kid hmem (by simp)
      refine ⟨nodup_cons.mpr ⟨hrest, hnodup⟩, ?_, hnames, hentries, ?_⟩
      · intro x hx
        rcases mem_cons.mp hx with rfl | hx
        · exact hfresh
        · exact fun hmem => hnew x hx (mem_cons_of_mem _ hmem)
      · intro x
        rw [hkids, map_cons, mem_cons, mem_cons]
        tauto

/-- What the loop over a tenant's bucket entries has checked, and what it leaves. -/
theorem claimEntries_ok {tenant : Bytes} {buckets : List Bytes} (h : claimEntries tenant c buckets = .ok c')
    (hc : c.entries.Pairwise fun a b => overlap a b = false) :
    (∀ e ∈ buckets, validBucketEntry e = true) ∧ c'.names = c.names ∧ c'.kids = c.kids ∧
      c'.entries = c.entries ++ buckets ∧ c'.entries.Pairwise fun a b => overlap a b = false := by
  induction buckets generalizing c with
  | nil =>
    cases h
    exact ⟨by simp, rfl, rfl, (append_nil _).symm, hc⟩
  | cons e rest ih =>
    obtain ⟨hvalid, h⟩ := else_ok h
    split at h
    · simp at h
    next hnone =>
      have hpair : (c.entries ++ [e]).Pairwise fun a b => overlap a b = false := by
        refine pairwise_append.mpr ⟨hc, pairwise_singleton _ _, fun a ha b hb => ?_⟩
        rw [mem_singleton.mp hb]
        simpa using find?_eq_none.mp hnone a ha
      obtain ⟨hrest, hnames, hkids, hentries, hall⟩ := ih h hpair
      refine ⟨?_, hnames, hkids, ?_, hall⟩
      · intro x hx
        rcases mem_cons.mp hx with rfl | hx
        · simpa using hvalid
        · exact hrest x hx
      · rw [hentries, append_assoc, singleton_append]

variable {defaultKIDs : List Bytes}

variable {l : List Owner} {o a b : Owner}

/-- One more owner: `claim` keeps what it has seen in step. -/
theorem claim_covers (h : claim c o.name o.kids o.buckets = .ok c') (hc : c.Covers defaultKIDs l) :
    c'.Covers defaultKIDs (l ++ [o]) := by
  obtain ⟨⟨⟩, hname, h⟩ := bind_ok h
  obtain ⟨hnew, h⟩ := else_ok h
  obtain ⟨hkeyed, h⟩ := else_ok h
  obtain ⟨c₁, hk, h⟩ := bind_ok h
  obtain ⟨hnodup, hfresh, hnames₁, hentries₁, hkids₁⟩ := claimKIDs_ok hk
  have hpair : c₁.entries.Pairwise fun a b => overlap a b = false := by
    rw [hentries₁]
    exact hc.entries ▸ hc.apart.entries
  obtain ⟨hformed, hnames₂, hkids₂, hentries₂, hall⟩ := claimEntries_ok h hpair
  have hentries : c'.entries = (l ++ [o]).flatMap Owner.buckets := by
    rw [hentries₂, hentries₁, flatMap_append, flatMap_singleton]
    exact congrArg (· ++ o.buckets) hc.entries
  -- a key id of the new owner was seen neither at the default tenant nor at another owner
  have hunseen : ∀ kid ∈ o.kids, kid ∉ defaultKIDs ∧ kid ∉ l.flatMap Owner.kids := by
    intro kid hkid
    have := (hc.kids kid).not.mp (hfresh kid hkid)
    tauto
  refine ⟨⟨?_, ?_, ?_, ?_, ?_, ?_, ?_⟩, ?_, ?_, hentries⟩
  · rw [map_append]
    refine hc.apart.names.append (nodup_singleton _) ?_
    intro n hn hn'
    rw [mem_singleton.mp hn'] at hn
    exact hnew ((hc.names _).mpr hn)
  · rw [flatMap_append, flatMap_singleton]
    exact hc.apart.kids.append hnodup fun kid hl hkid => (hunseen kid hkid).2 hl
  · intro x hx kid hkid
    rcases mem_append.mp hx with hx | hx
    · exact hc.apart.foreign x hx kid hkid
    · rw [mem_singleton.mp hx] at hkid
      exact (hunseen kid hkid).1
  · exact hentries ▸ hall
  · intro x hx
    rcases mem_append.mp hx with hx | hx
    · exact hc.apart.named x hx
    · rw [mem_singleton.mp hx]
      exact hname
  · intro x hx
    rcases mem_append.mp hx with hx | hx
    · exact hc.apart.keyed x hx
    · rw [mem_singleton.mp hx]
      exact hkeyed
  · intro x hx
    rcases mem_append.mp hx with hx | hx
    · exact hc.apart.formed x hx
    · rw [mem_singleton.mp hx]
      exact hformed
  · intro n
    rw [hnames₂, hnames₁, mem_cons, hc.names, map_append]
    simp [or_comm]
  · intro kid
    rw [hkids₂, hkids₁, hc.kids, flatMap_append, flatMap_singleton, mem_append, or_assoc]

theorem claimTenants_covers {ts : List DirectoryTenant} (h : claimTenants c ts = .ok c') (hc : c.Covers defaultKIDs l) :
    c'.Covers defaultKIDs (l ++ ts.map DirectoryTenant.owner) ∧
      ∀ t ∈ ts, (t.activeKID = [] ∨ t.activeKID ∈ t.kids) ∧ t.locks ≠ [] := by
  induction ts generalizing c l with
  | nil =>
    cases h
    simpa using hc
  | cons t rest ih =>
    obtain ⟨c₁, hclaim, h⟩ := bind_ok h
    obtain ⟨hactive, h⟩ := else_ok h
    obtain ⟨hlocks, h⟩ := else_ok h
    have hstep := claim_covers (o := t.owner) hclaim hc
    obtain ⟨hcov, hrest⟩ := ih h hstep
    refine ⟨?_, ?_⟩
    · rw [append_assoc] at hcov
      exact hcov
    · intro x hx
      rcases mem_cons.mp hx with rfl | hx
      · exact ⟨by tauto, hlocks⟩
      · exact hrest x hx

theorem claimTombstones_covers {ts : List Tombstone} (h : claimTombstones c ts = .ok c') (hc : c.Covers defaultKIDs l) :
    c'.Covers defaultKIDs (l ++ ts.map Tombstone.owner) := by
  induction ts generalizing c l with
  | nil =>
    cases h
    simpa using hc
  | cons t rest ih =>
    obtain ⟨c₁, hclaim, h⟩ := bind_ok h
    have hcov := ih h (claim_covers (o := t.owner) hclaim hc)
    rw [append_assoc] at hcov
    exact hcov

theorem Directory.wellFormed_of_validate {d : Directory}
    (h : d.validate defaultKIDs = .ok ()) : d.WellFormed defaultKIDs := by
  obtain ⟨c₁, htenants, h⟩ := bind_ok h
  obtain ⟨c₂, htombs, _⟩ := bind_ok h
  have hinit : (⟨[], defaultKIDs.map fun kid => (kid, defaultTenant), []⟩ : Claimed).Covers defaultKIDs [] := by
    refine ⟨⟨?_, ?_, ?_, ?_, ?_, ?_, ?_⟩, ?_, ?_, ?_⟩ <;> simp
  obtain ⟨hcov, hlive⟩ := claimTenants_covers htenants hinit
  exact ⟨(claimTombstones_covers htombs hcov).apart, fun t ht => (hlive t ht).1, fun t ht => (hlive t ht).2⟩

/-! ## Whose a bucket is -/

theorem Apart.owner_unique (h : Apart defaultKIDs l) (ha : a ∈ l) (hb : b ∈ l)
    (hma : matchesAny a.buckets bucket = true) (hmb : matchesAny b.buckets bucket = true) : a = b := by
  obtain ⟨e, he, hme⟩ := matchesAny_iff.mp hma
  obtain ⟨f, hf, hmf⟩ := matchesAny_iff.mp hmb
  by_contra hne
  have hsymm : Std.Symm fun a b : Owner => ∀ x ∈ a.buckets, ∀ y ∈ b.buckets, overlap x y = false :=
    ⟨fun a b hab x hx y hy => by rw [overlap_comm]; exact hab y hy x hx⟩
  -- entries of different owners stand apart in the one list of all entries
  have hapart := (pairwise_flatMap.mp h.entries).2.forall ha hb hne e he f hf
  rw [overlap_of_matches hme hmf] at hapart
  simp at hapart

theorem Apart.owner_of_kid (h : Apart defaultKIDs l) (ha : a ∈ l) (hb : b ∈ l) {kid : Bytes} (hka : kid ∈ a.kids)
    (hkb : kid ∈ b.kids) :
    a = b := by
  by_contra hne
  have hsymm : Std.Symm fun a b : Owner => ∀ x ∈ a.kids, ∀ y ∈ b.kids, x ≠ y :=
    ⟨fun a b hab x hx y hy => (hab y hy x hx).symm⟩
  exact (pairwise_flatMap.mp h.kids).2.forall ha hb hne kid hka kid hkb rfl

namespace Directory

variable {d : Directory} {defaultKIDs : List Bytes}

variable {t : DirectoryTenant} {s : Tombstone}

theorem WellFormed.live_not_destroyed (h : d.WellFormed defaultKIDs) (ht : t ∈ d.tenants) (hs : s ∈ d.tombstones) :
    t.name ≠ s.name := by
  have hnames := h.apart.names
  unfold owners at hnames
  rw [map_append] at hnames
  refine (nodup_append.mp hnames).2.2 t.name ?_ s.name ?_
  · exact mem_map.mpr ⟨t.owner, mem_map_of_mem ht, rfl⟩
  · exact mem_map.mpr ⟨s.owner, mem_map_of_mem hs, rfl⟩

theorem owner_mem_of_live (ht : t ∈ d.tenants) : t.owner ∈ d.owners :=
  mem_append_left _ (mem_map_of_mem ht)

theorem owner_mem_of_destroyed (hs : s ∈ d.tombstones) : s.owner ∈ d.owners :=
  mem_append_right _ (mem_map_of_mem hs)

theorem WellFormed.name_ne_default (h : d.WellFormed defaultKIDs) (ho : o ∈ d.owners) : o.name ≠ defaultTenant := by
  intro hname
  have hvalid := h.apart.named o ho
  unfold validTenantName validateTenantName at hvalid
  rw [if_pos hname, mapError_ok] at hvalid
  simp at hvalid

theorem WellFormed.tenant_of_live (h : d.WellFormed defaultKIDs) (ht : t ∈ d.tenants)
    (hm : matchesAny t.buckets (toLower bucket) = true) :
    d.tenant bucket = (t.name, false) := by
  unfold tenant
  cases hf : d.tenants.find? fun t => matchesAny t.buckets (toLower bucket) with
  | none => exact absurd hm (find?_eq_none.mp hf t ht)
  | some t' =>
    have hm' : matchesAny t'.buckets (toLower bucket) = true := by simpa using find?_some hf
    have hown := h.apart.owner_unique (owner_mem_of_live (mem_of_find?_eq_some hf))
      (owner_mem_of_live ht) hm' hm
    exact congrArg (·, false) (congrArg Owner.name hown)

theorem WellFormed.tenant_of_destroyed (h : d.WellFormed defaultKIDs) (hs : s ∈ d.tombstones)
    (hm : matchesAny s.buckets (toLower bucket) = true) :
    d.tenant bucket = (s.name, true) := by
  unfold tenant
  cases hf : d.tenants.find? fun t => matchesAny t.buckets (toLower bucket) with
  | some t =>
    -- the bucket would be a live tenant's too
    have ht := mem_of_find?_eq_some hf
    have hm' : matchesAny t.buckets (toLower bucket) = true := by simpa using find?_some hf
    have hown := h.apart.owner_unique (owner_mem_of_live ht) (owner_mem_of_destroyed hs) hm' hm
    exact absurd (congrArg Owner.name hown) (h.live_not_destroyed ht hs)
  | none =>
    cases hg : d.tombstones.find? fun s => matchesAny s.buckets (toLower bucket) with
    | none => exact absurd hm (find?_eq_none.mp hg s hs)
    | some s' =>
      have hm' : matchesAny s'.buckets (toLower bucket) = true := by simpa using find?_some hg
      have hown := h.apart.owner_unique (owner_mem_of_destroyed (mem_of_find?_eq_some hg))
        (owner_mem_of_destroyed hs) hm' hm
      exact congrArg (·, true) (congrArg Owner.name hown)

theorem tenant_of_none (hlive : ∀ t ∈ d.tenants, matchesAny t.buckets (toLower bucket) = false)
    (hdestroyed : ∀ s ∈ d.tombstones, matchesAny s.buckets (toLower bucket) = false) :
    d.tenant bucket = (defaultTenant, false) := by
  unfold tenant
  have h1 : (d.tenants.find? fun t => matchesAny t.buckets (toLower bucket)) = none :=
    find?_eq_none.mpr fun t ht => by simp [hlive t ht]
  have h2 : (d.tombstones.find? fun t => matchesAny t.buckets (toLower bucket)) = none :=
    find?_eq_none.mpr fun s hs => by simp [hdestroyed s hs]
  rw [h1]
  rw [h2]

end Directory

end BlindBucket.Keys
