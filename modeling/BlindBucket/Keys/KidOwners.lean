import BlindBucket.Keys.Snapshot

/-!
# Who holds a key id

`AddTenant` refuses a ring whose key ids are in use, and asks `KIDOwner` for that. Of the default tenant `KIDOwner`
asks for the date of the key instead of the key. A file that was written before keys had dates loads without them, and
its keys are then nobody's.

Tenant operations leave the default ring alone, so whether its keys have dates is settled when the file is opened.
-/

namespace BlindBucket.Keys

open GoText List

/-- Every key has a date. -/
def Keyring.Dated (r : Keyring) : Prop := ∀ row ∈ r.keys, row.created.isSome = true

/-- A tenant lists the key id, live or destroyed. -/
def File.Lists (f : File) (kid : Bytes) : Prop :=
  (∃ t ∈ f.tenants, kid ∈ t.kids) ∨ ∃ t ∈ f.tombstones, kid ∈ t.kids

/-- The key id is in use. -/
def File.Uses (f : File) (kid : Bytes) : Prop := kid ∈ f.default.kids ∨ f.Lists kid

theorem Keyring.find_of_mem {r : Keyring} {row : KeyRow} (h : row ∈ r.keys) :
    (r.keys.find? fun x => x.kid = row.kid) = some row := by
  cases hf : r.keys.find? fun x => x.kid = row.kid with
  | none => exact absurd (find?_eq_none.mp hf row h) (by simp)
  | some x =>
    have hkid : x.kid = row.kid := by simpa using find?_some hf
    have hnodup : (r.keys.map KeyRow.kid).Nodup := by
      refine Pairwise.map KeyRow.kid ?_ r.sorted
      intro a b hab heq
      rw [heq] at hab
      exact Std.lt_irrefl hab
    rw [inj_on_of_nodup_map hnodup (mem_of_find?_eq_some hf) h hkid]

theorem Keyring.createdAt_of_mem {r : Keyring} {row : KeyRow} (h : row ∈ r.keys) :
    r.createdAt row.kid = row.created := by
  rw [createdAt, find_of_mem h]
  rfl

variable {f : File}

theorem File.kidOwner_isSome {kid : Bytes} :
    (f.kidOwner kid).isSome = true ↔ (f.default.createdAt kid).isSome = true ∨ f.Lists kid := by
  unfold kidOwner Lists
  by_cases hdate : (f.default.createdAt kid).isSome = true
  · rw [if_pos hdate]
    exact ⟨fun _ => Or.inl hdate, fun _ => rfl⟩
  · rw [if_neg hdate]
    cases hf : f.tenants.find? fun t => decide (kid ∈ t.kids) with
    | some t =>
      have hkid : kid ∈ t.kids := by simpa using find?_some hf
      exact ⟨fun _ => Or.inr (Or.inl ⟨t, mem_of_find?_eq_some hf, hkid⟩), fun _ => rfl⟩
    | none =>
      have hlive : ¬ ∃ t ∈ f.tenants, kid ∈ t.kids := by
        intro ⟨t, ht, hkid⟩
        exact find?_eq_none.mp hf t ht (decide_eq_true hkid)
      simp [hdate, hlive]

theorem File.kidOwner_of_dated (h : f.default.Dated) (kid : Bytes) :
    (f.kidOwner kid).isSome = true ↔ f.Uses kid := by
  rw [File.kidOwner_isSome]
  refine or_congr_left ?_
  constructor
  · intro hdate
    unfold Keyring.createdAt at hdate
    cases hf : f.default.keys.find? fun x => x.kid = kid with
    | none => rw [hf] at hdate; simp at hdate
    | some x =>
      have hkid : x.kid = kid := by simpa using find?_some hf
      exact hkid ▸ mem_map_of_mem (mem_of_find?_eq_some hf)
  · intro hkid
    obtain ⟨row, hrow, rfl⟩ := mem_map.mp hkid
    rw [Keyring.createdAt_of_mem hrow]
    exact h row hrow

/-! ## Runs -/

theorem File.openTenant_default {A : Aead wrapTagSize} {J : FileCodec} {name : Bytes} {tenantRoot : TenantRoot} :
    (f.openTenant A J name tenantRoot).2.default = f.default := by
  unfold File.openTenant
  split
  · rfl
  · split
    · rfl
    · split
      · rfl
      · rfl

theorem File.after_default (f : File) (op : Op) : (f.after op).default = f.default := by
  unfold File.after
  split
  next f' h =>
    cases op with
    | openTenant A J name tenantRoot =>
      cases h
      exact f.openTenant_default
    | _ =>
      obtain ⟨_, _, h⟩ := bind_ok h
      exact (congrArg File.default (Except.ok.inj h)).symm
  · rfl

theorem File.run_default (f : File) (ops : List Op) : (f.run ops).default = f.default := by
  induction ops generalizing f with
  | nil => rfl
  | cons op ops ih => exact (ih (f.after op)).trans (f.after_default op)

theorem File.checkKIDs_ok {kids : List Bytes} (h : f.checkKIDs kids = .ok ()) :
    ∀ kid ∈ kids, f.kidOwner kid = none := by
  induction kids with
  | nil => simp
  | cons kid rest ih =>
    unfold checkKIDs at h
    split at h
    · simp at h
    next hnone =>
      exact forall_mem_cons.mpr ⟨hnone, ih h⟩

theorem File.addTenant_unowned {f' : File} {name : Bytes} {buckets : List Bytes} {ring : Keyring}
    {lock : TenantLock} (h : f.addTenant name buckets ring lock = .ok f') :
    ∀ kid ∈ ring.kids, f.kidOwner kid = none := by
  obtain ⟨_, hcheck, _⟩ := bind_ok h
  obtain ⟨_, _, hcheck⟩ := bind_ok hcheck
  split at hcheck
  · simp at hcheck
  split at hcheck
  · simp at hcheck
  split at hcheck
  · simp at hcheck
  split at hcheck
  · simp at hcheck
  obtain ⟨_, hkids, _⟩ := bind_ok hcheck
  exact checkKIDs_ok hkids

/-- What `KIDOwner` and `AddTenant` promise of a file. -/
structure File.Exact (f : File) : Prop where
  owner : ∀ kid, (f.kidOwner kid).isSome = true ↔ f.Uses kid
  unused : ∀ {name buckets ring lock f'}, f.addTenant name buckets ring lock = .ok f' →
    ∀ kid ∈ ring.kids, ¬ f.Uses kid

/-- **Key ids are unique across the keyring, whatever is done to its tenants, exactly if every key of the default ring
has a date.** -/
theorem kid_owner_exact_iff {A : Aead wrapTagSize} {J : FileCodec} {data rootKey : Bytes}
    {tenantRoot : TenantRoot} {f : File} (hopen : openKeyringFile A J data rootKey tenantRoot = .ok f) :
    (∀ ops, (f.run ops).Exact) ↔ f.default.Dated := by
  constructor
  · intro hexact row hrow
    have hsound : f.Sound := by
      obtain ⟨_, hopen⟩ := else_ok hopen
      obtain ⟨base, _, hopen⟩ := bind_ok hopen
      exact openFile_sound hopen
    have hkid : row.kid ∈ f.default.kids := mem_map_of_mem hrow
    -- the directory of an opened file lists no key of the default ring
    have hforeign : ¬ f.Lists row.kid := by
      intro hlists
      rcases hlists with ⟨t, ht, hk⟩ | ⟨t, ht, hk⟩
      · exact hsound.directory.apart.foreign _ (File.Sound.owner_mem ht) _ hk hkid
      · exact hsound.directory.apart.foreign _ (Directory.owner_mem_of_destroyed ht) _ hk hkid
    have howner := ((hexact []).owner row.kid).mpr (Or.inl hkid)
    rcases File.kidOwner_isSome.mp howner with hdate | hlists
    · exact Keyring.createdAt_of_mem hrow ▸ hdate
    · exact absurd hlists hforeign
  · intro hdated ops
    have hrun : (f.run ops).default.Dated := (f.run_default ops).symm ▸ hdated
    refine ⟨File.kidOwner_of_dated hrun, ?_⟩
    intro name buckets ring lock f' hadd kid hkid huses
    have hsome := (File.kidOwner_of_dated hrun kid).mpr huses
    rw [File.addTenant_unowned hadd kid hkid] at hsome
    simp at hsome

/-- The codec of `acmeCodec` with a date for the default key. -/
def datedCodec : FileCodec :=
  { acmeCodec with
    unmarshalFile := fun _ => .ok ⟨2, ascii "k0", { source := sourcePassphrase }, none,
      [⟨ascii "k0", some 1, plainlySealed oneKey⟩], none, some (plainlySealed oneKey), none⟩ }

/-- The tenant of the file is destroyed, and its key id is not given to another. -/
theorem kid_owner_exact_dated :
    ∃ f, openKeyringFile (Aead.openAead wrapTagSize) datedCodec [] oneKey none = .ok f ∧ f.default.Dated
      ∧ ((f.run [.destroy (ascii "acme") 0]).tenants.map Tenant.kids,
          (f.run [.destroy (ascii "acme") 0]).kidOwner (ascii "k1")) = ([], some (ascii "acme"))
      ∧ (f.run [.destroy (ascii "acme") 0]).Exact := by
  have hdates : ((openKeyringFile (Aead.openAead wrapTagSize) datedCodec [] oneKey none).toOption.map fun f =>
      (f.default.keys.map KeyRow.created, (f.run [.destroy (ascii "acme") 0]).tenants.map Tenant.kids,
        (f.run [.destroy (ascii "acme") 0]).kidOwner (ascii "k1")))
      = some ([some 1], [], some (ascii "acme")) := by decide +kernel
  cases hopen : openKeyringFile (Aead.openAead wrapTagSize) datedCodec [] oneKey none with
  | error e =>
    rw [hopen] at hdates
    simp [Except.toOption] at hdates
  | ok f =>
    rw [hopen] at hdates
    obtain ⟨hone, hrun⟩ := Prod.mk.inj (Option.some.inj hdates)
    have hdated : f.default.Dated := by
      intro row hrow
      have hmem : row.created ∈ f.default.keys.map KeyRow.created := mem_map_of_mem hrow
      rw [hone] at hmem
      rw [mem_singleton.mp hmem]
      rfl
    exact ⟨f, rfl, hdated, hrun, (kid_owner_exact_iff hopen).mpr hdated _⟩

/-- A ring whose one key has the id of a default key. -/
def takenRing : Keyring where
  active := ascii "k0"
  keys := [⟨ascii "k0", ⟨oneKey, by decide⟩, some 1⟩]
  audit := none
  name := some ⟨oneKey, by decide⟩
  freshness := none
  sorted := List.pairwise_singleton ..
  valid := by decide

/-- A default key without a date is nobody's, and a tenant is added that has its key id. -/
theorem undated_key_taken :
    ((openKeyringFile (Aead.openAead wrapTagSize) acmeCodec [] oneKey none).toOption.map fun f =>
      (f.default.kids, f.kidOwner (ascii "k0"),
        (f.addTenant (ascii "new") [] takenRing .deployment).toOption.map fun f' => f'.tenants.map Tenant.kids))
      = some ([ascii "k0"], none, some [[ascii "k1"], [ascii "k0"]]) := by
  decide +kernel

end BlindBucket.Keys
