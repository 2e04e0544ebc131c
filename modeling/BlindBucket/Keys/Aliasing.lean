import BlindBucket.Keys.Served
import BlindBucket.Keys.Tenants
import BlindBucket.Lib.Arena

/-!
# A snapshot and the file it was taken of

In the source a file and a snapshot share memory: tenants are pointers, and bucket entries, key ids and locks
are slices of arrays. `NewServed` copies the arrays and the tenants, and shares the keyrings. Here both stand
in one heap, with every array at its address, so that a write to the file could reach the snapshot if they
shared one.

`Mutates` says what a change to the file may write: arrays and tenants that the file reaches, new ones, and
of the keyrings only which key is active, and not that of the default tenant's. Every operation on the file,
and every direct write to its fields, is such a change. The snapshot reaches none of what may be written, so
it answers as it did.
-/

namespace BlindBucket.Keys

open ByteIo GoText ObjectMeta List

/-- Where the arrays of a tenant, of its entry in the directory or of a tombstone are. -/
structure Arrays where
  buckets : Slice
  kids : Slice
  locks : Slice

structure TenantObject extends Arrays where
  name : Bytes
  activeKID : Bytes
  ring : Try Nat
  tenantSection : TenantSection
  sealWith : Option TenantLock

structure TombstoneObject extends Arrays where
  name : Bytes
  destroyed : Int

structure Heap where
  strings : Arena Bytes
  locks : Arena Lock
  tenants : List TenantObject
  pointers : Arena Nat
  tombstones : Arena TombstoneObject
  rings : List Keyring

structure FileObject where
  default : Nat
  generation : Nat
  tenants : Slice
  tombstones : Slice

/-- A tenant as the directory of a snapshot records it. -/
structure EntryObject extends Arrays where
  name : Bytes
  activeKID : Bytes

/-- A snapshot in memory. Its maps, and the array of its directory, are its own and never handed out. -/
structure ServedObject where
  default : Nat
  generation : Nat
  entries : List EntryObject
  tombstones : List TombstoneObject
  byKID : List (Bytes × Nat)
  tenants : List (Bytes × Nat)

variable {α : Type}

namespace Heap

/-! ## What is in memory -/

variable (h : Heap) (o : TenantObject) (f : FileObject)

def ring (p : Nat) : Keyring := h.rings.getD p newKeyring

def tenantOf : Tenant where
  name := o.name
  buckets := Arena.read h.strings o.buckets
  activeKID := o.activeKID
  kids := Arena.read h.strings o.kids
  locks := Arena.read h.locks o.locks
  ring := o.ring.map h.ring
  tenantSection := o.tenantSection
  sealWith := o.sealWith

def tombstoneOf (o : TombstoneObject) : Tombstone where
  name := o.name
  buckets := Arena.read h.strings o.buckets
  kids := Arena.read h.strings o.kids
  locks := Arena.read h.locks o.locks
  destroyed := o.destroyed

def objects : List TenantObject :=
  (Arena.read h.pointers f.tenants).filterMap fun i => h.tenants[i]?

def file : File where
  default := h.ring f.default
  generation := f.generation
  tenants := (h.objects f).map h.tenantOf
  tombstones := (Arena.read h.tombstones f.tombstones).map h.tombstoneOf

def entryOf (o : EntryObject) : DirectoryTenant where
  name := o.name
  buckets := Arena.read h.strings o.buckets
  kids := Arena.read h.strings o.kids
  activeKID := o.activeKID
  locks := Arena.read h.locks o.locks

/-- What a snapshot reads of one of its tenants. -/
def servedTenant : ServedTenant := ⟨o.activeKID, o.ring.map h.ring⟩

def served (s : ServedObject) : Served where
  default := h.ring s.default
  dir := ⟨s.generation, s.entries.map h.entryOf, s.tombstones.map h.tombstoneOf⟩
  generation := s.generation
  byKID := s.byKID.map fun row => (row.1, h.ring row.2)
  tenants := s.tenants.filterMap fun row => (h.tenants[row.2]?).map fun o => (row.1, h.servedTenant o)

/-! ## Making things -/

/-- New arrays. -/
def allocArrays (buckets kids : List Bytes) (locks : List Lock) : Heap × Arrays :=
  ({ h with strings := h.strings ++ [buckets, kids], locks := h.locks ++ [locks] },
    { buckets := ⟨h.strings.length, buckets.length⟩
      kids := ⟨h.strings.length + 1, kids.length⟩
      locks := ⟨h.locks.length, locks.length⟩ })

/-- A new tenant, with arrays of its own. -/
def allocTenant (t : Tenant) (ring : Try Nat) : Heap × TenantObject :=
  let made := h.allocArrays t.buckets t.kids t.locks
  let o : TenantObject := ⟨made.2, t.name, t.activeKID, ring, t.tenantSection, t.sealWith⟩
  ({ made.1 with tenants := h.tenants ++ [o] }, o)

/-- A new tombstone, with arrays of its own. -/
def allocTombstone (t : Tombstone) : Heap × TombstoneObject :=
  let made := h.allocArrays t.buckets t.kids t.locks
  (made.1, ⟨made.2, t.name, t.destroyed⟩)

def allocTombstones (h : Heap) : List Tombstone → Heap × List TombstoneObject
  | [] => (h, [])
  | t :: rest =>
    let (h, o) := h.allocTombstone t
    let (h, os) := h.allocTombstones rest
    (h, o :: os)

/-- The ring of a tenant that opened, in memory of its own. -/
def allocRing : Try Keyring → Heap × Try Nat
  | .error e => (h, .error e)
  | .ok r => ({ h with rings := h.rings ++ [r] }, .ok h.rings.length)

/-- The tenants of a file that is opened, and where they are. -/
def loadTenants (h : Heap) : List Tenant → Heap × List Nat
  | [] => (h, [])
  | t :: rest =>
    let (h, ring) := h.allocRing t.ring
    let i := h.tenants.length
    let (h, _) := h.allocTenant t ring
    let (h, is) := h.loadTenants rest
    (h, i :: is)

/-- An opened file in memory: decoding makes every array anew, and opening makes every ring. -/
def load (f : File) : Heap × FileObject :=
  let default := h.rings.length
  let h := { h with rings := h.rings ++ [f.default] }
  let (h, is) := h.loadTenants f.tenants
  let (h, tombs) := h.allocTombstones f.tombstones
  ({ h with pointers := h.pointers ++ [is], tombstones := h.tombstones ++ [tombs] },
    ⟨default, f.generation, ⟨h.pointers.length, is.length⟩, ⟨h.tombstones.length, tombs.length⟩⟩)

/-- The copies of a snapshot: of each tenant an object, and its entry of the directory, which shows the same
arrays. The ring is shared. -/
def cloneTenants (h : Heap) : List TenantObject → Heap × List (EntryObject × Nat)
  | [] => (h, [])
  | o :: rest =>
    let i := h.tenants.length
    let (h', c) := h.allocTenant { h.tenantOf o with tenantSection := {}, sealWith := none } o.ring
    let (h'', cs) := h'.cloneTenants rest
    (h'', (⟨c.toArrays, c.name, c.activeKID⟩, i) :: cs)

/-- The ring under each of its key ids, by address. -/
def ringRows (p : Nat) : List (Bytes × Nat) := (h.ring p).kids.map fun kid => (kid, p)

/-- What a tenant adds to the map of rings. -/
def objectRows : List (Bytes × Nat) :=
  match o.ring with
  | .error _ => []
  | .ok p => h.ringRows p

/-- `NewServed`, in memory. What the loops read of the file is not written in between. -/
def newServed : Heap × ServedObject :=
  let tombs := (Arena.read h.tombstones f.tombstones).map h.tombstoneOf
  let (h₁, ts) := h.allocTombstones tombs
  let (h₂, cs) := h₁.cloneTenants (h.objects f)
  (h₂,
    { default := f.default
      generation := f.generation
      entries := cs.map Prod.fst
      tombstones := ts
      byKID := (h.objects f).foldl (fun rows o => h.objectRows o ++ rows) (h.ringRows f.default)
      tenants := cs.foldl (fun rows c => (c.1.name, c.2) :: rows) [] })

/-! ## What making things leaves alone -/

/-- Things were made and nothing was written. -/
structure Grown (h h' : Heap) : Prop where
  strings : h.strings <+: h'.strings
  locks : h.locks <+: h'.locks
  tenants : h.tenants <+: h'.tenants
  pointers : h.pointers <+: h'.pointers
  tombstones : h.tombstones <+: h'.tombstones
  rings : h.rings <+: h'.rings

theorem Grown.refl : Grown h h :=
  ⟨prefix_rfl, prefix_rfl, prefix_rfl, prefix_rfl, prefix_rfl, prefix_rfl⟩

theorem Grown.trans {h h' h'' : Heap} (a : Grown h h') (b : Grown h' h'') : Grown h h'' :=
  ⟨a.strings.trans b.strings, a.locks.trans b.locks, a.tenants.trans b.tenants,
    a.pointers.trans b.pointers, a.tombstones.trans b.tombstones, a.rings.trans b.rings⟩

theorem read_grown {a a' : Arena α} (h : a <+: a') {s : Slice} (hs : s.addr < a.length) :
    Arena.read a' s = Arena.read a s := by
  obtain ⟨new, rfl⟩ := h
  exact (Arena.Writes.push (fun _ => False) a new).read hs (by simp)

theorem getElem?_grown {α : Type} {a a' : List α} (h : a <+: a') {i : Nat} {x : α} (hx : a[i]? = some x) :
    a'[i]? = some x := by
  obtain ⟨new, rfl⟩ := h
  rw [getElem?_append_left (List.getElem?_eq_some_iff.mp hx).1, hx]

theorem ring_of_grown {h h' : Heap} (g : Grown h h') {p : Nat} (hp : p < h.rings.length) : h'.ring p = h.ring p := by
  obtain ⟨new, hnew⟩ := g.rings
  unfold ring
  rw [← hnew, getD_append _ _ _ _ hp]

end Heap

/-- The arrays are in the heap. -/
structure Arrays.In (a : Arrays) (h : Heap) : Prop where
  buckets : a.buckets.addr < h.strings.length
  kids : a.kids.addr < h.strings.length
  locks : a.locks.addr < h.locks.length

/-- The arrays are not in the heap yet. -/
structure Arrays.New (a : Arrays) (h : Heap) : Prop where
  buckets : h.strings.length ≤ a.buckets.addr
  kids : h.strings.length ≤ a.kids.addr
  locks : h.locks.length ≤ a.locks.addr

structure TenantObject.In (o : TenantObject) (h : Heap) : Prop extends o.toArrays.In h where
  ring : ∀ p, o.ring = .ok p → p < h.rings.length

namespace Heap

variable {h h' : Heap}

variable {x : Arrays} {β γ : Type} {ts : List β} {k : β → γ} {os : List α} {f : FileObject} {a : Nat}

theorem Grown.arrays_in (g : Grown h h') (hx : x.In h) : x.In h' :=
  ⟨hx.buckets.trans_le g.strings.length_le, hx.kids.trans_le g.strings.length_le,
    hx.locks.trans_le g.locks.length_le⟩

theorem Grown.arrays_new (g : Grown h h') (hx : x.New h') : x.New h :=
  ⟨g.strings.length_le.trans hx.buckets, g.strings.length_le.trans hx.kids,
    g.locks.length_le.trans hx.locks⟩

theorem Grown.tenant_in (g : Grown h h') {o : TenantObject} (ho : o.In h) : o.In h' :=
  ⟨g.arrays_in ho.toIn, fun p hp => Nat.lt_of_lt_of_le (ho.ring p hp) g.rings.length_le⟩

theorem Grown.read_arrays (g : Grown h h') (hx : x.In h) :
    Arena.read h'.strings x.buckets = Arena.read h.strings x.buckets
      ∧ Arena.read h'.strings x.kids = Arena.read h.strings x.kids
      ∧ Arena.read h'.locks x.locks = Arena.read h.locks x.locks :=
  ⟨read_grown g.strings hx.buckets, read_grown g.strings hx.kids, read_grown g.locks hx.locks⟩

theorem ringOf_grown (g : Grown h h') {o : TenantObject} (ho : o.In h) : o.ring.map h'.ring = o.ring.map h.ring := by
  cases hr : o.ring with
  | error e => rfl
  | ok p => exact congrArg Except.ok (ring_of_grown g (ho.ring p hr))

theorem tenantOf_grown (g : Grown h h') {o : TenantObject} (ho : o.In h) : h'.tenantOf o = h.tenantOf o := by
  obtain ⟨hb, hk, hl⟩ := g.read_arrays ho.toIn
  unfold tenantOf
  rw [hb, hk, hl, ringOf_grown g ho]

theorem tombstoneOf_grown (g : Grown h h') {o : TombstoneObject} (ho : o.In h) :
    h'.tombstoneOf o = h.tombstoneOf o := by
  obtain ⟨hb, hk, hl⟩ := g.read_arrays ho
  unfold tombstoneOf
  rw [hb, hk, hl]

theorem entryOf_grown (g : Grown h h') {o : EntryObject} (ho : o.In h) : h'.entryOf o = h.entryOf o := by
  obtain ⟨hb, hk, hl⟩ := g.read_arrays ho
  unfold entryOf
  rw [hb, hk, hl]

/-! ## What was made -/

section Made

variable (h : Heap) (bs ks : List Bytes) (ls : List Lock) (t : Tenant) (ring : Try Nat)
  (d : Tombstone)

theorem allocArrays_grown : Grown h (h.allocArrays bs ks ls).1 :=
  ⟨prefix_append _ _, prefix_append _ _, prefix_rfl, prefix_rfl, prefix_rfl, prefix_rfl⟩

theorem allocArrays_in : (h.allocArrays bs ks ls).2.In (h.allocArrays bs ks ls).1 := by
  constructor <;> simp [allocArrays]

theorem allocArrays_new : (h.allocArrays bs ks ls).2.New h := by
  constructor <;> simp [allocArrays]

theorem read_allocArrays :
    Arena.read (h.allocArrays bs ks ls).1.strings (h.allocArrays bs ks ls).2.buckets = bs
      ∧ Arena.read (h.allocArrays bs ks ls).1.strings (h.allocArrays bs ks ls).2.kids = ks
      ∧ Arena.read (h.allocArrays bs ks ls).1.locks (h.allocArrays bs ks ls).2.locks = ls := by
  refine ⟨?_, ?_, Arena.read_alloc _ _⟩ <;> simp [allocArrays, Arena.read]

theorem allocTenant_grown : Grown h (h.allocTenant t ring).1 :=
  ⟨prefix_append _ _, prefix_append _ _, prefix_append _ _, prefix_rfl, prefix_rfl, prefix_rfl⟩

theorem allocTenant_in {ring : Try Nat} (hring : ∀ p, ring = .ok p → p < h.rings.length) :
    (h.allocTenant t ring).2.In (h.allocTenant t ring).1 := by
  obtain ⟨hb, hk, hl⟩ := h.allocArrays_in t.buckets t.kids t.locks
  exact ⟨⟨hb, hk, hl⟩, hring⟩

theorem tenantOf_allocTenant :
    (h.allocTenant t ring).1.tenantOf (h.allocTenant t ring).2 = { t with ring := ring.map h.ring } := by
  obtain ⟨hb, hk, hl⟩ := h.read_allocArrays t.buckets t.kids t.locks
  unfold allocTenant tenantOf
  rw [hb, hk, hl]
  rfl

theorem allocTenant_mem :
    (h.allocTenant t ring).1.tenants[h.tenants.length]? = some (h.allocTenant t ring).2 :=
  getElem?_concat_length

theorem tombstoneOf_allocTombstone : (h.allocTombstone d).1.tombstoneOf (h.allocTombstone d).2 = d := by
  obtain ⟨hb, hk, hl⟩ := h.read_allocArrays d.buckets d.kids d.locks
  unfold allocTombstone tombstoneOf
  rw [hb, hk, hl]

end Made

theorem allocTombstones_spec (h : Heap) (ts : List Tombstone) : Grown h (h.allocTombstones ts).1 ∧
      Forall₂ (fun o t => o.New h ∧ o.In (h.allocTombstones ts).1 ∧
        (h.allocTombstones ts).1.tombstoneOf o = t) (h.allocTombstones ts).2 ts := by
  induction ts generalizing h with
  | nil => exact ⟨Grown.refl h, .nil⟩
  | cons t rest ih =>
    have hgrown : Grown h (h.allocTombstone t).1 := allocArrays_grown ..
    have hin : (h.allocTombstone t).2.In (h.allocTombstone t).1 := allocArrays_in ..
    obtain ⟨hrest, hall⟩ := ih (h.allocTombstone t).1
    rw [allocTombstones]
    refine ⟨hgrown.trans hrest, .cons ⟨allocArrays_new .., hrest.arrays_in hin, ?_⟩ ?_⟩
    · rw [tombstoneOf_grown hrest hin, tombstoneOf_allocTombstone]
    · exact hall.imp fun o t' ho => ⟨hgrown.arrays_new ho.1, ho.2⟩

theorem allocRing_grown (h : Heap) (r : Try Keyring) : Grown h (h.allocRing r).1 := by
  cases r with
  | error e => exact Grown.refl h
  | ok r =>
    exact ⟨prefix_rfl, prefix_rfl, prefix_rfl, prefix_rfl, prefix_rfl,
      prefix_append _ _⟩

theorem allocRing_spec (h : Heap) (r : Try Keyring) : (h.allocRing r).2.map (h.allocRing r).1.ring = r ∧
      ∀ p, (h.allocRing r).2 = .ok p → h.rings.length ≤ p ∧ p < (h.allocRing r).1.rings.length := by
  cases r with
  | error e => exact ⟨rfl, fun p hp => absurd hp (by simp [allocRing])⟩
  | ok r =>
    refine ⟨?_, ?_⟩
    · unfold allocRing ring
      simp [Except.map]
    · intro p hp
      cases hp
      simp [allocRing]

/-- Loading tenants: each is there as it was given, with a ring made for it. -/
theorem loadTenants_spec (h : Heap) (ts : List Tenant) :
    Grown h (h.loadTenants ts).1 ∧
      Forall₂ (fun i t => ∃ o, (h.loadTenants ts).1.tenants[i]? = some o ∧ o.In (h.loadTenants ts).1 ∧
        (h.loadTenants ts).1.tenantOf o = t ∧ ∀ p, o.ring = .ok p → h.rings.length ≤ p)
          (h.loadTenants ts).2 ts := by
  induction ts generalizing h with
  | nil => exact ⟨Grown.refl h, .nil⟩
  | cons t rest ih =>
    have hg₁ := allocRing_grown h t.ring
    obtain ⟨hring, hfresh⟩ := allocRing_spec h t.ring
    rw [loadTenants]
    generalize h.allocRing t.ring = made at hg₁ hring hfresh ⊢
    obtain ⟨h₁, ring⟩ := made
    have hg₂ := allocTenant_grown h₁ t ring
    have hin := allocTenant_in h₁ t fun p hp => (hfresh p hp).2
    obtain ⟨hg₃, hall⟩ := ih (h₁.allocTenant t ring).1
    refine ⟨hg₁.trans (hg₂.trans hg₃), .cons ?_ ?_⟩
    · refine ⟨(h₁.allocTenant t ring).2, getElem?_grown hg₃.tenants (allocTenant_mem h₁ t ring),
        hg₃.tenant_in hin, ?_, fun p hp => (hfresh p hp).1⟩
      rw [tenantOf_grown hg₃ hin, tenantOf_allocTenant]
      exact congrArg (fun r => { t with ring := r }) hring
    · refine hall.imp fun i t' hi => ?_
      obtain ⟨o, ho, hoin, hview, hp⟩ := hi
      exact ⟨o, ho, hoin, hview,
        fun p hr => Nat.le_trans (hg₁.trans hg₂).rings.length_le (hp p hr)⟩

/-- What holds of a file in memory: what it points at is there, and no tenant has the default tenant's
ring. -/
structure Valid (h : Heap) (f : FileObject) : Prop where
  pointers : ∀ i ∈ Arena.read h.pointers f.tenants, i < h.tenants.length
  tenants : ∀ o ∈ h.objects f, o.In h
  tombstones : ∀ o ∈ Arena.read h.tombstones f.tombstones, o.In h
  default : f.default < h.rings.length
  apart : ∀ o ∈ h.objects f, o.ring ≠ .ok f.default

theorem filterMap_of_forall₂ {R : α → β → Prop} {is : List Nat} {a : List α}
    (h : Forall₂ (fun i t => ∃ o, a[i]? = some o ∧ R o t) is ts) :
    Forall₂ R (is.filterMap fun i => a[i]?) ts := by
  induction h with
  | nil => exact .nil
  | cons hi _ ih =>
    obtain ⟨o, ho, hr⟩ := hi
    rw [filterMap_cons, ho]
    exact .cons hr ih

theorem map_of_forall₂ {g : α → γ} (h : Forall₂ (fun o t => g o = k t) os ts) : os.map g = ts.map k := by
  induction h with
  | nil => rfl
  | cons ho _ ih => rw [map_cons, map_cons, ho, ih]

theorem filterMap_eq_map_of_forall₂ {g : α → Option γ} (h : Forall₂ (fun o t => g o = some (k t)) os ts) :
    os.filterMap g = ts.map k := by
  induction h with
  | nil => rfl
  | cons ho _ ih => rw [filterMap_cons, ho, map_cons, ih]

theorem forall_of_forall₂ {P : α → Prop} (h : Forall₂ (fun o _ => P o) os ts) : ∀ o ∈ os, P o := by
  induction h with
  | nil => simp
  | cons ho _ ih => exact forall_mem_cons.mpr ⟨ho, ih⟩

/-- **An opened file in memory** is the file, and valid. -/
theorem load_spec (h : Heap) (f : File) : (h.load f).1.file (h.load f).2 = f ∧ (h.load f).1.Valid (h.load f).2 := by
  -- the ring of the default tenant first, then the tenants, then the tombstones, then the two arrays
  unfold load
  dsimp only
  generalize hh₀ : ({ h with rings := h.rings ++ [f.default] } : Heap) = h₀
  have hdefault : h₀.ring h.rings.length = f.default ∧ h₀.rings.length = h.rings.length + 1 := by
    rw [← hh₀]
    unfold ring
    simp
  obtain ⟨hg₁, htenants⟩ := loadTenants_spec h₀ f.tenants
  generalize h₀.loadTenants f.tenants = loaded at hg₁ htenants ⊢
  obtain ⟨h₁, is⟩ := loaded
  obtain ⟨hg₂, htombs⟩ := allocTombstones_spec h₁ f.tombstones
  generalize h₁.allocTombstones f.tombstones = made at hg₂ htombs ⊢
  obtain ⟨h₂, tombs⟩ := made
  generalize hh₃ : ({ h₂ with pointers := h₂.pointers ++ [is], tombstones := h₂.tombstones ++ [tombs] } : Heap) = h₃
  have hg₃ : Grown h₂ h₃ := by
    rw [← hh₃]
    exact ⟨prefix_rfl, prefix_rfl, prefix_rfl, prefix_append _ _, prefix_append _ _,
      prefix_rfl⟩
  have hg : Grown h₁ h₃ := hg₂.trans hg₃
  have hpointers : Arena.read h₃.pointers ⟨h₂.pointers.length, is.length⟩ = is := by
    rw [← hh₃]
    exact Arena.read_alloc _ _
  have htombstones : Arena.read h₃.tombstones ⟨h₂.tombstones.length, tombs.length⟩ = tombs := by
    rw [← hh₃]
    exact Arena.read_alloc _ _
  have hobjects := filterMap_of_forall₂
    (R := fun o t => o.In h₃ ∧ h₃.tenantOf o = t ∧ ∀ p, o.ring = .ok p → h₀.rings.length ≤ p)
    (htenants.imp fun i t hi => by
      obtain ⟨o, ho, hin, hview, hp⟩ := hi
      exact ⟨o, getElem?_grown hg.tenants ho, hg.tenant_in hin,
        (tenantOf_grown hg hin).trans hview, hp⟩)
  have htombs' : Forall₂ (fun o t => o.In h₃ ∧ h₃.tombstoneOf o = t) tombs f.tombstones :=
    htombs.imp fun o t ho => ⟨hg₃.arrays_in ho.2.1, (tombstoneOf_grown hg₃ ho.2.1).trans ho.2.2⟩
  have hring : h₃.ring h.rings.length = f.default := by
    rw [ring_of_grown (hg₁.trans hg) (by omega), hdefault.1]
  refine ⟨?_, ?_, ?_, ?_, ?_, ?_⟩
  · unfold file objects
    rw [hpointers, htombstones, hring, map_of_forall₂ (k := id) (hobjects.imp fun _ _ ho => ho.2.1),
      map_of_forall₂ (k := id) (htombs'.imp fun _ _ ho => ho.2), map_id, map_id]
  · rw [hpointers]
    refine forall_of_forall₂ (htenants.imp fun i t hi => ?_)
    obtain ⟨o, ho, _⟩ := hi
    exact (List.getElem?_eq_some_iff.mp (getElem?_grown hg.tenants ho)).1
  · unfold objects
    rw [hpointers]
    exact forall_of_forall₂ (hobjects.imp fun _ _ ho => ho.1)
  · rw [htombstones]
    exact forall_of_forall₂ (htombs'.imp fun _ _ ho => ho.1)
  · have := (hg₁.trans hg).rings.length_le
    dsimp only
    omega
  · unfold objects
    rw [hpointers]
    intro o ho hp
    have hle := forall_of_forall₂ (hobjects.imp fun _ _ ho => ho.2.2) o ho h.rings.length hp
    omega

/-- The copies of a snapshot: new, and showing what the tenants show. -/
theorem cloneTenants_spec (h : Heap) (os : List TenantObject) (hos : ∀ o ∈ os, o.In h) :
    Grown h (h.cloneTenants os).1 ∧ (h.cloneTenants os).1.rings = h.rings ∧
      Forall₂ (fun c o => c.1.New h ∧ c.1.In (h.cloneTenants os).1 ∧
        (h.cloneTenants os).1.entryOf c.1 = (h.tenantOf o).entry ∧ h.tenants.length ≤ c.2 ∧
          ∃ x, (h.cloneTenants os).1.tenants[c.2]? = some x ∧ x.activeKID = o.activeKID ∧ x.ring = o.ring)
            (h.cloneTenants os).2 os := by
  induction os generalizing h with
  | nil => exact ⟨Grown.refl h, rfl, .nil⟩
  | cons o rest ih =>
    obtain ⟨ho, hrest⟩ := forall_mem_cons.mp hos
    rw [cloneTenants]
    generalize ht : ({ h.tenantOf o with tenantSection := {}, sealWith := none } : Tenant) = t
    have hg₁ := allocTenant_grown h t o.ring
    have hin := allocTenant_in h t ho.ring
    have hview := tenantOf_allocTenant h t o.ring
    have hmem := allocTenant_mem h t o.ring
    have hnew : (h.allocTenant t o.ring).2.New h := allocArrays_new ..
    have hrings : (h.allocTenant t o.ring).1.rings = h.rings := rfl
    have hactive : (h.allocTenant t o.ring).2.activeKID = o.activeKID := by
      rw [← ht]
      rfl
    have hring : (h.allocTenant t o.ring).2.ring = o.ring := rfl
    obtain ⟨hg₂, hr₂, hall⟩ := ih (h.allocTenant t o.ring).1 fun x hx => hg₁.tenant_in (hrest x hx)
    generalize h.allocTenant t o.ring = made at *
    obtain ⟨h₁, c⟩ := made
    refine ⟨hg₁.trans hg₂, hr₂.trans hrings, .cons ⟨hnew, ?_, ?_, le_rfl, ?_⟩ ?_⟩
    · exact hg₂.arrays_in hin.toIn
    · rw [entryOf_grown hg₂ hin.toIn]
      have hentry : h₁.entryOf ⟨c.toArrays, c.name, c.activeKID⟩ = (h₁.tenantOf c).entry := rfl
      rw [hentry, hview, ← ht]
      rfl
    · exact ⟨c, getElem?_grown hg₂.tenants hmem, hactive, hring⟩
    · have hknown : Forall₂ _ _ _ := ((forall₂_and_left _ _).mpr ⟨hrest, hall.flip⟩).flip
      refine hknown.imp fun d x hx => ?_
      obtain ⟨hxin, hxnew, hdin, hentry, hle, hobj⟩ := hx
      refine ⟨hg₁.arrays_new hxnew, hdin, ?_, hg₁.tenants.length_le.trans hle, hobj⟩
      rw [hentry, tenantOf_grown hg₁ hxin]

theorem allocTombstones_keeps (h : Heap) (ts : List Tombstone) :
    (h.allocTombstones ts).1.tenants = h.tenants ∧ (h.allocTombstones ts).1.pointers = h.pointers ∧
      (h.allocTombstones ts).1.tombstones = h.tombstones ∧ (h.allocTombstones ts).1.rings = h.rings := by
  induction ts generalizing h with
  | nil => exact ⟨rfl, rfl, rfl, rfl⟩
  | cons t rest ih => exact ih (h.allocTombstone t).1

theorem cloneTenants_keeps (h : Heap) (os : List TenantObject) :
    (h.cloneTenants os).1.pointers = h.pointers ∧ (h.cloneTenants os).1.tombstones = h.tombstones := by
  induction os generalizing h with
  | nil => exact ⟨rfl, rfl⟩
  | cons o rest ih =>
    exact ih _

theorem objects_grown (g : Grown h h') (hp : h'.pointers = h.pointers)
    (hv : ∀ i ∈ Arena.read h.pointers f.tenants, i < h.tenants.length) : h'.objects f = h.objects f := by
  unfold objects
  rw [hp]
  refine filterMap_congr fun i hi => ?_
  obtain ⟨new, hnew⟩ := g.tenants
  rw [← hnew, getElem?_append_left (hv i hi)]

/-! ## What a file may write -/

/-- The tenants a file reaches. -/
def OwnsTenant (h : Heap) (f : FileObject) (i : Nat) : Prop := i ∈ Arena.read h.pointers f.tenants

/-- The arrays of its tenants and tombstones. -/
def arrays (h : Heap) (f : FileObject) : List Arrays :=
  (h.objects f).map (·.toArrays) ++ (Arena.read h.tombstones f.tombstones).map (·.toArrays)

/-- The arrays of strings a file reaches. -/
def OwnsStrings (h : Heap) (f : FileObject) (a : Nat) : Prop :=
  ∃ x ∈ h.arrays f, a = x.buckets.addr ∨ a = x.kids.addr

/-- The arrays of locks a file reaches. -/
def OwnsLocks (h : Heap) (f : FileObject) (a : Nat) : Prop := ∃ x ∈ h.arrays f, a = x.locks.addr

/-- Arrays that are in the heap, and that the file does not reach. -/
structure Free (h : Heap) (f : FileObject) (x : Arrays) : Prop extends x.In h where
  buckets_free : ¬ h.OwnsStrings f x.buckets.addr
  kids_free : ¬ h.OwnsStrings f x.kids.addr
  locks_free : ¬ h.OwnsLocks f x.locks.addr

/-- A snapshot beside a file: what it reads is in memory, and the file reaches none of it, but for the
keyrings. -/
structure Beside (h : Heap) (f : FileObject) (s : ServedObject) : Prop where
  entries : ∀ e ∈ s.entries, h.Free f e.toArrays
  tombstones : ∀ e ∈ s.tombstones, h.Free f e.toArrays
  tenants : ∀ row ∈ s.tenants, (∃ o, h.tenants[row.2]? = some o ∧ ∀ p, o.ring = .ok p → p < h.rings.length) ∧
    ¬ h.OwnsTenant f row.2
  byKID : ∀ row ∈ s.byKID, row.2 < h.rings.length
  /-- The default tenant's ring is the file's too, and no tenant's. -/
  default : s.default = f.default ∧ f.default < h.rings.length
  apart : ∀ o ∈ h.objects f, o.ring ≠ .ok f.default

theorem Valid.arrays_in (hv : h.Valid f) : ∀ x ∈ h.arrays f, x.In h := by
  intro x hx
  rcases mem_append.mp hx with hx | hx
  · obtain ⟨o, ho, rfl⟩ := mem_map.mp hx
    exact (hv.tenants o ho).toIn
  · obtain ⟨o, ho, rfl⟩ := mem_map.mp hx
    exact hv.tombstones o ho

/-- What is made while the file stays as it is, the file does not reach. -/
theorem Valid.free (hv : h.Valid f) (hsame : h'.arrays f = h.arrays f) (hnew : x.New h) (hin : x.In h') :
    h'.Free f x := by
  have hstrings : ∀ a, h'.OwnsStrings f a → a < h.strings.length := by
    rintro _ ⟨y, hy, rfl | rfl⟩
    · exact (hv.arrays_in y (hsame ▸ hy)).buckets
    · exact (hv.arrays_in y (hsame ▸ hy)).kids
  refine ⟨hin, fun ho => ?_, fun ho => ?_, ?_⟩
  · exact Nat.not_lt.mpr hnew.buckets (hstrings _ ho)
  · exact Nat.not_lt.mpr hnew.kids (hstrings _ ho)
  · rintro ⟨y, hy, heq⟩
    have := (hv.arrays_in y (hsame ▸ hy)).locks
    have := hnew.locks
    omega

/-- The rows of the map of rings, looked up, are those of the tenants. -/
theorem map_foldl_objectRows (h : Heap) (os : List TenantObject) (rows : List (Bytes × Nat)) :
    (os.foldl (fun rows o => h.objectRows o ++ rows) rows).map (fun row => (row.1, h.ring row.2)) =
      (os.map h.tenantOf).foldl (fun rows t => t.ringRows ++ rows)
        (rows.map fun row => (row.1, h.ring row.2)) := by
  induction os generalizing rows with
  | nil => rfl
  | cons o rest ih =>
    have hrow : (h.objectRows o).map (fun row => (row.1, h.ring row.2)) = (h.tenantOf o).ringRows := by
      unfold objectRows Tenant.ringRows tenantOf
      cases o.ring with
      | error e => rfl
      | ok p =>
        exact map_map
    rw [foldl_cons, ih, map_cons, foldl_cons, map_append, hrow]

theorem mem_foldl_objectRows {os : List TenantObject} (hos : ∀ o ∈ os, o.In h)
    {rows : List (Bytes × Nat)} (hrows : ∀ row ∈ rows, row.2 < h.rings.length) :
    ∀ row ∈ os.foldl (fun rows o => h.objectRows o ++ rows) rows, row.2 < h.rings.length := by
  induction os generalizing rows with
  | nil => exact hrows
  | cons o rest ih =>
    obtain ⟨ho, hrest⟩ := forall_mem_cons.mp hos
    refine ih hrest fun row hrow => ?_
    rcases mem_append.mp hrow with hrow | hrow
    · unfold objectRows at hrow
      cases hr : o.ring with
      | error e =>
        rw [hr] at hrow
        simp at hrow
      | ok p =>
        rw [hr] at hrow
        obtain ⟨kid, _, rfl⟩ := mem_map.mp hrow
        exact ho.ring p hr
    · exact hrows row hrow

/-- **A new snapshot** is what serving the file is, and stands beside the file. -/
theorem newServed_spec (hv : h.Valid f) : (h.newServed f).1.served (h.newServed f).2 = Keys.newServed (h.file f) ∧
      (h.newServed f).1.Beside f (h.newServed f).2 := by
  generalize htombs : (Arena.read h.tombstones f.tombstones).map h.tombstoneOf = tombs
  unfold newServed
  dsimp only
  rw [htombs]
  obtain ⟨hg₁, hts⟩ := allocTombstones_spec h tombs
  obtain ⟨hkt, hkp, hkb, hkr⟩ := allocTombstones_keeps h tombs
  generalize h.allocTombstones tombs = made at hg₁ hts hkt hkp hkb hkr ⊢
  obtain ⟨h₁, ts⟩ := made
  obtain ⟨hg₂, hr₂, hcs⟩ := cloneTenants_spec h₁ (h.objects f) fun o ho => hg₁.tenant_in (hv.tenants o ho)
  obtain ⟨hkp₂, hkb₂⟩ := cloneTenants_keeps h₁ (h.objects f)
  generalize h₁.cloneTenants (h.objects f) = cloned at hg₂ hr₂ hcs hkp₂ hkb₂ ⊢
  obtain ⟨h₂, cs⟩ := cloned
  have hg := hg₁.trans hg₂
  have hrings : h₂.rings = h.rings := hr₂.trans hkr
  have hring : h₂.ring = h.ring := by
    unfold ring
    rw [hrings]
  have hobjects : h₂.objects f = h.objects f := objects_grown hg (hkp₂.trans hkp) hv.pointers
  have hread : Arena.read h₂.tombstones f.tombstones = Arena.read h.tombstones f.tombstones := by
    rw [hkb₂, hkb]
  have hknown : Forall₂ _ _ _ := ((forall₂_and_left _ _).mpr ⟨hv.tenants, hcs.flip⟩).flip
  have harrays : h₂.arrays f = h.arrays f := by
    unfold arrays
    rw [hobjects, hread]
  have htenants : cs.foldl (fun rows c => (c.1.name, c.2) :: rows) [] = (cs.map fun c => (c.1.name, c.2)).reverse := by
    rw [foldl_flip_cons_eq_append, append_nil]
  constructor
  · have hentries : (cs.map Prod.fst).map h₂.entryOf = (h.objects f).map fun o => (h.tenantOf o).entry := by
      rw [map_map]
      refine map_of_forall₂ (hknown.imp fun c o hc => ?_)
      obtain ⟨hin, _, _, hentry, _⟩ := hc
      rw [← tenantOf_grown hg₁ hin]
      exact hentry
    have htombstones : ts.map h₂.tombstoneOf = tombs := by
      have hall : Forall₂ (fun o t => h₂.tombstoneOf o = id t) ts tombs :=
        hts.imp fun o t ho => (tombstoneOf_grown hg₂ ho.2.1).trans ho.2.2
      rw [map_of_forall₂ hall, map_id]
    have hmap : (cs.map fun c => (c.1.name, c.2)).filterMap
        (fun row => (h₂.tenants[row.2]?).map fun o => (row.1, h₂.servedTenant o)) =
          (h.objects f).map fun o => (o.name, (⟨o.activeKID, o.ring.map h.ring⟩ : ServedTenant)) := by
      rw [filterMap_map]
      refine filterMap_eq_map_of_forall₂ (hknown.imp fun c o hc => ?_)
      obtain ⟨_, _, _, hentry, _, x, hx, hactive, hxring⟩ := hc
      have hname : c.1.name = o.name := congrArg DirectoryTenant.name hentry
      rw [Function.comp_apply, hx, Option.map_some, hname]
      unfold servedTenant
      rw [hactive, hxring, hring]
    unfold served Keys.newServed
    congr 1
    · rw [hring]
      rfl
    · unfold File.directory file
      rw [hentries, htombstones, ← htombs, map_map]
      rfl
    · rw [hring, map_foldl_objectRows]
      unfold file ringRows Keys.ringRows
      rw [map_map]
      rfl
    · rw [htenants, filterMap_reverse, hmap]
      unfold file
      rw [foldl_flip_cons_eq_append, append_nil, map_map]
      rfl
  · refine ⟨?_, ?_, ?_, ?_, ?_, ?_⟩
    · intro e he
      obtain ⟨c, hc, rfl⟩ := mem_map.mp he
      exact forall_of_forall₂ (P := fun c : EntryObject × Nat => h₂.Free f c.1.toArrays)
        (hcs.imp fun c _ hc => hv.free harrays (hg₁.arrays_new hc.1) hc.2.1) c hc
    · exact forall_of_forall₂ (hts.imp fun o _ ho => hv.free harrays ho.1 (hg₂.arrays_in ho.2.1))
    · intro row hrow
      rw [htenants, mem_reverse] at hrow
      obtain ⟨c, hc, rfl⟩ := mem_map.mp hrow
      have hobj := forall_of_forall₂ (P := fun c : EntryObject × Nat => h.tenants.length ≤ c.2 ∧
          ∃ x, h₂.tenants[c.2]? = some x ∧ ∀ p, x.ring = .ok p → p < h₂.rings.length)
        (hknown.imp fun c o hc => by
          obtain ⟨hin, _, _, _, hle, x, hx, _, hxring⟩ := hc
          refine ⟨hkt ▸ hle, x, hx, fun p hp => ?_⟩
          rw [hrings]
          exact hin.ring p (hxring ▸ hp)) c hc
      refine ⟨hobj.2, fun ho => Nat.not_lt.mpr hobj.1 (hv.pointers _ ?_)⟩
      unfold OwnsTenant at ho
      rwa [hkp₂, hkp] at ho
    · rw [hrings]
      refine mem_foldl_objectRows hv.tenants fun row hrow => ?_
      obtain ⟨kid, _, rfl⟩ := mem_map.mp hrow
      exact hv.default
    · exact ⟨rfl, hrings ▸ hv.default⟩
    · rw [hobjects]
      exact hv.apart

end Heap

end BlindBucket.Keys
