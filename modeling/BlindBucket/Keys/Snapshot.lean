import BlindBucket.Keys.Aliasing

/-!
# A snapshot does not change

Whatever is done to a file after it is served, the snapshot answers as it did: the operations of the file and
the direct writes to its fields write only what the file reaches.
-/

namespace BlindBucket.Keys

open ByteIo GoText ObjectMeta List

/-! ## What no answer depends on -/

/-- A keyring but for its active key. -/
def Keyring.passive (r : Keyring) : Keyring := { r with active := [] }

/-- A snapshot but for the active keys of its rings, the default tenant's apart. -/
def Served.passive (s : Served) : Served :=
  { s with
    byKID := s.byKID.map fun row => (row.1, row.2.passive)
    tenants := s.tenants.map fun row => (row.1, ⟨row.2.activeKID, row.2.ring.map Keyring.passive⟩) }

theorem Served.ring_passive (s : Served) (kid : Bytes) :
    s.passive.ring kid = (s.ring kid).map Keyring.passive := by
  unfold ring passive
  rw [find?_map]
  have hsame : ((fun row : Bytes × Keyring => decide (row.1 = kid)) ∘
      fun row : Bytes × Keyring => (row.1, row.2.passive)) = fun row => decide (row.1 = kid) := rfl
  rw [hsame]
  cases s.byKID.find? fun row => decide (row.1 = kid) with
  | none => rfl
  | some row => rfl

/-- **No answer depends on the active key of a tenant's ring.** -/
theorem Served.answers_passive (A : Aead wrapTagSize) (H : Hkdf) (s : Served) :
    s.passive.answers A H = s.answers A H := by
  have hfor : s.passive.forBucket = s.forBucket := by
    funext bucket
    unfold forBucket
    have hdir : s.passive.dir = s.dir := rfl
    rw [hdir]
    generalize s.dir.tenant bucket = found
    obtain ⟨name, destroyed⟩ := found
    dsimp only
    have hfind : (s.passive.tenants.find? fun row => row.1 = name) = (s.tenants.find? fun row => row.1 = name).map
          fun row => (row.1, (⟨row.2.activeKID, row.2.ring.map Keyring.passive⟩ : ServedTenant)) := by
      unfold passive
      rw [find?_map]
      rfl
    rw [hfind]
    cases s.tenants.find? fun row => row.1 = name with
    | none => rfl
    | some row =>
      obtain ⟨n, t⟩ := row
      dsimp only [Option.map_some]
      cases t.ring with
      | error e => rfl
      | ok r => rfl
  have hwrap : ∀ nonce kid dek aad, s.passive.wrap A nonce kid dek aad = s.wrap A nonce kid dek aad := by
    intro nonce kid dek aad
    unfold wrap
    rw [ring_passive]
    cases s.ring kid with
    | error e => rfl
    | ok r => rfl
  have hunwrap : ∀ kid wrapped aad, s.passive.unwrap A kid wrapped aad = s.unwrap A kid wrapped aad := by
    intro kid wrapped aad
    unfold unwrap
    rw [ring_passive]
    cases s.ring kid with
    | error e => rfl
    | ok r => rfl
  have htoken : ∀ kid, s.passive.tokenKey H kid = s.tokenKey H kid := by
    intro kid
    unfold tokenKey
    rw [ring_passive]
    cases s.ring kid with
    | error e => rfl
    | ok r => rfl
  unfold answers
  rw [hfor]
  simp only [hwrap, hunwrap, htoken]

/-! ## Changes to a file -/

namespace Heap

variable {h h' : Heap} {f f' : FileObject}

/-- Of the rings only active keys were written, and nothing of the default tenant's. -/
def KeepsRings (h : Heap) (f : FileObject) (h' : Heap) : Prop :=
  h.rings.length ≤ h'.rings.length ∧ ∀ p, p < h.rings.length →
    (h'.ring p).passive = (h.ring p).passive ∧ (p = f.default → h'.ring p = h.ring p)

/-- What a change to a file may do. -/
structure Mutates (h : Heap) (f : FileObject) (h' : Heap) (f' : FileObject) : Prop where
  strings : Arena.Writes (h.OwnsStrings f) h.strings h'.strings
  locks : Arena.Writes (h.OwnsLocks f) h.locks h'.locks
  tenants : Arena.Writes (h.OwnsTenant f) h.tenants h'.tenants
  rings : h.KeepsRings f h'
  default : f'.default = f.default
  /-- What the file reaches now, it reached before, or it is new. -/
  ownsStrings : ∀ a, h'.OwnsStrings f' a → h.OwnsStrings f a ∨ h.strings.length ≤ a
  ownsLocks : ∀ a, h'.OwnsLocks f' a → h.OwnsLocks f a ∨ h.locks.length ≤ a
  ownsTenant : ∀ i, h'.OwnsTenant f' i → h.OwnsTenant f i ∨ h.tenants.length ≤ i
  apart : ∀ o ∈ h'.objects f', o.ring ≠ .ok f.default

theorem Mutates.read (m : Mutates h f h' f') {x : Arrays} (hx : h.Free f x) :
    Arena.read h'.strings x.buckets = Arena.read h.strings x.buckets
      ∧ Arena.read h'.strings x.kids = Arena.read h.strings x.kids
      ∧ Arena.read h'.locks x.locks = Arena.read h.locks x.locks :=
  ⟨m.strings.read hx.buckets hx.buckets_free, m.strings.read hx.kids hx.kids_free,
    m.locks.read hx.locks hx.locks_free⟩

theorem Mutates.free (m : Mutates h f h' f') {x : Arrays} (hx : h.Free f x) : h'.Free f' x where
  buckets := hx.buckets.trans_le m.strings.length
  kids := hx.kids.trans_le m.strings.length
  locks := hx.locks.trans_le m.locks.length
  buckets_free ho := (m.ownsStrings _ ho).elim hx.buckets_free (Nat.not_le.mpr hx.buckets)
  kids_free ho := (m.ownsStrings _ ho).elim hx.kids_free (Nat.not_le.mpr hx.kids)
  locks_free ho := (m.ownsLocks _ ho).elim hx.locks_free (Nat.not_le.mpr hx.locks)

/-- **A snapshot beside the file keeps its answers**, and stays beside it. -/
theorem Mutates.beside {s : ServedObject} (m : Mutates h f h' f') (hs : h.Beside f s) :
    (h'.served s).passive = (h.served s).passive ∧ h'.Beside f' s := by
  have hobject : ∀ row ∈ s.tenants, h'.tenants[row.2]? = h.tenants[row.2]? := by
    intro row hrow
    obtain ⟨⟨o, ho, _⟩, hno⟩ := hs.tenants row hrow
    exact m.tenants.frame _ (List.getElem?_eq_some_iff.mp ho).1 hno
  constructor
  · have hdefault : h'.ring s.default = h.ring s.default := by
      rw [hs.default.1]
      exact (m.rings.2 _ hs.default.2).2 rfl
    have hentries : s.entries.map h'.entryOf = s.entries.map h.entryOf := by
      refine map_congr_left fun e he => ?_
      obtain ⟨hb, hk, hl⟩ := m.read (hs.entries e he)
      unfold entryOf
      rw [hb, hk, hl]
    have htombstones : s.tombstones.map h'.tombstoneOf = s.tombstones.map h.tombstoneOf := by
      refine map_congr_left fun e he => ?_
      obtain ⟨hb, hk, hl⟩ := m.read (hs.tombstones e he)
      unfold tombstoneOf
      rw [hb, hk, hl]
    unfold served Served.passive
    rw [hentries, htombstones]
    congr 1
    · rw [map_map, map_map]
      refine map_congr_left fun row hrow => ?_
      exact congrArg (Prod.mk row.1) (m.rings.2 _ (hs.byKID row hrow)).1
    · rw [map_filterMap, map_filterMap]
      refine filterMap_congr fun row hrow => ?_
      obtain ⟨⟨o, ho, hin⟩, _⟩ := hs.tenants row hrow
      rw [hobject row hrow, ho]
      -- the object is the same, and its ring is but for the active key
      unfold servedTenant
      cases hr : o.ring with
      | error e => simp [hr, Except.map]
      | ok p => simp [hr, Except.map, (m.rings.2 p (hin p hr)).1]
  · refine ⟨fun e he => m.free (hs.entries e he), fun e he => m.free (hs.tombstones e he), ?_, ?_, ?_, ?_⟩
    · intro row hrow
      obtain ⟨⟨o, ho, hin⟩, hno⟩ := hs.tenants row hrow
      refine ⟨⟨o, (hobject row hrow).trans ho, fun p hp => Nat.lt_of_lt_of_le (hin p hp) m.rings.1⟩, ?_⟩
      intro hown
      rcases m.ownsTenant _ hown with hown | hle
      · exact hno hown
      · exact absurd (List.getElem?_eq_some_iff.mp ho).1 (Nat.not_lt.mpr hle)
    · intro row hrow
      exact Nat.lt_of_lt_of_le (hs.byKID row hrow) m.rings.1
    · exact ⟨hs.default.1.trans m.default.symm, m.default ▸ hs.default.2.trans_le m.rings.1⟩
    · rw [m.default]
      exact m.apart

/-! ## The operations in memory

Each does in memory what the operation of the file does to its fields, after the same checks. -/

/-- The ring loses its active key, and the tenant goes behind the others. -/
def addTenant (h : Heap) (f : FileObject) (name : Bytes) (buckets : List Bytes) (p : Nat)
    (lock : TenantLock) (spare : List Nat) : Heap × FileObject :=
  let made := { h with rings := h.rings.set p (h.ring p).passive }.allocTenant
    (newTenant name buckets (h.ring p) lock) (.ok p)
  let grown := Arena.append h.pointers f.tenants [h.tenants.length] spare
  ({ made.1 with pointers := grown.1 }, { f with tenants := grown.2 })

/-- `Assign`, which appends to the tenant's own array if that has room. -/
def assign (h : Heap) (i : Nat) (o : TenantObject) (entries spare : List Bytes) : Heap :=
  let grown := Arena.append h.strings o.buckets entries spare
  { h with strings := grown.1, tenants := h.tenants.set i { o with buckets := grown.2 } }

/-- A ring with another active key, if there is one. -/
def setRingActive (h : Heap) (ring : Try Nat) (kid : Bytes) : List Keyring :=
  match ring with
  | .error _ => h.rings
  | .ok p => h.rings.set p { h.ring p with active := kid }

def activate (h : Heap) (i : Nat) (o : TenantObject) (kid : Bytes) : Heap :=
  { h with
    tenants := h.tenants.set i { o with activeKID := kid }
    rings := h.setRingActive o.ring kid }

/-- `Reseal`, which appends to a copy. -/
def reseal (h : Heap) (i : Nat) (o : TenantObject) (lock : TenantLock) : Heap :=
  let locks := Arena.alloc h.locks (Arena.read h.locks o.locks ++ [lock.record])
  { h with
    locks := locks.1
    tenants := h.tenants.set i { o with locks := locks.2, sealWith := lock.sealWith } }

/-- The tombstone has copies, and both lists of the file are new. -/
def destroy (h : Heap) (f : FileObject) (i : Nat) (o : TenantObject) (time : Int) : Heap × FileObject :=
  let tomb := h.allocTombstone (File.tombstoneOf (h.tenantOf o) time)
  let left := Arena.alloc h.pointers ((Arena.read h.pointers f.tenants).filter fun j => j ≠ i)
  let tombs := Arena.alloc h.tombstones (Arena.read h.tombstones f.tombstones ++ [tomb.2])
  ({ tomb.1 with pointers := left.1, tombstones := tombs.1 },
    { f with tenants := left.2, tombstones := tombs.2 })

/-- `s[n] = x` for a slice of strings. -/
def setString (h : Heap) (s : Slice) (n : Nat) (x : Bytes) : Heap :=
  { h with strings := h.strings.set s.addr ((h.strings.getD s.addr []).set n x) }

/-- `s[n] = l` for a slice of locks. -/
def setLock (h : Heap) (s : Slice) (n : Nat) (l : Lock) : Heap :=
  { h with locks := h.locks.set s.addr ((h.locks.getD s.addr []).set n l) }

/-- `t.ActiveKID = kid`. -/
def setActiveKID (h : Heap) (i : Nat) (o : TenantObject) (kid : Bytes) : Heap :=
  { h with tenants := h.tenants.set i { o with activeKID := kid } }

/-- `t.Buckets = entries`, an array that is not the file's. -/
def setBuckets (h : Heap) (i : Nat) (o : TenantObject) (entries : List Bytes) : Heap :=
  let made := Arena.alloc h.strings entries
  { h with strings := made.1, tenants := h.tenants.set i { o with buckets := made.2 } }

/-- A tenant of the file, by its pointer. -/
def Points (h : Heap) (f : FileObject) (i : Nat) (o : TenantObject) : Prop :=
  h.OwnsTenant f i ∧ h.tenants[i]? = some o

/-- What can happen to a file: an operation that is accepted, and a direct write to one of its fields. An
operation that is refused changes nothing. `AddTenant` takes over the ring it is given, which is not the one
the file has for the default tenant. -/
inductive Mutation (h : Heap) (f : FileObject) : Heap → FileObject → Prop where
  | addTenant {name buckets p lock} (spare : List Nat) (hring : p ≠ f.default)
      (hcheck : (h.file f).checkAdd name buckets (h.ring p) = .ok ()) :
      Mutation h f (h.addTenant f name buckets p lock spare).1 (h.addTenant f name buckets p lock spare).2
  | assign {i o entries} (spare : List Bytes) (hi : h.Points f i o)
      (hcheck : (h.file f).checkAssign o.name entries = .ok ()) : Mutation h f (h.assign i o entries spare) f
  | activate {i o kid kid'} (hi : h.Points f i o) (hcheck : (h.file f).checkActivate o.name kid = .ok kid') :
      Mutation h f (h.activate i o kid') f
  | reseal {i o lock} (hi : h.Points f i o) (hcheck : (h.file f).checkReseal o.name lock = .ok ()) :
      Mutation h f (h.reseal i o lock) f
  | destroy {i o time} (hi : h.Points f i o) : Mutation h f (h.destroy f i o time).1 (h.destroy f i o time).2
  | setBucket {i o} (n : Nat) (e : Bytes) (hi : h.Points f i o) : Mutation h f (h.setString o.buckets n e) f
  | setKID {i o} (n : Nat) (kid : Bytes) (hi : h.Points f i o) : Mutation h f (h.setString o.kids n kid) f
  | setLock {i o} (n : Nat) (l : Lock) (hi : h.Points f i o) : Mutation h f (h.setLock o.locks n l) f
  | setActiveKID {i o} (kid : Bytes) (hi : h.Points f i o) : Mutation h f (h.setActiveKID i o kid) f
  | setBuckets {i o} (entries : List Bytes) (hi : h.Points f i o) : Mutation h f (h.setBuckets i o entries) f
  /-- `f.Tenants = f.Tenants[:n]`. -/
  | dropTenants (n : Nat) (hn : n ≤ f.tenants.len) : Mutation h f h { f with tenants := ⟨f.tenants.addr, n⟩ }

/-! ## Each change writes only what the file reaches -/

theorem mem_objects {o : TenantObject} : o ∈ h.objects f ↔ ∃ i, h.Points f i o := by
  unfold objects Points OwnsTenant
  rw [mem_filterMap]

/-- Arrays that the file reached, or that are new. -/
structure Reached (h : Heap) (f : FileObject) (x : Arrays) : Prop where
  buckets : h.OwnsStrings f x.buckets.addr ∨ h.strings.length ≤ x.buckets.addr
  kids : h.OwnsStrings f x.kids.addr ∨ h.strings.length ≤ x.kids.addr
  locks : h.OwnsLocks f x.locks.addr ∨ h.locks.length ≤ x.locks.addr

theorem tenant_arrays {o : TenantObject} (ho : o ∈ h.objects f) : o.toArrays ∈ h.arrays f :=
  mem_append_left _ (mem_map_of_mem ho)

theorem tombstone_arrays {o : TombstoneObject} (ho : o ∈ Arena.read h.tombstones f.tombstones) :
    o.toArrays ∈ h.arrays f := mem_append_right _ (mem_map_of_mem ho)

theorem reached_of_mem {x : Arrays} (hx : x ∈ h.arrays f) : h.Reached f x :=
  ⟨.inl ⟨x, hx, .inl rfl⟩, .inl ⟨x, hx, .inr rfl⟩, .inl ⟨x, hx, rfl⟩⟩

theorem rings_same (hr : h'.rings = h.rings) : h.KeepsRings f h' := by
  have hring : h'.ring = h.ring := by
    unfold ring
    rw [hr]
  unfold KeepsRings
  rw [hring, hr]
  exact ⟨le_rfl, fun p _ => ⟨rfl, fun _ => rfl⟩⟩

/-- The active key of one ring was written, not of the default tenant's. -/
theorem rings_set {p : Nat} (hp : p ≠ f.default) {r : Keyring} (hr : r.passive = (h.ring p).passive)
    (hrings : h'.rings = h.rings.set p r) : h.KeepsRings f h' := by
  refine ⟨by rw [hrings, length_set], fun q hq => ?_⟩
  have hother : p ≠ q → h'.ring q = h.ring q := by
    intro hne
    unfold ring
    rw [hrings, getD_eq_getElem?_getD, getD_eq_getElem?_getD, getElem?_set_ne hne]
  by_cases hpq : p = q
  · refine ⟨?_, fun hd => absurd (hpq.trans hd) hp⟩
    have hnew : h'.ring q = r := by
      unfold ring
      rw [hrings, hpq, getD_eq_getElem?_getD, getElem?_set_self hq, Option.getD_some]
    rw [hnew, hr, hpq]
  · exact ⟨by rw [hother hpq], fun _ => hother hpq⟩

/-- It is enough that everything the file reaches afterwards was reached before or is new. -/
theorem mutates_of_reached (hstrings : Arena.Writes (h.OwnsStrings f) h.strings h'.strings)
    (hlocks : Arena.Writes (h.OwnsLocks f) h.locks h'.locks)
    (htenants : Arena.Writes (h.OwnsTenant f) h.tenants h'.tenants) (hrings : h.KeepsRings f h')
    (hdefault : f'.default = f.default)
    (hobjects : ∀ o ∈ h'.objects f', h.Reached f o.toArrays ∧ o.ring ≠ .ok f.default)
    (htombs : ∀ o ∈ Arena.read h'.tombstones f'.tombstones, h.Reached f o.toArrays)
    (hpointers : ∀ i, h'.OwnsTenant f' i → h.OwnsTenant f i ∨ h.tenants.length ≤ i) :
    Mutates h f h' f' := by
  have hall : ∀ x ∈ h'.arrays f', h.Reached f x := by
    intro x hx
    rcases mem_append.mp hx with hx | hx
    · obtain ⟨o, ho, rfl⟩ := mem_map.mp hx
      exact (hobjects o ho).1
    · obtain ⟨o, ho, rfl⟩ := mem_map.mp hx
      exact htombs o ho
  refine ⟨hstrings, hlocks, htenants, hrings, hdefault, ?_, ?_, hpointers, fun o ho => (hobjects o ho).2⟩
  · rintro _ ⟨x, hx, rfl | rfl⟩
    · exact (hall x hx).buckets
    · exact (hall x hx).kids
  · rintro _ ⟨x, hx, rfl⟩
    exact (hall x hx).locks

section

variable (hapart : ∀ o ∈ h.objects f, o.ring ≠ .ok f.default)

include hapart

theorem object_reached {o : TenantObject} (ho : o ∈ h.objects f) :
    h.Reached f o.toArrays ∧ o.ring ≠ .ok f.default := ⟨reached_of_mem (tenant_arrays ho), hapart o ho⟩

/-- The lists of the file stay where they are, and each of its tenants stays or is replaced. -/
theorem mutates_of_objects (hstrings : Arena.Writes (h.OwnsStrings f) h.strings h'.strings)
    (hlocks : Arena.Writes (h.OwnsLocks f) h.locks h'.locks)
    (htenants : Arena.Writes (h.OwnsTenant f) h.tenants h'.tenants) (hrings : h.KeepsRings f h')
    (hpointers : h'.pointers = h.pointers) (htombs : h'.tombstones = h.tombstones)
    (hobjects : ∀ (i : Nat) (o : TenantObject), h'.tenants[i]? = some o → h.tenants[i]? = some o
      ∨ h.Reached f o.toArrays ∧ o.ring ≠ .ok f.default) : Mutates h f h' f := by
  refine mutates_of_reached hstrings hlocks htenants hrings rfl ?_ ?_ ?_
  · intro o ho
    obtain ⟨j, hj, hoj⟩ := mem_objects.mp ho
    unfold OwnsTenant at hj
    rw [hpointers] at hj
    exact (hobjects j o hoj).elim (fun hold => object_reached hapart (mem_objects.mpr ⟨j, hj, hold⟩)) id
  · rw [htombs]
    exact fun o ho => reached_of_mem (tombstone_arrays ho)
  · intro j hj
    unfold OwnsTenant at hj ⊢
    rw [hpointers] at hj
    exact .inl hj

theorem mutates_of_set {i : Nat} {o o' : TenantObject} (hi : h.Points f i o)
    (hstrings : Arena.Writes (h.OwnsStrings f) h.strings h'.strings)
    (hlocks : Arena.Writes (h.OwnsLocks f) h.locks h'.locks)
    (htenants : h'.tenants = h.tenants.set i o') (hrings : h.KeepsRings f h')
    (hpointers : h'.pointers = h.pointers) (htombs : h'.tombstones = h.tombstones)
    (ho' : h.Reached f o'.toArrays) (hring : o'.ring = o.ring) : Mutates h f h' f := by
  refine mutates_of_objects hapart hstrings hlocks (htenants ▸ Arena.Writes.set hi.1 _ _) hrings hpointers
    htombs fun j x hx => ?_
  rw [htenants] at hx
  by_cases hij : i = j
  · rw [← hij, getElem?_set_self (List.getElem?_eq_some_iff.mp hi.2).1] at hx
    cases hx
    exact .inr ⟨ho', hring ▸ hapart o (mem_objects.mpr ⟨i, hi⟩)⟩
  · rw [getElem?_set_ne hij] at hx
    exact .inl hx

theorem addTenant_mutates {name : Bytes} {buckets : List Bytes} {p : Nat} {lock : TenantLock}
    (spare : List Nat) (hp : p ≠ f.default) :
    Mutates h f (h.addTenant f name buckets p lock spare).1 (h.addTenant f name buckets p lock spare).2 := by
  have hread := Arena.read_append h.pointers f.tenants [h.tenants.length] spare
  unfold addTenant allocTenant
  refine mutates_of_reached (Arena.Writes.push _ _ _) (Arena.Writes.push _ _ _) (Arena.Writes.push _ _ _)
    (rings_set (r := (h.ring p).passive) hp rfl rfl) rfl ?_ ?_ ?_
  · intro x hx
    obtain ⟨j, hj, hxj⟩ := mem_objects.mp hx
    rw [getElem?_append] at hxj
    split at hxj
    · -- a tenant that was there is still the one it was
      rename_i hlt
      unfold OwnsTenant at hj
      rw [hread, mem_append, mem_singleton] at hj
      rcases hj with hj | rfl
      · exact object_reached hapart (mem_objects.mpr ⟨j, hj, hxj⟩)
      · exact absurd hlt (Nat.lt_irrefl _)
    · have hx' := mem_singleton.mp (mem_of_getElem? hxj)
      rw [hx']
      exact ⟨⟨.inr le_rfl, .inr (Nat.le_succ _), .inr le_rfl⟩, fun heq => hp (Except.ok.inj heq)⟩
  · exact fun x hx => reached_of_mem (tombstone_arrays hx)
  · intro j hj
    unfold OwnsTenant at hj
    rw [hread, mem_append, mem_singleton] at hj
    rcases hj with hj | rfl
    · exact .inl hj
    · exact .inr le_rfl

theorem destroy_mutates {i : Nat} {o : TenantObject} {time : Int} :
    Mutates h f (h.destroy f i o time).1 (h.destroy f i o time).2 := by
  have hleft := Arena.read_alloc h.pointers ((Arena.read h.pointers f.tenants).filter fun j => j ≠ i)
  obtain ⟨hb, hk, hl⟩ := h.allocArrays_new (h.tenantOf o).buckets (h.tenantOf o).kids (h.tenantOf o).locks
  unfold destroy Arena.alloc
  refine mutates_of_reached (Arena.Writes.push _ _ _) (Arena.Writes.push _ _ _) (Arena.Writes.refl _ _)
    (rings_same rfl) rfl ?_ ?_ ?_
  · intro x hx
    obtain ⟨j, hj, hxj⟩ := mem_objects.mp hx
    unfold OwnsTenant at hj
    rw [hleft] at hj
    exact object_reached hapart (mem_objects.mpr ⟨j, (mem_filter.mp hj).1, hxj⟩)
  · intro x hx
    rw [Arena.read_alloc, mem_append, mem_singleton] at hx
    rcases hx with hx | rfl
    · exact reached_of_mem (tombstone_arrays hx)
    · exact ⟨.inr hb, .inr hk, .inr hl⟩
  · intro j hj
    unfold OwnsTenant at hj
    rw [hleft] at hj
    exact .inl (mem_filter.mp hj).1

/-- **Every change to a file writes only what the file reaches.** -/
theorem Mutation.mutates (m : Mutation h f h' f') : Mutates h f h' f' := by
  -- the arrays of a tenant that the file points at are the file's
  have hmem : ∀ {i o}, h.Points f i o → o.toArrays ∈ h.arrays f :=
    fun hi => tenant_arrays (mem_objects.mpr ⟨_, hi⟩)
  have hwrite : ∀ {h' : Heap}, Arena.Writes (h.OwnsStrings f) h.strings h'.strings →
      Arena.Writes (h.OwnsLocks f) h.locks h'.locks → h'.tenants = h.tenants → h'.rings = h.rings →
      h'.pointers = h.pointers → h'.tombstones = h.tombstones → Mutates h f h' f :=
    fun hs hl ht hr hp hb => mutates_of_objects hapart hs hl (ht ▸ Arena.Writes.refl _ _) (rings_same hr) hp hb
      fun i o ho => .inl (ht ▸ ho)
  cases m with
  | addTenant spare hring _ => exact addTenant_mutates hapart spare hring
  | @assign i o entries spare hi _ =>
    obtain ⟨hb, hk, hl⟩ := reached_of_mem (hmem hi)
    refine mutates_of_set hapart hi (Arena.append_writes ⟨_, hmem hi, .inl rfl⟩ _ _ _) (Arena.Writes.refl _ _)
      rfl (rings_same rfl) rfl rfl ⟨?_, hk, hl⟩ rfl
    rcases Arena.append_addr h.strings o.buckets entries spare with haddr | hle
    · exact haddr ▸ hb
    · exact .inr hle
  | @activate i o kid kid' hi _ =>
    refine mutates_of_set hapart hi (Arena.Writes.refl _ _) (Arena.Writes.refl _ _) rfl ?_ rfl rfl
      (reached_of_mem (x := o.toArrays) (hmem hi)) rfl
    unfold Heap.activate Heap.setRingActive
    cases hr : o.ring with
    | error e => exact rings_same rfl
    | ok p =>
      have hp : p ≠ f.default := fun heq => hapart o (mem_objects.mpr ⟨i, hi⟩) (heq ▸ hr)
      exact rings_set (r := { h.ring p with active := kid' }) hp rfl rfl
  | @reseal i o lock hi _ =>
    obtain ⟨hb, hk, hl⟩ := reached_of_mem (hmem hi)
    exact mutates_of_set hapart hi (Arena.Writes.refl _ _) (Arena.Writes.push _ _ _) rfl (rings_same rfl)
      rfl rfl ⟨hb, hk, .inr le_rfl⟩ rfl
  | destroy hi => exact destroy_mutates hapart
  | setBucket n e hi =>
    exact hwrite (Arena.Writes.set ⟨_, hmem hi, .inl rfl⟩ _ _) (Arena.Writes.refl _ _) rfl rfl rfl rfl
  | setKID n kid hi =>
    exact hwrite (Arena.Writes.set ⟨_, hmem hi, .inr rfl⟩ _ _) (Arena.Writes.refl _ _) rfl rfl rfl rfl
  | setLock n l hi =>
    exact hwrite (Arena.Writes.refl _ _) (Arena.Writes.set ⟨_, hmem hi, rfl⟩ _ _) rfl rfl rfl rfl
  | @setActiveKID i o kid hi =>
    exact mutates_of_set hapart hi (Arena.Writes.refl _ _) (Arena.Writes.refl _ _) rfl (rings_same rfl)
      rfl rfl (reached_of_mem (x := o.toArrays) (hmem hi)) rfl
  | setBuckets entries hi =>
    obtain ⟨hb, hk, hl⟩ := reached_of_mem (hmem hi)
    exact mutates_of_set hapart hi (Arena.Writes.push _ _ _) (Arena.Writes.refl _ _) rfl (rings_same rfl)
      rfl rfl ⟨.inr le_rfl, hk, hl⟩ rfl
  | dropTenants n hn =>
    -- what a shorter slice shows, the longer one showed
    have hsub : ∀ j, h.OwnsTenant { f with tenants := ⟨f.tenants.addr, n⟩ } j → h.OwnsTenant f j :=
      fun j hj => (take_subset_take_left _ hn) hj
    refine mutates_of_reached (Arena.Writes.refl _ _) (Arena.Writes.refl _ _) (Arena.Writes.refl _ _)
      (rings_same rfl) rfl ?_ (fun x hx => reached_of_mem (tombstone_arrays hx))
      (fun j hj => .inl (hsub j hj))
    intro x hx
    obtain ⟨j, hj, hxj⟩ := mem_objects.mp hx
    exact object_reached hapart (mem_objects.mpr ⟨j, hsub j hj, hxj⟩)

end

inductive Mutations (h : Heap) (f : FileObject) : Heap → FileObject → Prop where
  | refl : Mutations h f h f
  | step {h₁ f₁ h₂ f₂} (m : Mutations h f h₁ f₁) (s : Mutation h₁ f₁ h₂ f₂) : Mutations h f h₂ f₂

/-- After any history of changes the snapshot answers as at its beginning. -/
theorem Mutations.answers (A : Aead wrapTagSize) (H : Hkdf) {s : ServedObject} (m : Mutations h f h' f')
    (hs : h.Beside f s) : (h'.served s).answers A H = (h.served s).answers A H ∧ h'.Beside f' s := by
  induction m with
  | refl => exact ⟨rfl, hs⟩
  | step _ s ih =>
    obtain ⟨hsame, hbeside⟩ := ih
    obtain ⟨hpassive, hbeside'⟩ := (s.mutates hbeside.apart).beside hbeside
    refine ⟨?_, hbeside'⟩
    rw [← hsame, ← Served.answers_passive, hpassive, Served.answers_passive]

end Heap

/-- **Serving a keyring fails closed per bucket, and stays as it was.** Whatever the bytes of the file that
was opened, the snapshot gives each bucket the keys of its tenant, or none, with only key ids that can be
used and that one ring holds; and no answer at all changes, whatever is done to the file's tenants after it
was taken. The default tenant's keyring is the file's and the snapshot's in common, and is not changed. -/
theorem served_fails_closed {A : Aead wrapTagSize} (hA : A.Correct) (H : Hkdf) {J : FileCodec} {data rootKey : Bytes}
    {tenantRoot : TenantRoot} {f : File} (hopen : openKeyringFile A J data rootKey tenantRoot = .ok f) (h : Heap)
    {h' : Heap} {f' : FileObject}
    (hm : Heap.Mutations ((h.load f).1.newServed (h.load f).2).1 (h.load f).2 h' f') :
    ((h'.served ((h.load f).1.newServed (h.load f).2).2).answers A H).FailsClosed f
      ∧ (h'.served ((h.load f).1.newServed (h.load f).2).2).answers A H
        = (((h.load f).1.newServed (h.load f).2).1.served ((h.load f).1.newServed (h.load f).2).2).answers A H := by
  have hsound : f.Sound := by
    obtain ⟨_, hopen⟩ := else_ok hopen
    obtain ⟨base, _, hopen⟩ := bind_ok hopen
    exact openFile_sound hopen
  obtain ⟨hfile, hvalid⟩ := h.load_spec f
  obtain ⟨hview, hbeside⟩ := Heap.newServed_spec hvalid
  rw [(hm.answers A H hbeside).1, hview, hfile]
  exact ⟨newServed_failsClosed hA hsound, rfl⟩

/-- Some bytes sealed by `openAead`. -/
def plainlySealed (s : Bytes) : Bytes := List.replicate wrapNonceSize 0 ++ s ++ Aead.zeroTag wrapTagSize

def oneKey : Bytes := List.replicate keySize 1

/-- A directory with a tenant for the buckets `acme-*` and a tombstone for `gone-*`. -/
def acmeDirectory : Directory :=
  ⟨1, [⟨ascii "acme", [ascii "acme-*"], [ascii "k1"], ascii "k1", [{ source := lockDeployment }]⟩],
    [⟨ascii "gone", [ascii "gone-*"], [ascii "k2"], [{ source := lockDeployment }], 0⟩]⟩

def acmeSection : TenantSection :=
  { name := ascii "acme"
    keys := [⟨ascii "k1", none, plainlySealed oneKey⟩]
    nameKey := some (plainlySealed oneKey) }

/-- A codec that reads every file as the one with that directory. -/
def acmeCodec : FileCodec where
  encode64 s := s
  decode64 s := .ok s
  marshalFile _ := .ok []
  marshalV2 _ _ := .ok []
  unmarshalFile _ := .ok ⟨2, ascii "k0", { source := sourcePassphrase }, none,
    [⟨ascii "k0", none, plainlySealed oneKey⟩], none, some (plainlySealed oneKey), none⟩
  unmarshalProbe _ := .ok ⟨0, [], false⟩
  unmarshalV2 _ := .ok ⟨1, plainlySealed [], [acmeSection]⟩
  marshalDirectory _ := .ok []
  unmarshalDirectory _ := .ok acmeDirectory
  auditPublic _ := []

def emptyHeap : Heap := ⟨[], [], [], [], [], []⟩

/-- The file of `acmeCodec` opens, and what is served of it fails closed after the file has lost its
tenants. -/
theorem served_fails_closed_acme : ∃ f, openKeyringFile (Aead.openAead wrapTagSize) acmeCodec [] oneKey none = .ok f ∧
      f.directory = acmeDirectory ∧
        ((((emptyHeap.load f).1.newServed (emptyHeap.load f).2).1.served
          ((emptyHeap.load f).1.newServed (emptyHeap.load f).2).2).answers
            (Aead.openAead wrapTagSize) fun kek _ _ _ => kek).FailsClosed f := by
  have hdir : ((openKeyringFile (Aead.openAead wrapTagSize) acmeCodec [] oneKey none).toOption.map
      File.directory) = some acmeDirectory := by decide +kernel
  cases hopen : openKeyringFile (Aead.openAead wrapTagSize) acmeCodec [] oneKey none with
  | error e =>
    rw [hopen] at hdir
    simp [Except.toOption] at hdir
  | ok f =>
    rw [hopen] at hdir
    refine ⟨f, rfl, Option.some.inj hdir, ?_⟩
    exact (served_fails_closed Aead.openAead_correct _ hopen emptyHeap
      (.step .refl (.dropTenants 0 (Nat.zero_le _)))).1

end BlindBucket.Keys
