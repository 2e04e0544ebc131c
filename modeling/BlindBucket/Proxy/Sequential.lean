import BlindBucket.Proxy.RollbackRace
import Mathlib.Data.Set.Function
import Mathlib.Logic.Function.Basic

/-!
# Requests one after another, on an honest provider

Every request runs to its end before the next one starts, the provider shows what was
written last, and every index write succeeds. Then the index never contradicts the visible
object: an upload is recorded, a copy makes the index forget, and a delete removes the
object before it leaves a tombstone.

`DeleteObjects` is the exception. It leaves a tombstone for every entry that the provider
reports as deleted, also for one that names a version: deleting an old version, or the
newest of several, leaves an object visible, and the next read of it is refused. A quiet
request is not reported entry by entry, so it leaves no tombstone; but when it deletes the
newest of several versions, the older one is read against the tag of the newer.
-/

namespace BlindBucket

open BlindBucket.Stream BlindBucket.Freshness List

/-- A bucket and a key in it, as the client names it. -/
abbrev ObjKey := Bytes × Bytes

/-- An object, by the salts that identify the write: its segment's, or those of its manifest. -/
structure Stored where
  salts : List Salt
  manifest : Option Manifest.ID
deriving DecidableEq

/-- One version of an object, or a delete marker. -/
structure Version where
  id : Nat
  object : Option Stored
deriving DecidableEq

/-- The gateway and its provider. -/
structure Site where
  versioned : Bytes → Bool
  /-- The versions of every key, newest first. -/
  versions : ObjKey → List Version
  nextVersion : Nat
  fresh : Option Local
  /-- What reads of an object were answered: the rollback error, or none. -/
  answers : List (Option Msg)

variable {k k' : ObjKey} {tag : Tag} {l' : Local}

namespace Site

/-! ## The provider -/

/-- What a `GET` or `HEAD` of a key finds. -/
def visible (s : Site) (k : ObjKey) : Option Stored := (s.versions k).head?.bind Version.object

/-- A write: a new version, or in a bucket without versions the only one. -/
def publish (s : Site) (k : ObjKey) (o : Stored) : Site :=
  { s with
    versions := Function.update s.versions k
      (if s.versioned k.1 then ⟨s.nextVersion, some o⟩ :: s.versions k else [⟨0, some o⟩])
    nextVersion := s.nextVersion + 1 }

/-- A delete without a version id: a delete marker, or no version at all. -/
def remove (s : Site) (k : ObjKey) : Site :=
  { s with
    versions := Function.update s.versions k
      (if s.versioned k.1 then ⟨s.nextVersion, none⟩ :: s.versions k else [])
    nextVersion := s.nextVersion + 1 }

def removeVersion (s : Site) (k : ObjKey) (id : Nat) : Site :=
  { s with versions := Function.update s.versions k ((s.versions k).filter (fun v => v.id ≠ id)) }

/-! ## The gateway -/

/-- One entry of a `DeleteObjects` request. `refused` says that the provider answers it with an
error. -/
structure DeleteSpec where
  key : Bytes
  versionID : Option Nat
  refused : Bool
  t : Clock

inductive Request where
  | putObject (bucket key : Bytes) (salt : Salt) (t : Clock)
  /-- The completion of a multipart upload, with the manifest id of its token and the salts of
  its parts. -/
  | complete (bucket key : Bytes) (id : Manifest.ID) (salts : List Salt) (t : Clock)
  /-- A copy. A manifest gets a new id, and one without salts gets those of the part headers. -/
  | copyObject (src dst : ObjKey) (id : Manifest.ID) (headers : List Salt) (t : Clock)
  | deleteObject (bucket key : Bytes) (t : Clock)
  | deleteObjects (bucket : Bytes) (quiet : Bool) (entries : List DeleteSpec)
  | getObject (bucket key : Bytes) (t : Clock)

variable (D : Digests) (H : Sha256)

def observedManifest (s : Site) (k : ObjKey) : Option Manifest.ID := (s.visible k).bind Stored.manifest

def replacedSince (s : Site) (k : ObjKey) (observed : Manifest.ID) : Bool :=
  match s.visible k with
  | none => true
  | some o => o.manifest ≠ some observed

/-- A completion that step 5 of `completeMultipartUpload` sees discarded. -/
def discarded (s : Site) (k : ObjKey) (id : Manifest.ID) (observed : Option Manifest.ID) : Bool :=
  match observed with
  | none => false
  | some m => m ≠ id ∧ s.replacedSince k m = false

/-- What a copy of `o` is stored as. -/
def copied (o : Stored) (id : Manifest.ID) (headers : List Salt) : Stored :=
  ⟨if o.salts = [] then headers else o.salts, o.manifest.map fun _ => id⟩

/-- One entry of a `DeleteObjects` request, at the provider. -/
def removeEntry (bucket : Bytes) (s : Site) (e : DeleteSpec) : Site :=
  if e.refused then s
  else match e.versionID with
    | none => s.remove (bucket, e.key)
    | some id => s.removeVersion (bucket, e.key) id

/-- What the provider does on a `DeleteObjects` request. -/
def removeAll (s : Site) (bucket : Bytes) (entries : List DeleteSpec) : Site :=
  entries.foldl (removeEntry bucket) s

/-- The entries in the `Deleted` list of the provider's answer. -/
def reported (quiet : Bool) (entries : List DeleteSpec) : List DeleteSpec :=
  if quiet then [] else entries.filter (fun e => !e.refused)

/-- One request, from its first step to its last. -/
def serve (s : Site) : Request → Site
  | .putObject bucket key salt t =>
    { s.publish (bucket, key) ⟨saltsOf salt, none⟩ with
      fresh := recordFreshness D H s.fresh bucket key (saltsOf salt) t }
  | .complete bucket key id salts t =>
    if salts.length = 0 ∨ maxParts < salts.length then s
    else
      let done := s.publish (bucket, key) ⟨salts, some id⟩
      if done.discarded (bucket, key) id (s.observedManifest (bucket, key)) then done
      else { done with fresh := recordFreshness D H s.fresh bucket key salts t }
  | .copyObject src dst id headers t =>
    match s.visible src with
    | none => s
    | some o =>
      { s.publish dst (copied o id headers) with
        fresh := invalidateFreshness D s.fresh dst.1 dst.2 t }
  | .deleteObject bucket key t =>
    { s.remove (bucket, key) with fresh := forgetFreshness D s.fresh bucket key t }
  | .deleteObjects bucket quiet entries =>
    { s.removeAll bucket entries with
      fresh := (reported quiet entries).foldl
        (fun fresh e => forgetFreshness D fresh bucket e.key e.t) s.fresh }
  | .getObject bucket key t =>
    match s.visible (bucket, key) with
    | none => s
    | some o =>
      let checked := checkFreshness D H s.fresh bucket key o.salts t
      { s with fresh := checked.2, answers := checked.1 :: s.answers }

def serveAll (s : Site) (rs : List Request) : Site := rs.foldl (serve D H) s

/-- No read was answered with the rollback error. -/
def Quiet (s : Site) : Prop := ∀ a ∈ s.answers, a = none

def Request.keys : Request → List ObjKey
  | .putObject bucket key _ _ => [(bucket, key)]
  | .complete bucket key _ _ _ => [(bucket, key)]
  | .copyObject src dst _ _ _ => [src, dst]
  | .deleteObject bucket key _ => [(bucket, key)]
  | .deleteObjects bucket _ entries => entries.map fun e => (bucket, e.key)
  | .getObject bucket key _ => [(bucket, key)]

/-- Every entry of a `DeleteObjects` request that the provider carries out leaves no object
visible at its key; in a quiet request it may also leave the one that was visible. -/
def LeavesNothing (s : Site) : Request → Prop
  | .deleteObjects bucket quiet entries =>
    ∀ e ∈ entries, e.refused = false →
      (s.removeAll bucket entries).visible (bucket, e.key) = none ∨
      quiet = true ∧ (s.removeAll bucket entries).visible (bucket, e.key) = s.visible (bucket, e.key)
  | _ => True

/-- Every request of a sequence does so, in the state it finds. -/
def AllLeaveNothing (s : Site) : List Request → Prop
  | [] => True
  | r :: rs => s.LeavesNothing r ∧ (s.serve D H r).AllLeaveNothing rs

/-! ## What the provider shows -/

theorem visible_publish_self (s : Site) (k : ObjKey) (o : Stored) : (s.publish k o).visible k = some o := by
  simp only [visible, publish, Function.update_self]
  split <;> rfl

theorem visible_publish_ne (s : Site) (o : Stored) (h : k' ≠ k) : (s.publish k o).visible k' = s.visible k' := by
  simp only [visible, publish, Function.update_of_ne h]

theorem visible_remove_self (s : Site) (k : ObjKey) : (s.remove k).visible k = none := by
  simp only [visible, remove, Function.update_self]
  split <;> rfl

theorem visible_remove_ne (s : Site) (h : k' ≠ k) : (s.remove k).visible k' = s.visible k' := by
  simp only [visible, remove, Function.update_of_ne h]

theorem visible_removeVersion_ne (s : Site) (id : Nat) (h : k' ≠ k) :
    (s.removeVersion k id).visible k' = s.visible k' := by
  simp only [visible, removeVersion, Function.update_of_ne h]

theorem visible_removeAll_ne {bucket : Bytes} {entries : List DeleteSpec}
    (h : ∀ e ∈ entries, e.refused = false → k ≠ (bucket, e.key)) (s : Site) :
    (s.removeAll bucket entries).visible k = s.visible k := by
  induction entries generalizing s with
  | nil => rfl
  | cons e entries ih =>
    have hrest := ih (fun x hx => h x (mem_cons_of_mem _ hx)) (removeEntry bucket s e)
    refine hrest.trans ?_
    rw [removeEntry]
    split
    · rfl
    next hdone =>
      have hne := h e mem_cons_self (by simpa using hdone)
      split
      · exact visible_remove_ne s hne
      · exact visible_removeVersion_ne s _ hne

end Site

/-! ## What the index knows -/

variable {D : Digests} {H : Sha256} {l : Local}

theorem agrees_push_ne {r : Record} {t : Clock} {h : NameHash} (hne : h ≠ r.name)
    (ha : Agrees (l.m.lookup h) tag) : Agrees ((l.push D r t).m.lookup h) tag := by
  rcases lookup_push_ne hne with heq | ⟨hnone, -⟩
  · rw [heq]
    exact ha
  · rw [hnone]
    exact agrees_none tag

/-- A call on the index for one key: nothing changes, or one record is pushed under its name. -/
def Touches (D : Digests) (k : ObjKey) (l l' : Local) : Prop :=
  l' = l ∨ ∃ r t, r.name = name D k.1 k.2 ∧ l' = l.push D r t

theorem Touches.opened (h : Touches D k l l') (ho : l.closed = false) : l'.closed = false := by
  rcases h with rfl | ⟨r, t, -, rfl⟩
  · exact ho
  · exact (push_closed r t).trans ho

theorem Touches.agrees (h : Touches D k l l') (hne : name D k'.1 k'.2 ≠ name D k.1 k.2)
    (ha : Agrees (l.known D k'.1 k'.2) tag) :
    Agrees (l'.known D k'.1 k'.2) tag := by
  rcases h with rfl | ⟨r, t, hr, rfl⟩
  · exact ha
  · exact agrees_push_ne (hr ▸ hne) ha

theorem record_touches (ho : l.closed = false) (k : ObjKey) {salts : List Salt}
    (htag : tagFromSalts H salts = .ok tag) (t : Clock) :
    ∃ l', recordFreshness D H (some l) k.1 k.2 salts t = some l' ∧ Touches D k l l' ∧
      Agrees (l'.known D k.1 k.2) tag := by
  refine ⟨_, recordFreshness_spec ho k.1 k.2 htag t, .inr ⟨_, t, rfl, rfl⟩, ?_⟩
  rw [known_push]
  exact agrees_present tag t.record

theorem forget_touches (ho : l.closed = false) (k : ObjKey) (t : Clock) :
    ∃ l', forgetFreshness D (some l) k.1 k.2 t = some l' ∧ Touches D k l l' := by
  refine ⟨(l.forget D k.1 k.2 t).2, rfl, .inr ⟨⟨name D k.1 k.2, zeroTag, kindTombstone, t.record⟩, t, rfl, ?_⟩⟩
  unfold Local.forget
  rw [if_neg (by simp [ho]), appendLocked_eq_push kindTombstone_valid]

theorem invalidate_touches (ho : l.closed = false) (k : ObjKey) (t : Clock) :
    ∃ l', invalidateFreshness D (some l) k.1 k.2 t = some l' ∧ Touches D k l l' ∧
      l'.known D k.1 k.2 = none := by
  refine ⟨(l.invalidate D k.1 k.2 t).2, rfl, ?_⟩
  unfold Local.invalidate
  rw [if_neg (by simp [ho])]
  cases hk : l.m.lookup (name D k.1 k.2) with
  | none => exact ⟨.inl rfl, hk⟩
  | some e =>
    have hgone : (applyRecord l.m ⟨name D k.1 k.2, zeroTag, kindInvalid, t.record⟩).lookup (name D k.1 k.2) = none := by
      rw [lookup_applyRecord, if_pos rfl, if_pos rfl]
    have hpush : Local.maintainLocked D (Local.writeRecordLocked D { l with m := l.m.erase (name D k.1 k.2) }
        ⟨name D k.1 k.2, zeroTag, kindInvalid, t.record⟩) t
        = l.push D ⟨name D k.1 k.2, zeroTag, kindInvalid, t.record⟩ t := by
      rfl
    dsimp only
    rw [hpush]
    refine ⟨.inr ⟨_, t, rfl, rfl⟩, ?_⟩
    rcases lookup_push_cases l ⟨name D k.1 k.2, zeroTag, kindInvalid, t.record⟩ t
      (name D k.1 k.2) with heq | ⟨hnone, -⟩
    · exact heq.trans hgone
    · exact hnone

theorem tagFromSalts_isOk {salts : List Salt} (h : ¬ (salts.length = 0 ∨ maxParts < salts.length)) :
    ∃ tag, tagFromSalts H salts = .ok tag := by
  have hlimit : ¬ maxTagParts < salts.length := fun hlt => h (.inr hlt)
  rw [tagFromSalts, if_neg (fun h0 => h (.inl h0)), if_neg hlimit]
  exact ⟨_, rfl⟩

theorem check_touches (ho : l.closed = false) (k : ObjKey) (salts : List Salt) (t : Clock)
    (hagree : ∀ tag, tagFromSalts H salts = .ok tag → Agrees (l.known D k.1 k.2) tag) :
    ∃ l', checkFreshness D H (some l) k.1 k.2 salts t = (none, some l') ∧ Touches D k l l' ∧
      ∀ tag, tagFromSalts H salts = .ok tag → Agrees (l'.known D k.1 k.2) tag := by
  cases htag : tagFromSalts H salts with
  | error err =>
    refine ⟨l, ?_, .inl rfl, fun tag h => absurd h (by simp)⟩
    rw [checkFreshness, htag]
    exact ite_self _
  | ok tag =>
    obtain ⟨hanswer, hindex⟩ := checkFreshness_spec ho k.1 k.2 htag t
    have hpass := hanswer.mpr (hagree tag htag)
    cases hk : l.known D k.1 k.2 with
    | none =>
      rw [hk] at hindex
      refine ⟨_, Prod.ext hpass hindex, .inr ⟨_, t, rfl, rfl⟩, ?_⟩
      intro tag' h'
      obtain rfl : tag = tag' := Except.ok.inj h'
      rw [known_push]
      exact agrees_present tag t.record
    | some e =>
      rw [hk] at hindex
      refine ⟨l, Prod.ext hpass hindex, .inl rfl, ?_⟩
      intro tag' h'
      obtain rfl : tag = tag' := Except.ok.inj h'
      exact hagree tag htag

/-! ## The invariant -/

namespace Site

/-- The index is open and contradicts no visible object at a key of `K`. -/
structure Inv (D : Digests) (H : Sha256) (K : Set ObjKey) (s : Site) (l : Local) : Prop where
  index : s.fresh = some l
  opened : l.closed = false
  agrees : ∀ k ∈ K, ∀ o, s.visible k = some o → ∀ tag, tagFromSalts H o.salts = .ok tag →
    Agrees (l.known D k.1 k.2) tag
  quiet : s.Quiet

section Step

variable {K : Set ObjKey} {s : Site} {l : Local}

/-- A request that changes what is visible at one key and tells the index about it. -/
theorem Inv.update (hi : s.Inv D H K l) (hinj : Set.InjOn (fun k : ObjKey => name D k.1 k.2) K) (hk : k ∈ K) {s' : Site}
    (hfresh : s'.fresh = some l') (htouch : Touches D k l l') (hother : ∀ k', k' ≠ k → s'.visible k' = s.visible k') (hself : ∀ o, s'.visible k = some o → ∀ tag, tagFromSalts H o.salts = .ok tag →
      Agrees (l'.known D k.1 k.2) tag)
    (hquiet : s'.Quiet) : s'.Inv D H K l' where
  index := hfresh
  opened := htouch.opened hi.opened
  agrees := by
    intro k' hk' o ho tag htag
    by_cases heq : k' = k
    · subst heq
      exact hself o ho tag htag
    · have hname : name D k'.1 k'.2 ≠ name D k.1 k.2 := fun h => heq (hinj hk' hk h)
      exact htouch.agrees hname (hi.agrees k' hk' o (hother k' heq ▸ ho) tag htag)
  quiet := hquiet

/-- A completion on an honest provider is not discarded: the object shows its own manifest. -/
theorem discarded_publish (s : Site) (k : ObjKey) (id : Manifest.ID) (salts : List Salt)
    (observed : Option Manifest.ID) :
    (s.publish k ⟨salts, some id⟩).discarded k id observed = false := by
  cases observed with
  | none => rfl
  | some m =>
    have hreplaced : (s.publish k ⟨salts, some id⟩).replacedSince k m = decide (some id ≠ some m) := by
      rw [replacedSince, visible_publish_self]
    rw [discarded, hreplaced]
    simp only [decide_eq_false_iff_not, not_and]
    intro hne
    simp [Ne.symm hne]

theorem forget_all (bucket : Bytes) (entries : List DeleteSpec) (ho : l.closed = false) :
    ∃ l', entries.foldl (fun fresh e => forgetFreshness D fresh bucket e.key e.t) (some l) = some l' ∧
      l'.closed = false ∧
      ∀ k : ObjKey, (∀ e ∈ entries, name D k.1 k.2 ≠ name D bucket e.key) → ∀ tag,
        Agrees (l.known D k.1 k.2) tag → Agrees (l'.known D k.1 k.2) tag := by
  induction entries generalizing l with
  | nil => exact ⟨l, rfl, ho, fun _ _ _ h => h⟩
  | cons e entries ih =>
    obtain ⟨l₁, hl₁, htouch⟩ := forget_touches ho (bucket, e.key) e.t
    obtain ⟨l₂, hl₂, hopen, hkeep⟩ := ih (htouch.opened ho)
    refine ⟨l₂, ?_, hopen, ?_⟩
    · rw [foldl_cons]
      exact hl₁ ▸ hl₂
    · intro k hne tag ha
      refine hkeep k (fun x hx => hne x (mem_cons_of_mem _ hx)) tag ?_
      exact htouch.agrees (hne e mem_cons_self) ha

theorem removeAll_answers (entries : List DeleteSpec) (bucket : Bytes) (s : Site) :
    (s.removeAll bucket entries).answers = s.answers := by
  induction entries generalizing s with
  | nil => rfl
  | cons e entries ih =>
    refine (ih (removeEntry bucket s e)).trans ?_
    rw [removeEntry]
    split
    · rfl
    · split <;> rfl

theorem inv_deleteObjects (hi : s.Inv D H K l)
    (hinj : Set.InjOn (fun k : ObjKey => name D k.1 k.2) K) (bucket : Bytes) (quiet : Bool)
    (entries : List DeleteSpec) (hkeys : ∀ e ∈ entries, (bucket, e.key) ∈ K)
    (hleave : s.LeavesNothing (.deleteObjects bucket quiet entries)) :
    ∃ l', (s.serve D H (.deleteObjects bucket quiet entries)).Inv D H K l' := by
  obtain ⟨l', hl', hopen, hkeep⟩ := forget_all bucket
    (reported quiet entries) hi.opened
  have hreported : ∀ e ∈ reported quiet entries, quiet = false ∧ e ∈ entries ∧ e.refused = false := by
    intro e he
    rw [reported] at he
    split at he
    · simp at he
    next hq =>
      simpa [hq] using he
  refine ⟨l', ?_, hopen, ?_, ?_⟩
  · rw [serve, hi.index]
    exact hl'
  · intro k hk o ho tag htag
    replace ho : (s.removeAll bucket entries).visible k = some o := ho
    by_cases hacts : ∃ e ∈ entries, e.refused = false ∧ k = (bucket, e.key)
    · -- a key some entry acted on shows nothing, or what it showed and no tombstone was written
      obtain ⟨e, he, hdone, rfl⟩ := hacts
      rcases hleave e he hdone with hnone | ⟨hquiet, hsame⟩
      · rw [hnone] at ho
        simp at ho
      · refine hkeep _ ?_ tag (hi.agrees _ hk o (hsame ▸ ho) tag htag)
        intro x hx
        exact absurd (hreported x hx).1 (by simp [hquiet])
    · have hsame : (s.removeAll bucket entries).visible k = s.visible k := by
        refine visible_removeAll_ne ?_ s
        intro e he hdone heq
        exact hacts ⟨e, he, hdone, heq⟩
      refine hkeep k ?_ tag (hi.agrees k hk o (hsame ▸ ho) tag htag)
      intro e he hname
      obtain ⟨-, hmem, hdone⟩ := hreported e he
      exact hacts ⟨e, hmem, hdone, hinj hk (hkeys e hmem) hname⟩
  · intro a ha
    refine hi.quiet a ?_
    rwa [serve, show Site.answers _ = (s.removeAll bucket entries).answers from rfl,
      removeAll_answers] at ha

/-- **One request keeps the index in step with the provider.** -/
theorem inv_serve (hi : s.Inv D H K l) (hinj : Set.InjOn (fun k : ObjKey => name D k.1 k.2) K) {r : Request}
    (hkeys : ∀ k ∈ r.keys, k ∈ K) (hleave : s.LeavesNothing r) :
    ∃ l', (s.serve D H r).Inv D H K l' := by
  cases r with
  | putObject bucket key salt t =>
    obtain ⟨l', hl', htouch, hagree⟩ := record_touches hi.opened (bucket, key)
      (tagFromSalts_saltsOf salt) t
    refine ⟨l', hi.update hinj (hkeys (bucket, key) (by simp [Request.keys])) ?_ htouch ?_ ?_ hi.quiet⟩
    · rw [serve, hi.index]
      exact hl'
    · exact fun k' hne => visible_publish_ne s _ hne
    · intro o ho tag htag
      obtain rfl : _ = o := Option.some.inj ((visible_publish_self s _ _).symm.trans ho)
      rw [tagFromSalts_saltsOf] at htag
      exact Except.ok.inj htag ▸ hagree
  | complete bucket key id salts t =>
    by_cases hparts : salts.length = 0 ∨ maxParts < salts.length
    · rw [serve, if_pos hparts]
      exact ⟨l, hi⟩
    · rw [serve, if_neg hparts]
      dsimp only
      rw [discarded_publish]
      obtain ⟨tag, htag⟩ := tagFromSalts_isOk hparts
      obtain ⟨l', hl', htouch, hagree⟩ := record_touches hi.opened (bucket, key) htag t
      refine ⟨l', hi.update hinj (hkeys (bucket, key) (by simp [Request.keys])) ?_ htouch ?_ ?_ hi.quiet⟩
      · rw [hi.index]
        exact hl'
      · exact fun k' hne => visible_publish_ne s _ hne
      · intro o ho tag' htag'
        obtain rfl : _ = o := Option.some.inj ((visible_publish_self s _ _).symm.trans ho)
        obtain rfl : tag = tag' := Except.ok.inj (htag.symm.trans htag')
        exact hagree
  | copyObject src dst id headers t =>
    rw [serve]
    cases hsrc : s.visible src with
    | none => exact ⟨l, hi⟩
    | some o =>
      obtain ⟨l', hl', htouch, hnone⟩ := invalidate_touches hi.opened dst t
      refine ⟨l', hi.update hinj (hkeys dst (by simp [Request.keys])) ?_ htouch ?_ ?_ hi.quiet⟩
      · rw [hi.index]
        exact hl'
      · exact fun k' hne => visible_publish_ne s _ hne
      · intro o' ho' tag htag
        rw [hnone]
        exact agrees_none tag
  | deleteObject bucket key t =>
    obtain ⟨l', hl', htouch⟩ := forget_touches hi.opened (bucket, key) t
    refine ⟨l', hi.update hinj (hkeys (bucket, key) (by simp [Request.keys])) ?_ htouch ?_ ?_ hi.quiet⟩
    · rw [serve, hi.index]
      exact hl'
    · exact fun k' hne => visible_remove_ne s hne
    · intro o ho
      exact absurd ((visible_remove_self s (bucket, key)).symm.trans ho) (by simp)
  | deleteObjects bucket quiet entries =>
    refine inv_deleteObjects hi hinj bucket quiet entries ?_ hleave
    intro e he
    exact hkeys _ (mem_map.mpr ⟨e, he, rfl⟩)
  | getObject bucket key t =>
    rw [serve]
    have hk : (bucket, key) ∈ K := hkeys (bucket, key) (by simp [Request.keys])
    cases hv : s.visible (bucket, key) with
    | none => exact ⟨l, hi⟩
    | some o =>
      obtain ⟨l', hl', htouch, hagree⟩ := check_touches hi.opened (bucket, key) o.salts t
        (hi.agrees _ hk o hv)
      have hchecked : checkFreshness D H s.fresh bucket key o.salts t = (none, some l') := by
        rw [hi.index]
        exact hl'
      dsimp only
      rw [hchecked]
      refine ⟨l', hi.update hinj hk rfl htouch (fun _ _ => rfl) ?_ ?_⟩
      · intro o' ho' tag htag
        obtain rfl : o = o' := Option.some.inj (hv.symm.trans ho')
        exact hagree tag htag
      · intro a ha
        rcases mem_cons.mp ha with rfl | ha
        · rfl
        · exact hi.quiet a ha

theorem inv_serveAll (hinj : Set.InjOn (fun k : ObjKey => name D k.1 k.2) K) {rs : List Request}
    (hi : s.Inv D H K l) (hkeys : ∀ r ∈ rs, ∀ k ∈ r.keys, k ∈ K)
    (hleave : s.AllLeaveNothing D H rs) : ∃ l', (s.serveAll D H rs).Inv D H K l' := by
  induction rs generalizing s l with
  | nil => exact ⟨l, hi⟩
  | cons r rs ih =>
    obtain ⟨l₁, hi₁⟩ := inv_serve hi hinj (hkeys r mem_cons_self) hleave.1
    exact ih hi₁ (fun x hx => hkeys x (mem_cons_of_mem _ hx)) hleave.2

end Step

/-- A gateway whose open index contradicts nothing that is visible, before its first request. -/
structure Start (D : Digests) (H : Sha256) (K : Set ObjKey) (s : Site) : Prop where
  index : ∃ l, s.fresh = some l ∧ l.closed = false ∧
    ∀ k ∈ K, ∀ o, s.visible k = some o → ∀ tag, tagFromSalts H o.salts = .ok tag →
      Agrees (l.known D k.1 k.2) tag
  answers : s.answers = []

theorem start_of_new {K : Set ObjKey} {s : Site} {l : Local} (hfresh : s.fresh = some l)
    (hopen : l.closed = false) (hnew : l.m = ∅) (hanswers : s.answers = []) : s.Start D H K where
  index := by
    refine ⟨l, hfresh, hopen, ?_⟩
    intro k _ o _ tag _
    rw [Freshness.Local.known, hnew]
    exact agrees_none tag
  answers := hanswers

/-- **Requests one after another cause no false rollback**, as long as no `DeleteObjects` entry
leaves another object visible at its key. -/
theorem sequential_no_false_rollback {K : Set ObjKey} {s : Site} {rs : List Request}
    (hstart : s.Start D H K) (hinj : Set.InjOn (fun k : ObjKey => name D k.1 k.2) K)
    (hkeys : ∀ r ∈ rs, ∀ k ∈ r.keys, k ∈ K) (hleave : s.AllLeaveNothing D H rs) :
    (s.serveAll D H rs).Quiet := by
  obtain ⟨l, hindex, hopen, hagree⟩ := hstart.index
  have hquiet : s.Quiet := by
    intro a ha
    rw [hstart.answers] at ha
    simp at ha
  obtain ⟨l', hi⟩ := inv_serveAll hinj ⟨hindex, hopen, hagree, hquiet⟩ hkeys hleave
  exact hi.quiet

/-! ## An old version deleted -/

/-- A provider that keeps versions, with no object yet, and a new index. -/
def emptySite : Site := ⟨fun _ => true, fun _ => [], 0, some padIndex, []⟩

/-- The entry of a `DeleteObjects` request for one version of the key `k`. -/
def versionEntry (id : Nat) : DeleteSpec := ⟨[0x6B], some id, false, someClock⟩

/-- The only version is deleted, and the key is written and read again. -/
theorem sequential_only_version_deleted : (emptySite.serveAll padDigests backHash
      [.putObject [0x62] [0x6B] (saltOf 1) someClock,
        .deleteObjects [0x62] false [versionEntry 0],
        .putObject [0x62] [0x6B] (saltOf 2) someClock,
        .getObject [0x62] [0x6B] someClock]).Quiet := by
  have hstart : emptySite.Start padDigests backHash {([0x62], [0x6B])} :=
    start_of_new rfl rfl rfl rfl
  refine sequential_no_false_rollback hstart (Set.injOn_singleton _ _) ?_ ?_
  · intro r hr k hk
    simp only [mem_cons, not_mem_nil, or_false] at hr
    rcases hr with rfl | rfl | rfl | rfl <;> simpa [Request.keys, versionEntry] using hk
  · refine ⟨trivial, ?_, trivial, trivial, trivial⟩
    intro e he _
    rw [mem_singleton.mp he]
    exact .inl rfl

/-- Two writes of a key, the older version deleted: the newer is visible, and its next read is
answered with the rollback error. -/
theorem sequential_old_version_deleted : (emptySite.serveAll padDigests backHash
      [.putObject [0x62] [0x6B] (saltOf 1) someClock,
        .putObject [0x62] [0x6B] (saltOf 2) someClock,
        .deleteObjects [0x62] false [versionEntry 0],
        .getObject [0x62] [0x6B] someClock]).answers = [some deletedMsg] := by
  decide +kernel

end Site

end BlindBucket
