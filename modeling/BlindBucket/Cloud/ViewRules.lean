import BlindBucket.Cloud.View
import BlindBucket.Lib.Schedule

/-!
# Those who act on one object

Rotations, copies of the object onto itself that replace its metadata, and clients that change its
tags. A rotation republishes what it has seen, so it must not be overtaken: no other version may land
between its `HEAD` and its completion, and no tag may change between its read of the sidecar and its
completion. A tag request writes under the name that it has seen, so no version may land between its
`HEAD` and its write. Under these conditions only copies and changes of tags change what is seen.
-/

namespace BlindBucket.Cloud

open BlindBucket.Stream ObjectMeta Service

/-! ## Requests and events -/

/-- A request that can make a version visible at `l`. -/
def Req.lands (l : Loc) : Req → Bool
  | .copy _ dst _ _ _ => decide (dst = l)
  | .complete l' _ _ _ => decide (l' = l)
  | _ => false

/-- A request that can change a sidecar at `l`. -/
def Req.setsSidecar (l : Loc) : Req → Bool
  | .putSidecar l' _ _ => decide (l' = l)
  | .deleteSidecar l' _ => decide (l' = l)
  | _ => false

/-- A request that changes no version, no sidecar and no name. -/
def Req.calm : Req → Bool
  | .put .. | .copy .. | .delete _ | .createUpload .. | .complete .. | .putSidecar .. | .deleteSidecar .. =>
    false
  | _ => true

def Job.publishes : Job → Bool
  | .rotate _ => true
  | .copy _ => true
  | _ => false

variable {j : Job} {K : CloudWorld → Prop} {n : Bytes}

theorem Job.publishes_isTag (h : j.publishes = true) : j.isTag = false := by
  cases j with
  | tag bucket key ops => simp [Job.publishes] at h
  | _ => rfl

theorem Job.publishes_isCreate (h : j.publishes = true) : j.isCreate = false := by
  cases j with
  | create r => simp [Job.publishes] at h
  | _ => rfl

def Job.isRotate : Job → Bool
  | .rotate _ => true
  | _ => false

def Job.isCopy : Job → Bool
  | .copy _ => true
  | _ => false

def acked (e : Event Req Answer) : Bool :=
  match e.a with
  | .ok _ => true
  | .error _ => false

def headOf (i : Nat) (l : Loc) (e : Event Req Answer) : Bool :=
  match e.q with
  | .head l' => decide (e.who = i ∧ l' = l)
  | _ => false

def sidecarReadOf (i : Nat) (l : Loc) (e : Event Req Answer) : Bool :=
  match e.q with
  | .getSidecar l' _ => decide (e.who = i ∧ l' = l)
  | _ => false

section

variable (job : Nat → Job)

/-- A version was published, and acknowledged. -/
def published (l : Loc) (e : Event Req Answer) : Bool :=
  (job e.who).publishes && e.q.lands l && acked e

/-- Tags were changed, and that was acknowledged. -/
def tagged (l : Loc) (e : Event Req Answer) : Bool :=
  (job e.who).isTag && e.q.setsSidecar l && acked e

end

variable {G : Site} (T : Target G) (job : Nat → Job)

/-- Since the `HEAD` of program `i`, another has published a version. -/
def Overtaken (i : Nat) (w : CloudWorld) : Prop :=
  w.Since (fun e => headOf i T.loc e) (fun _ => False) fun e => e.who ≠ i ∧ published job T.loc e

/-- Since program `i` has read the sidecar, tags were changed. -/
def Retagged (i : Nat) (w : CloudWorld) : Prop :=
  w.Since (fun e => sidecarReadOf i T.loc e) (fun _ => False) fun e => tagged job T.loc e

/-- Since the last `HEAD` of program `i`, a version was published. -/
def Replaced (i : Nat) (w : CloudWorld) : Prop :=
  w.Since (fun e => headOf i T.loc e) (fun e => headOf i T.loc e) fun e => published job T.loc e

instance (i : Nat) (w : CloudWorld) : Decidable (Overtaken T job i w) :=
  inferInstanceAs (Decidable (w.Since _ _ _))

instance (i : Nat) (w : CloudWorld) : Decidable (Retagged T job i w) :=
  inferInstanceAs (Decidable (w.Since _ _ _))

instance (i : Nat) (w : CloudWorld) : Decidable (Replaced T job i w) :=
  inferInstanceAs (Decidable (w.Since _ _ _))

/-- The visible version has this entity tag. -/
def Bucket.hasETag (s : Bucket) (P : Backend) (l : Loc) (e : Bytes) : Bool :=
  match s.visible.lookup l with
  | some v => decide (P.etag v.stored = e)
  | none => false

/-- A completion under the entity tag of the visible version. -/
def Req.completesOver (P : Backend) (s : Bucket) : Req → Bool
  | .complete l _ _ c => s.hasETag P l c.ifMatch
  | _ => false

/-- A completion that a rotation makes under the entity tag of the visible version comes before any
other program has published a version since the rotation's `HEAD`. -/
def NotOvertaken (i : Nat) (w : CloudWorld) (q : Req) : Prop :=
  (job i).isRotate = true → q.completesOver G.toBackend w.state = true → ¬ Overtaken T job i w

/-- A completion that a rotation makes comes before any tag has changed since the rotation read the
sidecar, and tags are written before a version was published since the `HEAD` of the tag request. -/
def NotRetagged (i : Nat) (w : CloudWorld) (q : Req) : Prop :=
  ((job i).isRotate = true → q.completesOver G.toBackend w.state = true → ¬ Retagged T job i w)
    ∧ ((job i).isTag = true → q.setsSidecar T.loc = true → ¬ Replaced T job i w)

instance (i : Nat) (w : CloudWorld) (q : Req) : Decidable (NotOvertaken T job i w q) :=
  inferInstanceAs (Decidable (_ → _ → ¬ _))

instance (i : Nat) (w : CloudWorld) (q : Req) : Decidable (NotRetagged T job i w q) :=
  inferInstanceAs (Decidable ((_ → _ → ¬ _) ∧ (_ → _ → ¬ _)))

def Acts : Job → Prop
  | .rotate r =>
    r.bucket = T.bucket ∧ r.identity = T.key ∧ r.stored = T.stored ∧ r.allowUnconditional = false
  | .copy r =>
    (r.srcBucket = T.bucket ∧ r.srcKey = T.key) ∧ (r.bucket = T.bucket ∧ r.key = T.key)
      ∧ r.replaced.isSome = true
  | .tag bucket key _ => bucket = T.bucket ∧ key = T.key
  | _ => False

/-! ## The rules -/

/-- The visible version has this name. -/
def SeenAs (n : Bytes) (s : Bucket) : Prop :=
  ∃ v, s.visible.lookup T.loc = some v ∧ storedDEK v.metadata = n

def AskedFor (r : CopyObjectRequest) (vw : View) : Prop :=
  ∃ md hd, r.replaced = some (md, hd) ∧ vw.metadata = md ∧ vw.headers = hd
    ∧ ∀ set, r.tagMode = .replace set → vw.tags = .ok (sortTags set)

/-- Program `i` may let this be seen: a rotation what is seen already, a copy what it was asked for. -/
def MayShow (i : Nat) (w : CloudWorld) (vw : View) : Prop :=
  match job i with
  | .rotate _ => view T w.state = some vw
  | .copy r => AskedFor r vw
  | _ => False

/-- Program `i` may let a version with this metadata and these headers land. -/
def MayLand (i : Nat) (w : CloudWorld) (md : Metadata) (hd : Headers) : Prop :=
  MayShow T job i w (viewOf T md hd (w.state.sidecars.lookup (T.loc, storedDEK md)))

def viewMay (i : Nat) (w : CloudWorld) : Req → Prop
  | .put .. => False
  | .delete _ => False
  | .copy _ _ md hd _ => MayLand T job i w md hd
  | .complete l u _ c => ∀ up, w.state.uploadAt l u = some up → w.state.admits G.toBackend l c = .ok () →
      MayLand T job i w up.metadata up.headers
  | .putSidecar _ n _ => (job i).isTag = true → SeenAs T n w.state
  | .deleteSidecar _ n => (job i).isTag = true ∧ SeenAs T n w.state
  | _ => True

/-- The rules about what is seen, on top of those about wrapped keys. -/
def viewRules : Rules Bucket Req Answer :=
  (wrapRules G.base64 job).over (fun _ => True) (viewMay T job)

abbrev onView {G : Site} (T : Target G) (job : Nat → Job) (lets : Lets) :
    Regime Bucket Req Answer Outcome := ⟨wrapSystem G job lets, viewRules T job⟩

variable {T job} {lets : Lets} {i : Nat}

theorem viewMay_calm {q : Req} (h : q.calm = true) (w : CloudWorld) : viewMay T job i w q := by
  cases q <;> trivial

theorem viewRules_sound : Sound (onView T job lets) :=
  Sound.over wrapRules_sound (fun _ _ _ _ _ _ _ _ _ _ _ => trivial) fun _ _ _ _ _ => trivial

/-! ## What a step changes -/

section

variable {w : CloudWorld} {q : Req} {a : Answer q} {s : Bucket}

/-- A sidecar of the object is changed under a name of the program's own, or by a tag request under the
name of the visible version. -/
theorem sidecar_moves (n : Bytes) (he : w.state.Effect G.toBackend G.base64 q s)
    (hwrap : wrapMay G.base64 job i w q) (hview : viewMay T job i w q) :
    s.sidecars.lookup (T.loc, n) = w.state.sidecars.lookup (T.loc, n)
      ∨ FreshName G.base64 i n w
      ∨ (job i).isTag = true ∧ q.setsSidecar T.loc = true ∧ SeenAs T n w.state := by
  rcases he.sidecar T.loc n with hold | ⟨raw, rfl, rfl⟩ | ⟨rfl, rfl⟩
  · exact .inl hold
  · cases hj : (job i).isTag with
    | true => exact .inr (.inr ⟨rfl, by simp [Req.setsSidecar], hview hj⟩)
    | false =>
      have hwrap : SidecarName G.base64 job i n w := hwrap
      unfold SidecarName at hwrap
      rw [hj] at hwrap
      exact .inr (.inl hwrap)
  · exact .inr (.inr ⟨hview.1, by simp [Req.setsSidecar], hview.2⟩)

theorem visible_moves (he : w.state.Effect G.toBackend G.base64 q s) (hview : viewMay T job i w q) :
    s.visible.lookup T.loc = w.state.visible.lookup T.loc
      ∨ q.lands T.loc = true ∧ s.sidecars = w.state.sidecars
        ∧ ∃ v, s.visible.lookup T.loc = some v ∧ MayLand T job i w v.metadata v.headers := by
  cases hv : s.visible.lookup T.loc with
  | none =>
    rcases he.visible_gone hv with hnone | rfl
    · exact .inl hnone.symm
    · exact absurd hview (fun h => h)
  | some v =>
    rcases he.visible hv with hold | hpub
    · exact .inl hold.symm
    · refine .inr ?_
      cases hpub with
      | put hc hv' => exact absurd hview (fun h => h)
      | copy hsrc hv' =>
        subst hv'
        exact ⟨by simp [Req.lands], rfl, _, rfl, hview⟩
      | finish hup hbs hc hv' =>
        subst hv'
        exact ⟨by simp [Req.lands], rfl, _, rfl, hview _ hup hc⟩

/-- **Only copies and changes of tags change what is seen.** -/
theorem view_moves (hserve : w.state.serve G.toBackend G.base64 q a s)
    (hwrap : wrapMay G.base64 job i w q) (hview : viewMay T job i w q) :
    view T s = view T w.state
      ∨ (∃ r vw, job i = .copy r ∧ q.lands T.loc = true ∧ view T s = some vw ∧ AskedFor r vw)
      ∨ (job i).isTag = true ∧ q.setsSidecar T.loc = true := by
  have he := Bucket.serve_effect hserve
  rcases visible_moves he hview with hsame | ⟨hlands, hside, v, hv, hmay⟩
  · by_cases hs : ∀ v, w.state.visible.lookup T.loc = some v → s.sidecars.lookup (T.loc, storedDEK v.metadata)
          = w.state.sidecars.lookup (T.loc, storedDEK v.metadata)
    · exact .inl (view_congr hsame hs)
    · obtain ⟨v, hs⟩ := not_forall.mp hs
      obtain ⟨hv, hne⟩ := Classical.not_imp.mp hs
      rcases sidecar_moves (storedDEK v.metadata) he hwrap hview with hold | hfresh | ⟨hj, hq, -⟩
      · exact absurd hold hne
      · -- a name of one's own is not the name of what is visible
        obtain ⟨x, -, -, -, hused⟩ := hfresh
        exact absurd (.inl (.inl ⟨T.loc, v, hv, rfl⟩)) hused
      · exact .inr (.inr ⟨hj, hq⟩)
  · have hvw := view_visible hv
    rw [hside] at hvw
    unfold MayLand MayShow at hmay
    split at hmay
    · exact .inl (hvw.trans hmay.symm)
    next r hj =>
      exact .inr (.inl ⟨r, _, hj, hlands, hvw, hmay⟩)
    · exact absurd hmay (fun h => h)

end

/-! ## What a program knows -/

/-- What program `i` knows, and what its own calm requests do not undo either. -/
structure Held (G : Site) (T : Target G) (job : Nat → Job) (lets : Lets) (i : Nat)
    (K : CloudWorld → Prop) : Prop where
  stable : Stable (onView T job lets) i K
  own : ∀ w q a s, q.calm = true → K w → w.state.serve G.toBackend G.base64 q a s → K (w.after i q a s)

theorem Held.and {K' : CloudWorld → Prop} (h : Held G T job lets i K) (h' : Held G T job lets i K') :
    Held G T job lets i fun w => K w ∧ K' w where
  stable := h.stable.and h'.stable
  own w q a s hq hk hserve := ⟨h.own w q a s hq hk.1 hserve, h'.own w q a s hq hk.2 hserve⟩

theorem Held.const {P : Prop} : Held G T job lets i fun _ => P where
  stable := Stable.const
  own _ _ _ _ _ hk _ := hk

theorem Held.keeps (hK : Held G T job lets i K) {α : Type} {p : Call α} (h : p.Asks fun q => q.calm = true) :
    p.Keeps (onView T job lets) i K fun _ => K :=
  h.keeps hK.stable (fun _ w hq _ _ _ => viewMay_calm hq w) fun q a w s hq _ hk _ hserve =>
    hK.own w q a s hq hk hserve

theorem calm_quiet : Quiet fun q => q.calm = true := by
  intro q hq
  cases q <;> first | rfl | exact absurd hq (by simp [Req.quiet, Req.reads])

theorem Bucket.Effect.calm {P : Backend} {E : Base64} {q : Req} {s s' : Bucket} (h : s.Effect P E q s')
    (hq : q.calm = true) : s'.visible = s.visible ∧ s'.sidecars = s.sidecars := by
  cases h <;> first | exact ⟨rfl, rfl⟩ | exact absurd hq (by simp [Req.calm])

/-- The name `n` is the program's own, and its sidecar is as it has to be. -/
def Ready (T : Target G) (i : Nat) (n : Bytes) (P : Option Blob → Prop) (w : CloudWorld) : Prop :=
  FreshName G.base64 i n w ∧ P (w.state.sidecars.lookup (T.loc, n))

/-- The upload `u` is the program's own, its name is used nowhere else, and its sidecar is as it has to
be. -/
structure Pending (T : Target G) (i u : Nat) (md : Metadata) (hd : Headers) (P : Option Blob → Prop)
    (w : CloudWorld) : Prop where
  opened : OpenedWith i u T.loc md hd w
  used : Used (storedDEK md) w
  hidden : ¬ SeenAs T (storedDEK md) w.state
  only : ∀ u' up, w.state.uploads.lookup u' = some up → storedDEK up.metadata = storedDEK md → u' = u
  sidecar : P (w.state.sidecars.lookup (T.loc, storedDEK md))

theorem fresh_owner {w : CloudWorld} {j : Nat} (hw : WrapInv G.base64 w) (hi : FreshName G.base64 i n w)
    (hj : FreshName G.base64 j n w) : i = j := by
  obtain ⟨x, hx, rfl, -⟩ := hi
  obtain ⟨y, hy, he, -⟩ := hj
  rw [← G.base64.encode_inj he] at hy
  exact hw.owner i j x hx hy

theorem SeenAs.used {w : CloudWorld} (h : SeenAs T n w.state) : Used n w := by
  obtain ⟨v, hv, hn⟩ := h
  exact .inl (.inl ⟨T.loc, v, hv, hn⟩)

theorem FreshName.unused {w : CloudWorld} (h : FreshName G.base64 i n w) : ¬ Used n w := by
  obtain ⟨x, -, -, -, hused⟩ := h
  exact hused

theorem ready_held (n : Bytes) (P : Option Blob → Prop) : Held G T job lets i (Ready T i n P) where
  stable := by
    refine ⟨fun j w w' hj hw hk hm => ?_, fun w w' hw hk hd => ?_⟩
    · obtain ⟨q, a, s, hlets, hview, hserve, rfl⟩ := hm
      refine ⟨fresh_others hw.1.2 hk.1 hj hserve hlets.2.2, ?_⟩
      rcases sidecar_moves n (Bucket.serve_effect hserve) hlets.2.2 hview with hold | hfresh | ⟨-, -, hseen⟩
      · exact hold.symm ▸ hk.2
      · exact absurd (fresh_owner hw.1.2 hk.1 hfresh).symm hj
      · exact absurd hseen.used hk.1.unused
    · obtain ⟨s, hs, rfl⟩ := hd
      refine ⟨hk.1.moved hs, ?_⟩
      cases hs with
      | abort u => exact hk.2
      | tick t ht => exact hk.2
  own w q a s hq hk hserve := by
    refine ⟨hk.1.after ?_ hserve, ?_⟩
    · cases q <;> first | rfl | exact absurd hq (by simp [Req.calm])
    · have hside : (w.after i q a s).state.sidecars = w.state.sidecars :=
        ((Bucket.serve_effect hserve).calm hq).2
      rw [hside]
      exact hk.2

/-- The steps that can take a pending upload out of its owner's hands: none of another program. -/
theorem pending_held (hj : (job i).isCreate = false) (u : Nat) (md : Metadata) (hd : Headers)
    (P : Option Blob → Prop) : Held G T job lets i (Pending T i u md hd P) where
  stable := by
    refine ⟨fun j w w' hji hw hk hm => ?_, fun w w' hw hk hd => ?_⟩
    · obtain ⟨q, a, s, hlets, hview, hserve, rfl⟩ := hm
      obtain ⟨⟨-, hup, hupmay⟩, -, hwrap⟩ := hlets
      have he := Bucket.serve_effect hserve
      have hnofresh : ¬ FreshName G.base64 j (storedDEK md) w := fun h => h.unused hk.used
      refine ⟨hk.opened.after _ _ _ _, World.ever_after.mpr (.inl hk.used), ?_, ?_, ?_⟩
      · intro hseen
        obtain ⟨v, hv, hn⟩ := hseen
        rcases he.visible hv with hold | hpub
        · exact hk.hidden ⟨v, hold, hn⟩
        · cases hpub with
          | put hc hv' | copy hsrc hv' =>
            subst hv'
            exact hnofresh (hn ▸ wrapMay_metadata hwrap rfl)
          | finish hat hbs hc hv' =>
            -- the upload that lands has the name, so it is `u`, and `u` is not another's to complete
            subst hv'
            obtain rfl := hk.only _ _ (Bucket.uploadAt_eq.mp hat).1 hn
            rcases hupmay with ⟨l', hopen⟩ | hhanded
            · exact hji (hup.owner j i _ l' T.loc hopen ⟨md, hd, hk.opened⟩)
            · obtain ⟨k, l', hopen, hcreate⟩ := hup.handed _ hhanded
              obtain rfl := hup.owner k i _ l' T.loc hopen ⟨md, hd, hk.opened⟩
              exact absurd (hcreate.symm.trans hj) (by simp)
      · intro u' up' hup' hn
        rcases he.uploads hup' with ⟨up, hup₀, -, hmd, -⟩ | ⟨l, md', hd', rfl, -, hmd, -⟩
        · exact hk.only u' up hup₀ (by rw [hmd]; exact hn)
        · rw [hmd] at hn
          exact absurd (hn ▸ wrapMay_metadata hwrap rfl) hnofresh
      · rcases sidecar_moves (storedDEK md) he hwrap hview with hold | hfresh | ⟨-, -, hseen⟩
        · exact hold.symm ▸ hk.sidecar
        · exact absurd hfresh hnofresh
        · exact absurd hseen hk.hidden
    · obtain ⟨s, hs, rfl⟩ := hd
      obtain ⟨l, u₀, he⟩ := Bucket.drift_effect G.toBackend G.base64 hs
      obtain ⟨hvis, hside⟩ := he.calm rfl
      refine ⟨openedWith_moved.mpr hk.opened, (used_moved hs).mpr hk.used, ?_, ?_, ?_⟩
      · intro hseen
        obtain ⟨v, hv, hn⟩ := hseen
        exact hk.hidden ⟨v, hvis ▸ hv, hn⟩
      · intro u' up' hup' hn
        rcases he.uploads hup' with ⟨up, hup₀, -, hmd, -⟩ | ⟨_, _, _, hq, -⟩
        · exact hk.only u' up hup₀ (by rw [hmd]; exact hn)
        · simp at hq
      · exact hside.symm ▸ hk.sidecar
  own w q a s hq hk hserve := by
    have he := Bucket.serve_effect hserve
    obtain ⟨hvis, hside⟩ := he.calm hq
    refine ⟨hk.opened.after _ _ _ _, World.ever_after.mpr (.inl hk.used), ?_, ?_, ?_⟩
    · intro hseen
      obtain ⟨v, hv, hn⟩ := hseen
      exact hk.hidden ⟨v, hvis ▸ hv, hn⟩
    · intro u' up' hup' hn
      rcases he.uploads hup' with ⟨up, hup₀, -, hmd, -⟩ | ⟨_, _, _, rfl, -⟩
      · exact hk.only u' up hup₀ (by rw [hmd]; exact hn)
      · simp [Req.calm] at hq
    · exact hside.symm ▸ hk.sidecar

end BlindBucket.Cloud
