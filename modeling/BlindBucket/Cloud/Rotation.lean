import BlindBucket.Cloud.Runs
import BlindBucket.Cloud.Yield

/-!
# Rotation

A rotation copies an object onto itself: every part under `If-Match` on the entity tag that its `HEAD`
was answered with, and the completion under the same condition. So it replaces nothing but what it has
read, and nothing at all where the object is gone. It lands nothing in any other way.
-/

namespace BlindBucket.Cloud

open BlindBucket.Stream ObjectMeta Service

/-- A rotation that writes under conditions. -/
def Job.rotation : Job → Bool
  | .rotate r => !r.allowUnconditional
  | _ => false

theorem Job.rotation_background {j : Job} (h : j.rotation = true) : j.background = true := by
  cases j with
  | rotate r => exact h
  | _ => simp [Job.rotation] at h

variable (G : Site) (job : Nat → Job)

/-- All parts that program `i` has copied into `u` it copied under this entity tag. -/
def CopiedUnder (i u : Nat) (e : Bytes) (w : CloudWorld) : Prop :=
  ∀ src dst n range e' a, w.Asked ⟨i, .uploadPartCopy src dst u n range e', a⟩ →
    e' = e

/-- A `HEAD` of program `i` was answered with a version at `l` that has this entity tag. -/
def Saw (i : Nat) (l : Loc) (e : Bytes) (w : CloudWorld) : Prop :=
  ∃ v, w.Asked ⟨i, .head l, .ok (Bucket.infoOf G.toBackend v)⟩ ∧ G.etag v.stored = e

/-- What a rotation may ask for: it publishes only by completing an upload of its own, under the entity
tag that it saw and copied every part under. -/
def rotationMay (i : Nat) (w : CloudWorld) (q : Req) : Prop :=
  (job i).rotation = true →
    match q with
    | .put .. => False
    | .copy .. => False
    | .delete _ => False
    | .uploadPart .. => False
    | .uploadPartCopy _ _ _ _ _ e => e ≠ []
    | .complete l u _ c =>
      Opened i u l w ∧ c.ifMatch ≠ [] ∧ Saw G i l c.ifMatch w ∧ CopiedUnder i u c.ifMatch w
    | _ => True

/-- Every part of a rotation's upload was copied from something with the entity tag asked for. -/
def Slices (w : CloudWorld) : Prop :=
  ∀ i u l up n b, (job i).rotation = true → Opened i u l w → w.state.uploads.lookup u = some up →
    up.parts.lookup n = some b → ∃ src dst n' range e a stored,
      w.Asked ⟨i, .uploadPartCopy src dst u n' range e, a⟩
        ∧ G.etag stored = e ∧ b = Bucket.slice stored.bytes range

/-- The rules about rotations, on top of those about uploads. -/
def rotationRules : Rules Bucket Req Answer := (uploadRules job).over (Slices G job) (rotationMay G job)

abbrev onRotation (G : Site) (job : Nat → Job) (lets : Lets) :
    Regime Bucket Req Answer Outcome := ⟨uploadSystem G job lets, rotationRules G job⟩

theorem rotationRules_quiet (i : Nat) : Quiet fun q => ∀ w, (rotationRules G job).may i w q := by
  intro q hq w _
  cases q <;> trivial

variable {G job} {lets : Lets} {i : Nat}

variable {w : CloudWorld} {q : Req} {a : Answer q} {s : Bucket}

theorem slices_moves (hw : UploadInv job w) (hup : uploadMay job i w q) (hI : Slices G job w)
    (hmay : rotationMay G job i w q) (hserve : w.state.serve G.toBackend G.base64 q a s) :
    Slices G job (w.after i q a s) := by
  intro j u l up' n b hj hopen hup' hb
  have he := Bucket.serve_effect hserve
  have hold : ∀ src dst n' range e a' stored, w.Asked ⟨j, .uploadPartCopy src dst u n' range e, a'⟩
        ∧ G.etag stored = e ∧ b = Bucket.slice stored.bytes range →
      ∃ src dst n' range e a' stored,
        (w.after i q a s).Asked ⟨j, .uploadPartCopy src dst u n' range e, a'⟩
          ∧ G.etag stored = e ∧ b = Bucket.slice stored.bytes range :=
    fun src dst n' range e a' stored h =>
      ⟨src, dst, n', range, e, a', stored, h.1.after, h.2⟩
  have hb' := Job.rotation_background hj
  have hopened : (∃ l, Opened j u l w) ∨ ∃ l md hd, q = .createUpload l md hd ∧ u = w.state.clock := by
    obtain ⟨md, hd, ho⟩ := hopen
    rcases World.asked_after.mp ho with ho | ho
    · exact .inl ⟨l, md, hd, ho⟩
    · cases ho
      exact .inr ⟨_, _, _, rfl, (Bucket.serve_createUpload hserve).1⟩
  rcases he.parts hup' hb with ⟨up, hup₀, hb₀⟩ | ⟨l', rfl⟩ | ⟨src, l', range, e, v, rfl, hv, rfl⟩
  · rcases hopened with ⟨l, ho⟩ | ⟨_, _, _, -, hu⟩
    · obtain ⟨src, dst, n', range, e, a', stored, h⟩ := hI j u l up n b hj ho hup₀ hb₀
      exact hold src dst n' range e a' stored h
    · exact absurd (hw.clock u up hup₀) (by rw [hu]; exact Nat.lt_irrefl _)
  · -- no rotation uploads parts, and nobody else touches its upload
    rcases hopened with ⟨l, ho⟩ | ⟨_, _, _, hq, -⟩
    · obtain rfl := opener_of_complete hw ho hb' hup
      exact absurd (hmay hj) (fun h => h)
    · simp at hq
  · rcases hopened with ⟨l, ho⟩ | ⟨_, _, _, hq, -⟩
    · obtain rfl := hw.owner i j u l' l hup ho
      refine ⟨src, l', n, range, e, a, v.stored, World.asked_now _ _ _ _ _, ?_, rfl⟩
      exact (Bucket.source_ok hv).2 (hmay hj)
    · simp at hq

theorem rotationRules_sound : Sound (onRotation G job lets) := by
  refine Sound.over uploadRules_sound ?_ ?_
  · intro i w q a s hw _ hup hI hmay hserve
    exact slices_moves hw hup hI hmay hserve
  · intro w s hw hI hs j u l up' n b hj hopen hup' hb
    obtain ⟨l', u', he⟩ := Bucket.drift_effect G.toBackend G.base64 hs
    rcases he.parts hup' hb with ⟨up, hup₀, hb₀⟩ | ⟨_, hq⟩ | ⟨_, _, _, _, _, hq, -⟩
    · obtain ⟨src, dst, n', range, e, a, stored, h⟩ := hI j u l up n b hj (opened_moved.mp hopen) hup₀ hb₀
      exact ⟨src, dst, n', range, e, a, stored, World.asked_moved.mpr h.1, h.2⟩
    · simp at hq
    · simp at hq

/-! ## Every program holds to them -/

theorem firm_saw (l : Loc) (e : Bytes) :
    Firm (onRotation G job lets) (Saw G i l e) where
  moves _ w w' _ h hm := by
    obtain ⟨q, a, s, -, -, -, rfl⟩ := hm
    obtain ⟨v, hv, he⟩ := h
    exact ⟨v, hv.after, he⟩
  drifts w w' _ h hd := by
    obtain ⟨s, -, rfl⟩ := hd
    obtain ⟨v, hv, he⟩ := h
    exact ⟨v, World.asked_moved.mpr hv, he⟩

theorem head_saw (l : Loc) :
    (tryAsk (.head l)).Keeps (onRotation G job lets) i (fun _ => True)
      fun a w => ∀ info, a = .ok info → info.etag ≠ [] ∧ Saw G i l info.etag w := by
  refine tryAsk_keeps (fun w _ _ _ => rotationRules_quiet G job i _ rfl w) (fun a => ?_) ?_
  · exact (Firm.forall fun info => Firm.imp fun _ => Firm.const.and (firm_saw l info.etag)).stable
  · rintro a w s - - - hserve info rfl
    obtain ⟨-, v, -, rfl⟩ := Bucket.serve_head hserve
    exact ⟨G.etag_ne _, v, World.asked_now _ _ _ _ _, rfl⟩

theorem stable_copiedUnder (u : Nat) (e : Bytes) :
    Stable (onRotation G job lets) i (CopiedUnder i u e) where
  moves j w w' hj _ hk hm := by
    obtain ⟨q, a, s, -, -, -, rfl⟩ := hm
    intro src dst n range e' a' h
    rcases World.asked_after.mp h with h | h
    · exact hk src dst n range e' a' h
    · cases h
      exact absurd rfl hj
  drifts w w' _ hk hd := by
    obtain ⟨s, -, rfl⟩ := hd
    exact fun src dst n range e' a h => hk src dst n range e' a (World.asked_moved.mp h)

theorem createUpload_copiedUnder (l : Loc) (md : Metadata) (hd : Headers) (e : Bytes) :
    (ask (.createUpload l md hd)).Keeps (onRotation G job lets) i (fun _ => True)
      fun u w => Opened i u l w ∧ CopiedUnder i u e w := by
  refine ask_keeps (fun _ _ _ _ _ => trivial) (fun u => ?_) ?_
  · exact (firm_opened i u l).stable.and (stable_copiedUnder u e)
  · intro u w s hw _ _ hserve
    refine ⟨⟨md, hd, World.asked_now _ _ _ _ _⟩, ?_⟩
    intro src dst n range e' a h
    rcases World.asked_after.mp h with h | h
    · have hlt := hw.1.bound i u dst (hw.1.copied i src dst u n range e' a h)
      rw [(Bucket.serve_createUpload hserve).1] at hlt
      exact absurd hlt (Nat.lt_irrefl _)
    · simp at h

theorem publishUpload_rotation (r : CopyRequest) (next : Meta) (dek : Bytes)
    (layout : Option (List Part)) (u : Nat) (hsrc : r.sourceIfMatch ≠ [])
    (hdst : r.destIfMatch = r.sourceIfMatch) :
    (publishUpload G r next dek layout u).Keeps (onRotation G job lets) i
      (fun w => (Opened i u r.dest.loc w ∧ CopiedUnder i u r.sourceIfMatch w)
        ∧ Saw G i r.dest.loc r.sourceIfMatch w) fun _ _ => True := by
  have hq := rotationRules_quiet G job i
  have hsaw : Firm (onRotation G job lets)
      (Saw G i r.dest.loc r.sourceIfMatch) := firm_saw _ _
  have hasks := publishUpload_asks (C := fun q =>
      (∀ src dst n range e, q = .uploadPartCopy src dst u n range e → e = r.sourceIfMatch)
        ∧ ∀ w, (Opened i u r.dest.loc w ∧ CopiedUnder i u r.sourceIfMatch w)
          ∧ Saw G i r.dest.loc r.sourceIfMatch w → rotationMay G job i w q)
    G (fun q hq' => ⟨fun _ _ _ _ _ h => by rw [h] at hq'; exact absurd hq' (by simp [Req.quiet, Req.reads]),
      fun w _ => hq q hq' w⟩) r next dek layout u
    (fun n range => ⟨fun _ _ _ _ _ h => by cases h; rfl, fun w _ _ => hsrc⟩)
    (fun _ _ => ⟨by simp, fun _ _ _ => trivial⟩)
    (fun parts => ⟨by simp, fun w hk _ => by
      rw [hdst]
      exact ⟨hk.1.1, hsrc, hk.2, hk.1.2⟩⟩)
  refine (hasks.keeps (((firm_opened i u _).stable.and (stable_copiedUnder u _)).and hsaw.stable) ?_ ?_).imp
    fun _ _ _ _ => trivial
  · exact fun q w hC _ hk _ => hC.2 w hk
  · rintro q a w s hC - ⟨hk, v, hv, he⟩ - -
    refine ⟨⟨hk.1.after i q a s, fun src dst n range e a' h => ?_⟩, v, hv.after, he⟩
    rcases World.asked_after.mp h with h | h
    · exact hk.2 src dst n range e a' h
    · cases h
      exact hC.1 src dst n range e rfl

theorem copyDo_rotation (r : CopyRequest) (hsrc : r.sourceIfMatch ≠ []) (hdst : r.destIfMatch = r.sourceIfMatch) :
    (copyDo G r).Keeps (onRotation G job lets) i
      (Saw G i r.dest.loc r.sourceIfMatch) fun _ _ => True := by
  have hq := rotationRules_quiet G job i
  have hsaw : Firm (onRotation G job lets)
      (Saw G i r.dest.loc r.sourceIfMatch) := firm_saw _ _
  refine (require_asks.tame.frame hsaw).bind fun _ => ?_
  refine (require_asks.tame.frame hsaw).bind fun _ => ?_
  refine (needOk_asks.tame.frame hsaw).bind fun _ => ?_
  refine ((rewrap_asks G hq r).tame.frame hsaw).bind fun wrapped => ?_
  refine ((writeTags_asks G hq r (fun _ _ _ _ => trivial) _ _).tame.frame hsaw).bind fun _ => ?_
  split
  next hsmall =>
    exact absurd (hdst.symm.trans hsmall.2.1) hsrc
  · refine ((nextVersion_asks G hq r _ _).tame.frame hsaw).bind fun version => ?_
    refine (((createUpload_copiedUnder _ _ _ r.sourceIfMatch).frame hsaw).weaken
      fun _ _ hk => ⟨trivial, hk⟩).bind fun u => ?_
    refine .bind (orAbort_keeps (fun _ _ _ _ => trivial)
      (publishUpload_rotation r _ _ _ u hsrc hdst) _ _) (fun _ => ?_)
    exact .bind (dropOld_asks _ _ _ fun _ _ _ => trivial).tame fun _ => Act.Tame.pure _

theorem rotation_starters : Starters (onRotation G job lets) fun _ _ _ => True := by
  rintro i w p hw ⟨rfl, -⟩
  refine ⟨fun _ => True, Stable.true, trivial, ?_⟩
  by_cases hr : (job i).rotation = true
  · cases hj : job i with
    | rotate r =>
      rw [hj] at hr
      have hallow : r.allowUnconditional = false := by simpa [Job.rotation] using hr
      refine ended_keeps (rotateOne_keeps (fun info w => info.etag ≠ []
        ∧ Saw G i ⟨r.bucket, r.stored⟩ info.etag w) r (head_saw _) ?_)
      intro info m _
      refine .given fun hetag => ?_
      refine .weaken (copyDo_rotation _ ?_ ?_) fun _ _ hsaw => hsaw
      · exact hetag
      · rw [hallow]
        rfl
    | _ =>
      rw [hj] at hr
      simp [Job.rotation] at hr
  · exact Prog.Keeps.free fun w q hrot => absurd hrot hr

/-! ## What rotations do -/

/-- Rotation `i` has read `stored` at `l`, and its upload `u` was filled from nothing else: a `HEAD` was
answered with a version that holds it, and every part was copied under its entity tag. -/
structure HasRead (G : Site) (i u : Nat) (l : Loc) (stored : Stored) (w : CloudWorld) : Prop where
  opened : Opened i u l w
  head : ∃ v, w.Asked ⟨i, .head l, .ok (Bucket.infoOf G.toBackend v)⟩ ∧ v.stored = stored
  copied : CopiedUnder i u (G.etag stored) w

/-- What a rotation's request makes visible takes the place of what it has read, and is made of slices
of that. -/
theorem rotation_replaces (hinj : Function.Injective G.etag) (hr : (job i).rotation = true) (hI : Slices G job w)
    (hmay : rotationMay G job i w q) (he : w.state.Effect G.toBackend G.base64 q s) {l : Loc}
    (hne : s.visible.lookup l ≠ w.state.visible.lookup l) :
    ∃ u v v', w.state.visible.lookup l = some v ∧ s.visible.lookup l = some v'
      ∧ HasRead G i u l v.stored w
      ∧ ∀ b ∈ v'.stored.parts, ∃ src dst n range a,
        w.Asked ⟨i, .uploadPartCopy src dst u n range (G.etag v.stored), a⟩
          ∧ b = Bucket.slice v.stored.bytes range := by
  cases hv' : s.visible.lookup l with
  | none =>
    rcases he.visible_gone hv' with hnone | rfl
    · exact absurd (hv'.trans hnone.symm) hne
    · exact absurd (hmay hr) (fun h => h)
  | some v' =>
    rcases he.visible hv' with hold | hpub
    · exact absurd (hv'.trans hold.symm) hne
    · cases hpub with
      | put hc hv | copy hsrc hv => exact absurd (hmay hr) (fun h => h)
      | @finish u _ _ _ _ hup hbs hc hv =>
        obtain ⟨hopen, hcond, ⟨v₀, hhead, hseen⟩, hcopied⟩ := hmay hr
        obtain ⟨v, hvis, hetag⟩ := (Bucket.admits_ok hc).1 hcond
        rw [← hetag] at hseen hcopied
        refine ⟨u, v, v', hvis, rfl, ⟨hopen, ⟨v₀, hhead, hinj hseen⟩, hcopied⟩, fun b hb => ?_⟩
        rw [hv] at hb
        obtain ⟨n, hn⟩ := Bucket.mem_assemble hbs hb
        obtain ⟨src, dst, n', range, e, a', stored, hev, hst, rfl⟩ :=
          hI i _ l _ n b hr hopen (Bucket.uploadAt_eq.mp hup).1 hn
        -- the part was copied from something with the entity tag of what is replaced
        obtain rfl := hcopied src dst n' range e a' hev
        exact ⟨src, dst, n', range, a', hev, by rw [hinj hst]⟩

/-- **Rotation loses nothing that a client wrote.** On a provider whose entity tags tell contents
apart, and whatever else runs:

* where a request of a rotation changes what is visible, it replaces an object, and the object holds the
  very bytes that the rotation has read and copied its parts from; so it never replaces anything else,
  and never brings back what was deleted;
* what a request of a rotation lands, whichever it is, ranks below every upload of the key that is open
  then, and it stays below those that are open later; so no completion is discarded for it. -/
theorem rotation_loses_nothing (hinj : Function.Injective G.etag) {s₀ : Bucket} (h₀ : s₀.Ranked)
    {c : CloudConf} (h : Reach (system G job lets) s₀ c) :
    (∀ i q next a s, (job i).rotation = true → c.threads i = .running (.ask q next) →
      lets i c.world q → c.world.state.serve G.toBackend G.base64 q a s →
      (∀ l, s.visible.lookup l ≠ c.world.state.visible.lookup l →
        ∃ u v v', c.world.state.visible.lookup l = some v ∧ s.visible.lookup l = some v'
          ∧ HasRead G i u l v.stored c.world
          ∧ ∀ b ∈ v'.stored.parts, ∃ src dst n range a,
            c.world.Asked ⟨i, .uploadPartCopy src dst u n range (G.etag v.stored), a⟩
              ∧ b = Bucket.slice v.stored.bytes range)
      ∧ ∀ l r x, (l, r, x) ∈ s.landed → (l, r, x) ∈ c.world.state.landed
        ∨ Opened i r l c.world ∧ ∀ u up, s.uploads.lookup u = some up → up.loc = l → r < u)
    ∧ ∀ l u up r x, c.world.state.uploads.lookup u = some up → up.loc = l → (l, r, x) ∈ c.world.state.landed → u < r →
        ∀ i, Opened i r l c.world → (job i).rotation = false := by
  have hinitU : UploadInv job ⟨s₀, []⟩ := uploadInv_init h₀
  have hinitR : (rotationRules G job).inv ⟨s₀, []⟩ := by
    refine ⟨hinitU, ?_⟩
    rintro i u l up n b - ⟨md, hd, ho⟩
    simp [OpenedWith] at ho
  refine ⟨?_, ?_⟩
  · intro i q next a s hr hi hlets hserve
    have hinv : UploadInv job c.world := Reach.inv uploadRules_sound upload_starters hinitU h
    have hup : uploadMay job i c.world q := h.may uploadRules_sound upload_starters hinitU hi hlets
    have hreach := reach_uploads h₀ h
    have hmay : rotationMay G job i c.world q :=
      hreach.may rotationRules_sound rotation_starters hinitR hi ⟨hlets, hinv, hup⟩
    have he := Bucket.serve_effect hserve
    refine ⟨fun l hne => ?_, fun l r x hland => ?_⟩
    · have hI := (Reach.inv rotationRules_sound rotation_starters hinitR hreach).2
      exact rotation_replaces hinj hr hI hmay he hne
    · have hyield := yieldMay_of_reach h₀ h hi hlets
      rcases yields_lands (Job.rotation_background hr) hyield he hland with hold | ⟨rfl, -⟩ | hown
      · exact .inl hold
      · exact absurd (hmay hr) (fun h => h)
      · exact .inr hown
  · intro l u up r x hu hl hr hlt i ho
    by_contra hrot
    have hrot : (job i).rotation = true := by simpa using hrot
    have hbelow := below_of_reach h₀ h i l r x hr ho (Job.rotation_background hrot) u up hu hl
    exact absurd hbelow (Nat.lt_asymm hlt)

/-! ## A rotation beside a client -/

/-- An object is put and then rotated to another key id. -/
def rotateJobs : Nat → Job
  | 0 => .put ⟨[98], [107], [97, 98, 99], [], {}, {}, []⟩
  | _ => .rotate ⟨[98], [107], [107], [76], false, false⟩

/-- The rotation is about to complete its upload. -/
def rotateRun : CloudConf :=
  runOf smallSite rotateJobs Bucket.empty
    [.start 0, .ask 0 (.bytes 32 1), .ask 0 (.bytes 12 1), .ask 0 (.bytes 20 1), .ask 0 {},
      .start 1, .ask 1 {}, .ask 1 (.bytes 12 2), .ask 1 {}, .ask 1 {}, .ask 1 {}, .ask 1 {}]

/-- What becomes of it. -/
def rotatedState : Bucket :=
  (rotateRun.world.state.perform smallSite.toBackend smallSite.base64 {}
    ((nextReq rotateRun 1).get (by decide +kernel))).2

theorem Bucket.empty_ranked : Bucket.empty.Ranked := by
  refine ⟨fun u up hup => absurd hup (by simp [Bucket.empty]), fun l r x hr => ?_⟩
  simp [Bucket.empty] at hr

theorem rotation_loses_nothing_run : ∃ u v v', rotateRun.world.state.visible.lookup ⟨[98], [107]⟩ = some v
      ∧ rotatedState.visible.lookup ⟨[98], [107]⟩ = some v'
      ∧ HasRead smallSite 1 u ⟨[98], [107]⟩ v.stored rotateRun.world
      ∧ ∀ b ∈ v'.stored.parts, ∃ src dst n range a,
        rotateRun.world.Asked ⟨1, .uploadPartCopy src dst u n range (smallSite.etag v.stored), a⟩
          ∧ b = Bucket.slice v.stored.bytes range := by
  have hpending : (nextReq rotateRun 1).isSome = true := by decide +kernel
  obtain ⟨next, hnext⟩ := nextReq_get hpending
  have hreach := runOf_reach smallSite rotateJobs Bucket.empty
    [.start 0, .ask 0 (.bytes 32 1), .ask 0 (.bytes 12 1), .ask 0 (.bytes 20 1), .ask 0 {},
      .start 1, .ask 1 {}, .ask 1 (.bytes 12 2), .ask 1 {}, .ask 1 {}, .ask 1 {}, .ask 1 {}]
  have hne : rotatedState.visible.lookup ⟨[98], [107]⟩
      ≠ rotateRun.world.state.visible.lookup ⟨[98], [107]⟩ := by decide +kernel
  exact ((rotation_loses_nothing partsTag_injective Bucket.empty_ranked hreach).1 1 _ next _ _ rfl hnext
    trivial ⟨{}, .inl rfl⟩).1 _ hne

end BlindBucket.Cloud
