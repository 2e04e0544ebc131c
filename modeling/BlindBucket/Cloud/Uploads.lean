import BlindBucket.Cloud.Rules

/-!
# Whose upload it is

An upload is filled and completed by the program that opened it, or by requests of a client that was
given its token; tokens are given out for uploads that a `CreateMultipartUpload` opened, and for no
others. So nothing but a rotation touches the upload of a rotation.
-/

namespace BlindBucket.Cloud

open BlindBucket.Stream ObjectMeta Service

/-- Program `i` has opened the upload `u`. -/
def OpenedWith (i u : Nat) (l : Loc) (md : Metadata) (hd : Headers) (w : CloudWorld) : Prop :=
  w.Asked ⟨i, .createUpload l md hd, .ok u⟩

def Opened (i u : Nat) (l : Loc) (w : CloudWorld) : Prop := ∃ md hd, OpenedWith i u l md hd w

/-- A client holds a token of the upload `u`. -/
def Handed (u : Nat) (w : CloudWorld) : Prop := ∃ t, Issued w (.token t) ∧ t.uploadID = u

def Job.isCreate : Job → Bool
  | .create _ => true
  | _ => false

variable (job : Nat → Job)

/-- The invariant: uploads are numbered in order, and every one of them has one opener. -/
structure UploadInv (w : CloudWorld) : Prop where
  clock : ∀ u up, w.state.uploads.lookup u = some up → u < w.state.clock
  ranks : ∀ l r x, (l, r, x) ∈ w.state.landed → r < w.state.clock
  /-- An upload that was opened has a number below the next. -/
  bound : ∀ i u l, Opened i u l w → u < w.state.clock
  /-- While it is open it is as it was opened. -/
  same : ∀ i u l md hd up, OpenedWith i u l md hd w → w.state.uploads.lookup u = some up →
    up.loc = l ∧ up.metadata = md ∧ up.headers = hd
  /-- No two programs open one upload. -/
  owner : ∀ i j u l l', Opened i u l w → Opened j u l' w → i = j
  /-- Parts are copied into one's own upload. -/
  copied : ∀ i src dst u n range e a,
    w.Asked ⟨i, .uploadPartCopy src dst u n range e, a⟩ → Opened i u dst w
  /-- A token is one of an upload that a client created. -/
  handed : ∀ u, Handed u w → ∃ i l, Opened i u l w ∧ (job i).isCreate = true

def uploadMay (i : Nat) (w : CloudWorld) : Req → Prop
  | .uploadPart _ u _ _ => (∃ l, Opened i u l w) ∨ Handed u w
  | .uploadPartCopy _ dst u _ _ _ => Opened i u dst w
  | .complete _ u _ _ => (∃ l, Opened i u l w) ∨ Handed u w
  | .reply (.token t) => (∃ l, Opened i t.uploadID l w) ∧ (job i).isCreate = true
  | _ => True

def uploadRules : Rules Bucket Req Answer := ⟨UploadInv job, uploadMay job⟩

abbrev onUploads (G : Site) (job : Nat → Job) (lets : Lets) :
    Regime Bucket Req Answer Outcome := ⟨system G job lets, uploadRules job⟩

theorem uploadRules_quiet (i : Nat) : Quiet fun q => ∀ w, (uploadRules job).may i w q := by
  intro q hq w
  cases q <;> trivial

variable {job} {G : Site} {lets : Lets} {i : Nat}

/-! ## What a step adds -/

variable {w : CloudWorld} {u : Nat} {l : Loc} {md : Metadata} {hd : Headers} {s s₀ : Bucket}
  {R : Rules Bucket Req Answer}

theorem OpenedWith.after (h : OpenedWith i u l md hd w) (j : Nat) (q : Req) (a : Answer q) (s : Bucket) :
    OpenedWith i u l md hd (w.after j q a s) := World.Asked.after h

theorem Opened.after (h : Opened i u l w) (j : Nat) (q : Req) (a : Answer q) (s : Bucket) :
    Opened i u l (w.after j q a s) := by
  obtain ⟨md, hd, h⟩ := h
  exact ⟨md, hd, h.after j q a s⟩

theorem openedWith_moved : OpenedWith i u l md hd (w.moved s) ↔ OpenedWith i u l md hd w := World.asked_moved

@[simp] theorem opened_moved : Opened i u l (w.moved s) ↔ Opened i u l w := by simp [Opened, OpenedWith]

@[simp] theorem handed_moved : Handed u (w.moved s) ↔ Handed u w := by simp [Handed]

theorem openedWith_after {j : Nat} {q : Req} {a : Answer q} (h : OpenedWith i u l md hd (w.after j q a s))
    (hserve : w.state.serve G.toBackend G.base64 q a s) :
    OpenedWith i u l md hd w
      ∨ i = j ∧ u = w.state.clock ∧ s = w.state.openUpload G.base64 l md hd := by
  rcases World.asked_after.mp h with h | h
  · exact .inl h
  · cases h
    obtain ⟨hu, hs⟩ := Bucket.serve_createUpload hserve
    exact .inr ⟨rfl, hu, hs⟩

theorem Handed.after (h : Handed u w) (j : Nat) (q : Req) (a : Answer q) (s : Bucket) : Handed u (w.after j q a s) := by
  obtain ⟨t, ⟨k, ht⟩, hu⟩ := h
  exact ⟨t, ⟨k, ht.after⟩, hu⟩

theorem uploadRules_sound : Sound (onUploads G job lets) where
  moves i w w' hw hm := by
    obtain ⟨q, a, s, -, hmay, hserve, rfl⟩ := hm
    have he := Bucket.serve_effect hserve
    -- an upload that was opened before is not the newest
    have hlt : ∀ j u l, Opened j u l w → u ≠ w.state.clock :=
      fun j u l hj => Nat.ne_of_lt (hw.bound j u l hj)
    refine ⟨fun _ _ hup => he.uploads_below hw.clock hup,
      fun _ _ _ hr => he.ranks_below hw.clock hw.ranks hr, ?_, ?_, ?_, ?_, ?_⟩
    · rintro j u l ⟨md, hd, h⟩
      rcases openedWith_after h hserve with h | ⟨-, rfl, rfl⟩
      · exact Nat.lt_of_lt_of_le (hw.bound j u l ⟨md, hd, h⟩) he.clock_le
      · exact Nat.lt_succ_self _
    · intro j u l md hd up' h hup'
      rcases openedWith_after h hserve with h | ⟨-, rfl, rfl⟩
      · rcases he.uploads hup' with ⟨up, hup, hloc, hmd, hhd⟩ | ⟨-, -, -, -, hu, -, -⟩
        · obtain ⟨h₁, h₂, h₃⟩ := hw.same j u l md hd up h hup
          exact ⟨hloc.symm.trans h₁, hmd.symm.trans h₂, hhd.symm.trans h₃⟩
        · exact absurd hu (hlt j u l ⟨md, hd, h⟩)
      · have hnew : some (⟨l, md, hd, ∅⟩ : Upload) = some up' := (AList.lookup_insert _).symm.trans hup'
        cases hnew
        exact ⟨rfl, rfl, rfl⟩
    · rintro j k u l l' ⟨md, hd, hj⟩ ⟨md', hd', hk⟩
      rcases openedWith_after hj hserve with hj | ⟨hji, hu, -⟩
      · rcases openedWith_after hk hserve with hk | ⟨-, hu, -⟩
        · exact hw.owner j k u l l' ⟨md, hd, hj⟩ ⟨md', hd', hk⟩
        · exact absurd hu (hlt j u l ⟨md, hd, hj⟩)
      · rcases openedWith_after hk hserve with hk | ⟨hki, -, -⟩
        · exact absurd hu (hlt k u l' ⟨md', hd', hk⟩)
        · exact hji.trans hki.symm
    · intro j src dst u n range e a' h
      rcases World.asked_after.mp h with h | h
      · exact (hw.copied j src dst u n range e a' h).after i q a s
      · cases h
        exact Opened.after hmay _ _ _ _
    · rintro u ⟨t, ⟨k, ht⟩, hu⟩
      rcases World.asked_after.mp ht with ht | ht
      · obtain ⟨j, l, hj, hc⟩ := hw.handed u ⟨t, ⟨k, ht⟩, hu⟩
        exact ⟨j, l, hj.after i q a s, hc⟩
      · cases ht
        obtain ⟨⟨l, hl⟩, hc⟩ := hmay
        subst hu
        exact ⟨_, l, hl.after _ _ _ _, hc⟩
  drifts w w' hw hd := by
    obtain ⟨s, hs, rfl⟩ := hd
    obtain ⟨l, u, he⟩ := Bucket.drift_effect G.toBackend G.base64 hs
    refine ⟨fun _ _ hup => he.uploads_below hw.clock hup,
      fun _ _ _ hr => he.ranks_below hw.clock hw.ranks hr, ?_, ?_, ?_, ?_, ?_⟩
    · exact fun j u l hj => Nat.lt_of_lt_of_le (hw.bound j u l (opened_moved.mp hj)) he.clock_le
    · intro j u l md hd up' h hup'
      have h := openedWith_moved.mp h
      rcases he.uploads hup' with ⟨up, hup, hloc, hmd, hhd⟩ | ⟨_, _, _, hq, -⟩
      · obtain ⟨h₁, h₂, h₃⟩ := hw.same j u l md hd up h hup
        exact ⟨hloc.symm.trans h₁, hmd.symm.trans h₂, hhd.symm.trans h₃⟩
      · simp at hq
    · simpa using hw.owner
    · simpa using hw.copied
    · simpa using hw.handed

theorem firm_opened (i u : Nat) (l : Loc) : Firm ⟨system G job lets, R⟩ (Opened i u l) where
  moves _ w w' _ h hm := by
    obtain ⟨q, a, s, -, -, -, rfl⟩ := hm
    exact h.after _ q a s
  drifts w w' _ h hd := by
    obtain ⟨s, -, rfl⟩ := hd
    exact opened_moved.mpr h

theorem firm_handed (u : Nat) : Firm ⟨system G job lets, R⟩ (Handed u) where
  moves _ w w' _ h hm := by
    obtain ⟨q, a, s, -, -, -, rfl⟩ := hm
    exact h.after _ q a s
  drifts w w' _ h hd := by
    obtain ⟨s, -, rfl⟩ := hd
    exact handed_moved.mpr h

/-! ## Every program holds to them -/

theorem createUpload_opens (l : Loc) (md : Metadata) (hd : Headers) (hmay : ∀ w, R.may i w (.createUpload l md hd)) :
    (ask (.createUpload l md hd)).Keeps ⟨system G job lets, R⟩ i (fun _ => True)
      fun u w => Opened i u l w :=
  ask_keeps (fun w _ _ _ => hmay w) (fun u => (firm_opened i u l).stable)
    fun _ _ _ _ _ _ _ => ⟨md, hd, World.asked_now _ _ _ _ _⟩

theorem createMultipartUpload_uploads (r : CreateRequest) (hj : (job i).isCreate = true) :
    (createMultipartUpload G r).Tame (onUploads G job lets) i := by
  have hq := uploadRules_quiet job i
  refine (clientMetadata_asks _).tame.bind fun md => ?_
  refine storedLoc_asks.tame.bind fun l => ?_
  refine need_asks.tame.bind fun kid => ?_
  refine (ask_tame (hq _ rfl)).bind fun dek => ?_
  refine (wrapDEK_asks hq _ _ _ _).tame.bind fun wrapped => ?_
  refine (ask_tame (hq _ rfl)).bind fun id => ?_
  refine (writeTagsBeforeObject_asks G l (fun _ _ _ => trivial) _ _ _ _ _).tame.bind fun _ => ?_
  refine (createUpload_opens l _ _ fun _ => trivial).bind fun u => ?_
  exact ask_keeps (fun w _ hk _ => ⟨⟨l, hk⟩, hj⟩) (fun _ => Stable.true) fun _ _ _ _ _ _ _ => trivial

theorem copyDo_uploads (r : CopyRequest) : (copyDo G r).Tame (onUploads G job lets) i := by
  have hq := uploadRules_quiet job i
  refine require_asks.tame.bind fun _ => ?_
  refine require_asks.tame.bind fun _ => ?_
  refine needOk_asks.tame.bind fun _ => ?_
  refine (rewrap_asks G hq r).tame.bind fun wrapped => ?_
  refine (writeTags_asks G hq r (fun _ _ _ => trivial) _ _).tame.bind fun _ => ?_
  split
  · exact (copyWhole_asks G r _ fun _ _ => trivial).tame
  · refine (nextVersion_asks G hq r _ _).tame.bind fun version => ?_
    refine (createUpload_opens _ _ _ fun _ => trivial).bind fun u => ?_
    have hpub := publishUpload_asks (C := fun q => ∀ w, Opened i u r.dest.loc w → uploadMay job i w q)
      G (fun q hq' w _ => hq q hq' w) r version.1 wrapped.2 version.2 u (fun _ _ _ h => h)
      (fun _ _ _ _ => trivial) fun _ _ h => .inl ⟨_, h⟩
    refine .bind (orAbort_keeps (fun _ _ _ => trivial) (hpub.firm (firm_opened i u _)) _ _)
      (fun _ => ?_)
    refine .weaken ?_ fun _ _ _ => trivial
    exact .bind (dropOld_asks _ _ _ fun _ _ => trivial).tame fun _ => Act.Tame.pure _

theorem encryptWrite_uploads (r : EncryptRequest) (l : Loc) (info : Info) (c : Cond) :
    (encryptWrite G r l info c).Tame (onUploads G job lets) i := by
  have hq := uploadRules_quiet job i
  refine needOk_asks.tame.bind fun partSize => ?_
  refine (ask_tame (hq _ rfl)).bind fun dek => ?_
  refine (wrapDEK_asks hq _ _ _ _).tame.bind fun wrapped => ?_
  refine (manifestFor_asks hq _).tame.bind fun id => ?_
  refine (readPlain_asks hq r info).tame.bind fun body => ?_
  refine (createUpload_opens l _ _ fun _ => trivial).bind fun u => ?_
  have hup := writeUpload_asks (C := fun q => ∀ w, Opened i u l w → uploadMay job i w q)
    (fun q hq' w _ => hq q hq' w) G r l u (newMeta G r.kid wrapped id) partSize.toNat dek body info c
    (fun _ _ _ h => .inl ⟨l, h⟩) (fun _ _ _ _ => trivial) fun _ _ h => .inl ⟨l, h⟩
  exact orAbort_keeps (fun _ _ _ => trivial) ((hup.firm (firm_opened i u l)).imp fun _ _ _ _ => trivial) l u

theorem upload_starters : Starters (onUploads G job lets) fun _ _ _ => True := by
  rintro i w p hw ⟨rfl, hgiven⟩
  have hq := uploadRules_quiet job i
  have htame : ∀ {α : Type} {p : Call α}, p.Tame (onUploads G job lets) i →
      ∃ K, Stable (onUploads G job lets) i K ∧ K w
        ∧ (ended p).Keeps (onUploads G job lets) i K fun _ _ => True :=
    fun h => ⟨fun _ => True, Stable.true, trivial, ended_keeps h⟩
  cases hj : job i with
  | put r => exact htame (putObject_asks G hq r (fun _ _ _ _ _ => trivial) fun _ _ _ _ _ => trivial).tame
  | delete bucket key =>
    exact htame (deleteObject_asks G hq bucket key (fun _ _ _ => trivial) fun _ _ _ _ => trivial).tame
  | create r => exact htame (createMultipartUpload_uploads r (by rw [hj]; rfl))
  | part r =>
    rw [hj] at hgiven
    have hpart := uploadPart_asks (C := fun q => ∀ w, Handed r.token.uploadID w → uploadMay job i w q) G
      (fun q hq' w _ => hq q hq' w) r (fun _ _ _ _ h => .inr h) fun _ _ _ => trivial
    refine ⟨_, (firm_handed r.token.uploadID).stable, ⟨r.token, hgiven, rfl⟩, ?_⟩
    exact ended_keeps (hpart.firm (firm_handed _))
  | complete r =>
    rw [hj] at hgiven
    have hcomp := completeMultipartUpload_asks
      (C := fun q => ∀ w, Handed r.token.uploadID w → uploadMay job i w q) G
      (fun q hq' w _ => hq q hq' w) r (fun _ _ _ _ _ => trivial) (fun _ _ _ _ h => .inr h)
      fun _ _ _ _ _ => trivial
    refine ⟨_, (firm_handed r.token.uploadID).stable, ⟨r.token, hgiven.1, rfl⟩, ?_⟩
    exact ended_keeps (hcomp.firm (firm_handed _))
  | abort t => exact htame (abortMultipartUpload_asks G t fun _ _ _ => trivial).tame
  | copy r => exact htame (copyObject_tame hq copyDo_uploads r)
  | rotate r =>
    exact htame (rotateOne_keeps (fun _ _ => True) r ((tryAsk_tame (hq _ rfl)).imp fun _ _ _ _ _ _ => trivial)
      fun _ _ _ => copyDo_uploads _)
  | gc cfg => exact htame (gcRun_asks G hq cfg (fun _ _ _ => trivial) fun _ _ _ => trivial).tame
  | migrate r =>
    exact htame (migrateOne_tame hq r (fun _ _ _ => copyDo_uploads _) (fun _ => trivial) fun _ _ => trivial)
  | encrypt r =>
    exact htame (encryptOne_tame hq r (fun l info c _ _ => encryptWrite_uploads r l info c) fun _ => trivial)
  | tag bucket key ops =>
    have h := tagSession_asks G hq bucket key (fun _ _ _ _ => trivial) (fun _ _ _ _ _ => trivial) ops
    exact ⟨fun _ => True, Stable.true, trivial, endedTags_keeps h.tame⟩
  | read p h => exact ⟨fun _ => True, Stable.true, trivial, h.keeps hq⟩

/-- A state in which uploads and landed writes have numbers below the next. -/
def Bucket.Ranked (s : Bucket) : Prop :=
  (∀ u up, s.uploads.lookup u = some up → u < s.clock) ∧ ∀ l r x, (l, r, x) ∈ s.landed → r < s.clock

theorem uploadInv_init (h : s₀.Ranked) : UploadInv job ⟨s₀, []⟩ where
  clock := h.1
  ranks := h.2
  bound := by rintro i u l ⟨md, hd, ho⟩; exact (World.asked_init _ _ ho).elim
  same := by intro i u l md hd up ho; exact (World.asked_init _ _ ho).elim
  owner := by rintro i j u l l' ⟨md, hd, ho⟩; exact (World.asked_init _ _ ho).elim
  copied := by intro i src dst u n range e a h; exact (World.asked_init _ _ h).elim
  handed := by rintro u ⟨t, ⟨k, ht⟩, -⟩; simp at ht

/-- **In a run, every request holds to the rules about uploads.** -/
theorem reach_uploads (h₀ : s₀.Ranked) {c : CloudConf} (h : Reach (system G job lets) s₀ c) :
    Reach (system G job fun i w q => lets i w q ∧ UploadInv job w ∧ uploadMay job i w q) s₀ c :=
  h.under uploadRules_sound upload_starters (uploadInv_init h₀)

end BlindBucket.Cloud
