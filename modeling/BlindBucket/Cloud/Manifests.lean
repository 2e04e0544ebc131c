import BlindBucket.Cloud.ManifestKeeps
import BlindBucket.Cloud.Runs

/-!
# A visible object has its manifest

The commands hold to the rules about manifests like the requests of clients do, and so the rule of
rely and guarantee applies to everything that runs.
-/

namespace BlindBucket.Cloud

open BlindBucket.Stream ObjectMeta Service Option List

variable {G : Site} {job : Nat → Job} {lets : Lets} {i : Nat}

/-! ## Copies and rotation -/

theorem copyObject_manifests (r : CopyObjectRequest) :
    (copyObject G r).Tame (onManifests G job lets) i := by
  refine require_asks.tame.bind fun _ => ?_
  refine (storedLoc_keeps _ _ _).bind fun src => .given fun hsrc => ?_
  refine (storedLoc_keeps _ _ _).bind fun dst => .given fun hdst => ?_
  refine (askHead_settled src).bind fun info => ?_
  have hseen : Firm (onManifests G job lets) _ :=
    firm_settledOld src (namedManifest G.base64 info.metadata)
  refine (require_asks.tame.frame hseen).bind fun _ => ?_
  refine ((parseMeta_keeps G _).beside hseen).bind fun m => ?_
  refine .weaken (.given fun hm => ?_) (fun w _ hk => ⟨hk.1.1, hk.2⟩)
  refine (need_asks.tame.frame hseen).bind fun kid => ?_
  refine ((copiedMetadata_asks r info).tame.frame hseen).bind fun given => ?_
  refine (copyDo_keeps _).weaken fun w _ hk id hid => ?_
  obtain ⟨_, hid⟩ := ite_none_right_eq_some.mp hid
  -- a copy onto itself: the source and the destination are stored at one place
  rename_i hsame
  have hloc : src = ⟨r.bucket, dst.key⟩ := by
    obtain ⟨hb, hkey⟩ := Bool.and_eq_true_iff.mp hsame
    rw [beq_iff_eq] at hb hkey
    rw [hb, hkey] at hsrc
    exact hsrc.eq hdst
  change w.state.Settled G.base64 ⟨r.bucket, dst.key⟩ id
  rw [← hloc]
  exact hk id ((parse_namedManifest hm).symm.trans hid)

theorem rotateOne_manifests (r : RotateRequest) :
    (rotateOne G r).Tame (onManifests G job lets) i := by
  refine rotateOne_keeps (fun info w => ∀ m, namedManifest G.base64 info.metadata = some m →
    w.state.Settled G.base64 ⟨r.bucket, r.stored⟩ m) r ?_ ?_
  · exact (head_settled _).imp fun a w _ hk info ha m hm => hk info m ha hm
  · intro info m hp
    refine (copyDo_keeps _).weaken fun w _ hk id hid => ?_
    exact hk id ((parse_namedManifest hp).symm.trans hid)

/-! ## Garbage collection -/

theorem listManifests_keeps (bucket : Bytes) :
    (ask (.listManifests bucket)).Keeps (onManifests G job lets) i (fun _ => True)
      fun es w => ∀ e, e ∈ es → e.2.1 ∈ w.state.named := by
  refine ask_keeps (fun _ _ _ _ => trivial) (fun es => ?_) ?_
  · exact (Firm.forall fun e => Firm.imp fun _ => firm_named e.2.1).stable
  · rintro es w s hw - - hserve ⟨l, id, t⟩ he
    obtain ⟨rfl, hes⟩ := Bucket.serve_listManifests hserve
    obtain ⟨b, hb, -⟩ := hes l id t he
    exact hw.sane.kept_named l id (isSome_iff_exists.mpr ⟨b, hb⟩)

variable (r : MigrateRequest) (cfg : GcConfig) (l : Loc)

/-- If no upload of the key is open, then all that was listed is settled. -/
theorem listUploads_keeps (ms : List Manifest.ID) :
    (tryAsk (.listUploads l)).Keeps (onManifests G job lets) i
      (fun w => ∀ m, m ∈ ms → m ∈ w.state.named)
      fun a w => a = .ok [] → ∀ m, m ∈ ms → w.state.Settled G.base64 l m := by
  refine tryAsk_keeps (fun _ _ _ _ => trivial) (fun a => ?_) ?_
  · exact (Firm.imp fun _ => Firm.forall fun m => Firm.imp fun _ => firm_settled l m).stable
  · rintro a w s - hk - hserve rfl m hm
    obtain ⟨rfl, hus⟩ := Bucket.serve_listUploads hserve
    refine ⟨hk m hm, ?_⟩
    rintro ⟨u, up, hup, hl, -⟩
    exact absurd (hus u up hup hl) (by simp)

theorem currentManifestID_keeps (ms : List Manifest.ID) :
    (currentManifestID G l).Keeps (onManifests G job lets) i
      (fun w => ∀ m, m ∈ ms → w.state.Settled G.base64 l m)
      fun got w => ∀ current, got = some current → ∀ m, m ∈ ms → current ≠ some m →
        w.state.Dead G.base64 l m := by
  refine (head_dead l ms).bind fun a => .pure fun w _ hk current hc m hm hne => hk m hm ?_
  cases a with
  | error f => exact (ite_none_right_eq_some.mp hc).1
  | ok info =>
    rw [Misses, manifestIDOf_ok (toOption_some.mp hc)]
    exact hne

/-- All of `ms` that the visible object does not use are dead. -/
def OthersDead (E : Base64) (l : Loc) (current : Option Manifest.ID) (ms : List Manifest.ID) (w : CloudWorld) : Prop :=
  ∀ m, m ∈ ms → current ≠ some m → w.state.Dead E l m

theorem firm_othersDead (current : Option Manifest.ID) (ms : List Manifest.ID) :
    Firm (onManifests G job lets) (OthersDead G.base64 l current ms) :=
  Firm.forall fun m => Firm.imp fun _ => Firm.imp fun _ => firm_dead l m

theorem collectEntries_keeps (current : Option Manifest.ID)
    (entries : List (Manifest.ID × Nat)) (res : GcResult) :
    (collectEntries cfg l current entries res).Keeps (onManifests G job lets) i
      (OthersDead G.base64 l current (entries.map (·.1))) fun _ _ => True := by
  unfold collectEntries
  induction entries generalizing res with
  | nil => exact .pure fun _ _ _ => trivial
  | cons e rest ih =>
    obtain ⟨id, modified⟩ := e
    have hrest : ∀ w, OthersDead G.base64 l current (id :: rest.map (·.1)) w →
        OthersDead G.base64 l current (rest.map (·.1)) w := fun w hk m hm => hk m (mem_cons_of_mem _ hm)
    have hfirm : Firm (onManifests G job lets) _ :=
      firm_othersDead l current (id :: rest.map (·.1))
    unfold collectLoop
    split
    · exact (ih _).weaken fun w _ => hrest w
    next hne =>
      have hne : current ≠ some id := by simpa using hne
      refine ((fateOf_asks cfg (manifestRules_quiet _ i) modified).tame.frame hfirm).bind fun fate => ?_
      cases fate with
      | tooYoung | dryRun => exact (ih _).weaken fun w _ => hrest w
      | delete =>
        refine .bind (tryAsk_keeps (fun w _ hk _ => hk id mem_cons_self hne)
          (fun _ => hfirm.stable) ?_) (fun a => ?_)
        · intro a w s hw hk hlets hserve
          exact hfirm.moves i w _ hw hk ⟨_, a, s, hlets, hk id mem_cons_self hne, hserve, rfl⟩
        · cases a with
          | error f | ok _ => exact (ih _).weaken fun w _ => hrest w

theorem collectKey_keeps (entries : List (Manifest.ID × Nat)) (res : GcResult) :
    (collectKey G cfg l entries res).Keeps (onManifests G job lets) i
      (fun w => ∀ m, m ∈ entries.map (·.1) → m ∈ w.state.named) fun _ _ => True := by
  have hnamed : Firm (onManifests G job lets) _ :=
    Firm.forall fun m => Firm.imp fun _ : m ∈ entries.map (·.1) => firm_named m
  refine ((resolveKey_asks (manifestRules_quiet _ i) (fun _ => rfl) _).tame.frame hnamed).bind fun resolved => ?_
  split
  · exact .pure fun _ _ _ => trivial
  split
  · exact .pure fun _ _ _ => trivial
  refine (listUploads_keeps l (entries.map (·.1))).bind fun a => ?_
  cases a with
  | error f => exact .pure fun _ _ _ => trivial
  | ok us =>
    dsimp only
    split
    · exact .pure fun _ _ _ => trivial
    next hus =>
      have hus : us = [] := by simpa using hus
      subst hus
      refine .bind ((currentManifestID_keeps l (entries.map (·.1))).weaken
        fun _ _ hk => hk rfl) (fun got => ?_)
      cases got with
      | none => exact .pure fun _ _ _ => trivial
      | some current => exact (collectEntries_keeps cfg l current entries _).weaken fun _ _ hk => hk current rfl

theorem collectKeys_keeps (es : List (Loc × Manifest.ID × Nat)) (ls : List Loc) (res : GcResult) :
    (collectKeys G cfg es ls res).Keeps (onManifests G job lets) i
      (fun w => ∀ e, e ∈ es → e.2.1 ∈ w.state.named) fun _ _ => True := by
  have hnamed : Firm (onManifests G job lets) _ :=
    Firm.forall fun e => Firm.imp fun _ : e ∈ es => firm_named e.2.1
  induction ls generalizing res with
  | nil => exact .pure fun _ _ _ => trivial
  | cons l ls ih =>
    have hkey := (collectKey_keeps (i := i) cfg l (entriesAt l es) res).frame hnamed
    refine .bind (hkey.weaken fun w _ hk => ⟨fun m hm => ?_, hk⟩)
      (fun res => (ih res).weaken fun _ _ hk => hk.2)
    obtain ⟨e, he, rfl⟩ := mem_map.mp hm
    obtain ⟨e', he', rfl⟩ := mem_map.mp he
    exact hk e' (mem_filter.mp he').1

theorem gcRun_manifests : (gcRun G cfg).Tame (onManifests G job lets) i := by
  have hq := manifestRules_quiet G.base64 i
  refine (listManifests_keeps cfg.bucket).bind fun manifests => ?_
  have hnamed : Firm (onManifests G job lets) _ :=
    Firm.forall fun e => Firm.imp fun _ : e ∈ manifests => firm_named e.2.1
  refine ((ask_tame (hq _ rfl)).frame hnamed).bind fun sidecars => ?_
  refine (collectKeys_keeps cfg manifests cfg.order _).bind fun res => ?_
  exact (collectAllSidecars_asks cfg hq (fun _ _ _ => trivial) sidecars cfg.order res).tame

/-! ## Migration and encryption -/

theorem deletePlain_keeps (id : Option Manifest.ID) :
    (deletePlain r id).Keeps (onManifests G job lets) i
      (fun w => ∀ m, id = some m → w.state.Settled G.base64 r.plain m) fun _ _ => True := by
  refine (delete_dead r.plain id).bind fun a => ?_
  cases a with
  | error f => exact .pure fun _ _ _ => trivial
  | ok _ =>
    cases id with
    | none => exact .pure fun _ _ _ => trivial
    | some m =>
      refine .bind ((deleteManifest_keeps r.plain m).weaken fun _ _ hk => hk () rfl m rfl)
        (fun _ => .pure fun _ _ _ => trivial)

theorem finishMigration_keeps (m : Meta) (verdict : Migrated) :
    (finishMigration r m verdict).Keeps (onManifests G job lets) i
      (fun w => ∀ id, m.manifestID = some id → w.state.Settled G.base64 r.plain id) fun _ _ => True :=
  .bind (deletePlain_keeps r m.manifestID) fun _ => .pure fun _ _ _ => trivial

theorem attemptTo_keeps (stored : Bytes) (info : Info) (m : Meta) :
    (attemptTo G r stored info m).Keeps (onManifests G job lets) i
      (fun w => ∀ id, m.manifestID = some id → w.state.Settled G.base64 r.plain id) fun _ _ => True := by
  have hq := manifestRules_quiet G.base64 i
  have hset : Firm (onManifests G job lets) _ := firm_settledOld r.plain m.manifestID
  refine ((tryAsk_tame (hq _ rfl)).frame hset).bind fun a => ?_
  cases a with
  | error f =>
    dsimp only
    split
    · exact .pure fun _ _ _ => trivial
    split
    · exact .pure fun _ _ _ => trivial
    have hcopy : (copyToEncrypted G r stored info m).Tame (onManifests G job lets) i :=
      (copyDo_keeps _).weaken fun _ _ _ _ h => absurd h (by simp)
    refine ((Act.Tame.attempt hcopy).frame hset).bind fun res => ?_
    cases res with
    | error e => exact .pure fun _ _ _ => trivial
    | ok _ => exact finishMigration_keeps r m .migrated
  | ok encInfo =>
    dsimp only
    split
    · exact .pure fun _ _ _ => trivial
    split
    · exact .pure fun _ _ _ => trivial
    exact finishMigration_keeps r m _

theorem attemptMigrate_manifests :
    (attemptMigrate G r).Tame (onManifests G job lets) i := by
  refine (head_settled r.plain).bind fun a => ?_
  cases a with
  | error f => exact .pure fun _ _ _ => trivial
  | ok info =>
    dsimp only
    cases hp : G.parse info.metadata with
    | error e => exact .pure fun _ _ _ => trivial
    | ok m =>
      cases r.encryptKey r.identity with
      | error e => cases e <;> exact .pure fun _ _ _ => trivial
      | ok stored =>
        refine (attemptTo_keeps r stored info m).weaken fun w _ hk id hid => ?_
        exact hk info id rfl ((parse_namedManifest hp).symm.trans hid)

theorem migrateOne_manifests :
    (migrateOne G r).Tame (onManifests G job lets) i := by
  have hall : ∀ n, (migrateAttempts G r n).Tame (onManifests G job lets) i := by
    intro n
    induction n with
    | zero => exact .pure _
    | succ n ih =>
      refine (attemptMigrate_manifests r).bind fun got => ?_
      split
      · exact ih
      · exact .pure _
  exact hall maxAttempts

theorem writeLayout_keeps (u : Nat) (id : Option Manifest.ID) (parts : List Part) (dek : Bytes) :
    (writeLayout G l id parts dek).Keeps (onManifests G job lets) i
      (fun w => w.state.Belongs G.base64 u id)
      fun _ w => w.state.Belongs G.base64 u id ∧ w.state.Covered u l id := by
  cases id with
  | none => exact .pure fun w _ hk => ⟨hk, fun _ _ _ h => absurd h (by simp)⟩
  | some id => exact writeManifest_keeps l u ⟨l.bucket, l.key, id, parts, false⟩ dek

theorem writeUpload_keeps (r : EncryptRequest) (l : Loc) (u : Nat) (m : Meta) (partSize : Nat)
    (dek body : Bytes) (info : Info) (c : Cond) :
    (writeUpload G r l u m partSize dek body info c).Keeps (onManifests G job lets) i
      (fun w => w.state.Belongs G.base64 u m.manifestID) fun _ _ => True := by
  have hq := manifestRules_quiet G.base64 i
  have hb : Firm (onManifests G job lets) _ := firm_belongs u m.manifestID
  have hcov : Firm (onManifests G job lets) _ := firm_covered u l m.manifestID
  refine ((uploadBody_asks G hq (fun _ _ _ => trivial) _ partSize dek body _).tame.frame hb).bind fun parts => ?_
  refine ((checkDigest_asks r info _).tame.frame hb).bind fun _ => ?_
  refine (writeLayout_keeps l u m.manifestID parts.2 dek).bind fun _ => ?_
  refine ((yieldIf_asks hq _ l u).tame.frame hcov).bind fun _ => ?_
  refine .bind (.mapErr (.weaken (complete_keeps l u _ c m.manifestID none) ?_) _)
    (fun _ => .pure fun _ _ _ => trivial)
  exact fun w _ hk => ⟨hk, fun _ h => absurd h (by simp)⟩

/-- What a program has drawn for a new manifest, if it needs one. -/
def UnusedIf (i : Nat) (id : Option Manifest.ID) (w : CloudWorld) : Prop := ∀ m, id = some m → Unused i m w

theorem stable_unusedIf (i : Nat) (id : Option Manifest.ID) :
    Stable (onManifests G job lets) i (UnusedIf i id) :=
  Stable.forall fun m => Stable.imp fun _ => stable_unused i m

theorem manifestFor_keeps (multipart : Bool) :
    (manifestFor multipart).Keeps (onManifests G job lets) i (fun _ => True)
      fun id w => UnusedIf i id w := by
  unfold manifestFor
  split
  · refine .bind newID_keeps (fun id => .pure fun w _ hk m hm => ?_)
    rw [← some.inj hm]
    exact hk
  · exact .pure fun _ _ _ _ h => absurd h (by simp)

theorem readPlain_keeps (r : EncryptRequest) (info : Info) (id : Option Manifest.ID) :
    (readPlain r info).Keeps (onManifests G job lets) i (UnusedIf i id)
      fun _ => UnusedIf i id := by
  have hget : (tryAsk (.get r.loc info.etag none)).Keeps (onManifests G job lets) i
      (UnusedIf i id) fun _ => UnusedIf i id := by
    refine tryAsk_keeps (fun _ _ _ _ => trivial) (fun _ => stable_unusedIf i id) ?_
    intro a w s _ hk _ hserve m hm
    exact (hk m hm).after hserve (by simp)
  refine .bind hget fun a => ?_
  cases a with
  | error f =>
    dsimp only
    split
    · exact .throw
    · exact .throw
  | ok got =>
    refine require_keeps.bind fun _ => ?_
    exact .pure fun _ _ hk => hk.2

theorem encryptWrite_manifests (r : EncryptRequest) (l : Loc) (info : Info) (c : Cond)
    (hres : ∀ e ∈ info.metadata, reserved e.1 = false) :
    (encryptWrite G r l info c).Tame (onManifests G job lets) i := by
  have hq := manifestRules_quiet G.base64 i
  refine needOk_asks.tame.bind fun partSize => ?_
  refine (ask_tame (hq _ rfl)).bind fun dek => ?_
  refine (wrapDEK_asks hq _ _ _ _).tame.bind fun wrapped => ?_
  refine (manifestFor_keeps _).bind fun id => ?_
  refine (readPlain_keeps r info id).bind fun body => ?_
  have hid := namedManifest_merge (E := G.base64) hres (newMeta G r.kid wrapped id)
  refine .bind (.weaken (createUpload_keeps l _ info.headers id none hid) ?_)
    (fun u => ?_)
  · exact fun w _ hk => ⟨hk, by simp⟩
  · exact orAbort_keeps (fun _ _ _ => trivial)
      ((writeUpload_keeps r l u _ _ dek body info c).weaken fun _ _ hk => hk.1) l u

theorem encryptOne_manifests (r : EncryptRequest) :
    (encryptOne G r).Tame (onManifests G job lets) i :=
  encryptOne_tame (manifestRules_quiet _ i) r
    (fun l info c hj _ => encryptWrite_manifests r l info c (judgePlain_none hj)) fun _ => trivial

/-! ## Everything that runs -/

theorem manifest_starters : Starters (onManifests G job lets) fun _ _ _ => True := by
  rintro i w p hw ⟨rfl, hgiven⟩
  have htame : ∀ {α : Type} {p : Call α}, p.Tame (onManifests G job lets) i →
      ∃ K, Stable (onManifests G job lets) i K ∧ K w
        ∧ (ended p).Keeps (onManifests G job lets) i K fun _ _ => True :=
    fun h => ⟨fun _ => True, Stable.true, trivial, ended_keeps h⟩
  cases hj : job i with
  | put r => exact htame (putObject_manifests r)
  | delete bucket key => exact htame (deleteObject_manifests bucket key)
  | create r => exact htame (createMultipartUpload_manifests r)
  | part r => exact htame (uploadPart_manifests r)
  | complete r =>
    rw [hj] at hgiven
    refine ⟨_, (firm_belongs r.token.uploadID (some r.token.manifestID)).stable, ?_,
      ended_keeps (completeMultipartUpload_manifests r)⟩
    exact hw.token r.token hgiven.1
  | abort t => exact htame (abortMultipartUpload_manifests t)
  | copy r => exact htame (copyObject_manifests r)
  | rotate r => exact htame (rotateOne_manifests r)
  | gc cfg => exact htame (gcRun_manifests cfg)
  | migrate r => exact htame (migrateOne_manifests r)
  | encrypt r => exact htame (encryptOne_manifests r)
  | tag bucket key ops =>
    have h := tagSession_asks G (manifestRules_quiet G.base64 i) bucket key
      (fun _ _ _ _ => trivial) (fun _ _ _ _ _ => trivial) ops
    exact ⟨fun _ => True, Stable.true, trivial, endedTags_keeps h.tame⟩
  | read p h =>
    exact ⟨fun _ => True, Stable.true, trivial, h.keeps (manifestRules_quiet G.base64 i)⟩

theorem manifestInv_init {s₀ : Bucket} (h₀ : s₀.Sane G.base64) : ManifestInv G.base64 ⟨s₀, []⟩ := by
  refine ⟨h₀, ?_, ?_, ?_⟩
  · exact fun _ _ hm => absurd hm (by simp [Mine])
  · exact fun _ _ _ hm => absurd hm (by simp [Mine])
  · rintro t ⟨_, ht⟩
    simp at ht

theorem sane_of_reach {s₀ : Bucket} (h₀ : s₀.Sane G.base64) {c : CloudConf}
    (h : Reach (system G job lets) s₀ c) : c.world.state.Sane G.base64 :=
  (Reach.inv manifestRules_sound manifest_starters (manifestInv_init h₀) h).sane

/-- **A visible object has its manifest.** Whatever runs, in whatever order its requests are served,
wherever it is cut off and whichever uploads the provider aborts or discards: when the visible object
at a key names a manifest, that manifest is stored. -/
theorem visible_has_manifest {s₀ : Bucket} (h₀ : s₀.Sane G.base64) {c : CloudConf}
    (h : Reach (system G job lets) s₀ c) {l : Loc} {v : Version} {m : Manifest.ID}
    (hv : c.world.state.visible.lookup l = some v) (hm : namedManifest G.base64 v.metadata = some m) :
    (c.world.state.manifests.lookup (l, m)).isSome = true :=
  (sane_of_reach h₀ h).stored l m ⟨v, hv, hm⟩

/-! ## An upload -/

theorem Bucket.empty_sane (E : Base64) : Bucket.empty.Sane E where
  stored := by rintro l m ⟨v, hv, -⟩; simp [Bucket.empty] at hv
  visible_named := by rintro l m ⟨v, hv, -⟩; simp [Bucket.empty] at hv
  open_named := by rintro l m ⟨u, up, hup, -⟩; simp [Bucket.empty] at hup
  kept_named := by intro l m hm; simp [Bucket.HasManifest, Bucket.empty] at hm
  minted := by intro m hm; simp [Bucket.empty] at hm
  apart := by rintro l m ⟨v, hv, -⟩; simp [Bucket.empty] at hv
  unique := by intro u up u' up' m hup; simp [Bucket.empty] at hup
  clock := by intro u up hup; simp [Bucket.empty] at hup
  ranks := by intro l r x hr; simp [Bucket.empty] at hr

def uploadLoc : Loc := ⟨[98], [107]⟩
def uploadID : Manifest.ID := ⟨replicate Manifest.idSize 1, by decide⟩

/-- The token of an upload whose data key, nonce and manifest id are all ones. -/
def uploadToken : Token :=
  ⟨[98], [107], [75], 0, replicate 12 1 ++ replicate 32 1 ++ replicate 16 0, uploadID⟩

/-- An upload of one part: it is created, its part is uploaded, it is completed. -/
def uploadJobs : Nat → Job
  | 0 => .create ⟨[98], [107], [], {}, []⟩
  | 1 => .part ⟨uploadToken, 1, [97, 98, 99]⟩
  | _ => .complete ⟨uploadToken, [(1, .sealed ⟨[75], 1,
      segmentBytes partCrypto (replicate 32 1) (Stream.Header.make ⟨12, true, 1⟩ zeroSalt firstPart_valid) [97, 98, 99],
      zeroSalt⟩)], {}⟩

def uploadRun : CloudConf :=
  runOf smallSite uploadJobs Bucket.empty
    [.start 0, .ask 0 (.bytes 32 1), .ask 0 (.bytes 12 1), .ask 0 (.bytes 16 1), .ask 0 {}, .ask 0 {},
      .start 1, .ask 1 (.bytes 20 0), .ask 1 {}, .ask 1 {},
      .start 2, .ask 2 {}, .ask 2 {}, .ask 2 {}, .ask 2 {}]

def uploadVersion : Version := (uploadRun.world.state.visible.lookup uploadLoc).get (by decide +kernel)

theorem visible_has_manifest_upload : namedManifest smallSite.base64 uploadVersion.metadata = some uploadID
      ∧ (uploadRun.world.state.manifests.lookup (uploadLoc, uploadID)).isSome = true := by
  have hm : namedManifest smallSite.base64 uploadVersion.metadata = some uploadID := by decide +kernel
  refine ⟨hm, visible_has_manifest (Bucket.empty_sane _) (runOf_reach _ _ _ _) ?_ hm⟩
  exact (some_get _).symm

end BlindBucket.Cloud
