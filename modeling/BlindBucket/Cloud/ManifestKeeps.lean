import BlindBucket.Cloud.ManifestRules

/-!
# Every program holds to the rules about manifests

Program by program: what it knows after each of its requests, and why it may make the next.
-/

namespace BlindBucket.Cloud

open BlindBucket.Stream ObjectMeta Service Option List

variable {G : Site} {job : Nat → Job} {lets : Lets} {i : Nat}

/-! ## What a `HEAD` tells -/

/-- The answer shows that the visible object does not name `m`. -/
def Misses (E : Base64) (l : Loc) (m : Manifest.ID) : Answer (.head l) → Prop
  | .error f => f.isNotFound = true
  | .ok info => namedManifest E info.metadata ≠ some m

variable {w : CloudWorld} {l : Loc} {s : Bucket} {m : Manifest.ID}

/-- A manifest that is seen on the visible object belongs to an upload that was completed. -/
theorem settled_of_head (hw : ManifestInv G.base64 w) {info : Info}
    (hserve : w.state.serve G.toBackend G.base64 (.head l) (.ok info) s)
    (hm : namedManifest G.base64 info.metadata = some m) : s.Settled G.base64 l m := by
  obtain ⟨rfl, v, hv, rfl⟩ := Bucket.serve_head hserve
  have hnames : w.state.Names G.base64 l m := ⟨v, hv, hm⟩
  exact ⟨hw.sane.visible_named l m hnames, hw.sane.apart l m hnames⟩

theorem head_settled (l : Loc) :
    (tryAsk (.head l)).Keeps (onManifests G job lets) i (fun _ => True) fun a w =>
      ∀ info m, a = .ok info → namedManifest G.base64 info.metadata = some m →
        w.state.Settled G.base64 l m := by
  refine tryAsk_keeps (fun _ _ _ _ => trivial) (fun a => ?_) ?_
  · refine (Firm.forall fun info => Firm.forall fun m => ?_).stable
    exact Firm.imp fun _ => Firm.imp fun _ => firm_settled l m
  · rintro a w s hw - - hserve info m rfl hm
    exact settled_of_head hw hserve hm

theorem askHead_settled (l : Loc) :
    (ask (.head l)).Keeps (onManifests G job lets) i (fun _ => True) fun info w =>
      ∀ m, namedManifest G.base64 info.metadata = some m → w.state.Settled G.base64 l m := by
  refine ask_keeps (fun _ _ _ _ => trivial) (fun info => ?_) ?_
  · exact (Firm.forall fun m => Firm.imp fun _ => firm_settled l m).stable
  · intro info w s hw _ _ hserve m hm
    exact settled_of_head hw hserve hm

theorem head_dead (l : Loc) (ms : List Manifest.ID) :
    (tryAsk (.head l)).Keeps (onManifests G job lets) i
      (fun w => ∀ m, m ∈ ms → w.state.Settled G.base64 l m) fun a w =>
      ∀ m, m ∈ ms → Misses G.base64 l m a → w.state.Dead G.base64 l m := by
  refine tryAsk_keeps (fun _ _ _ _ => trivial) (fun a => ?_) ?_
  · refine (Firm.forall fun m => ?_).stable
    exact Firm.imp fun _ => Firm.imp fun _ => firm_dead l m
  · intro a w s hw hk _ hserve m hm hmiss
    have hset := (hk m hm).step (i := i) (Bucket.serve_effect hserve) trivial
    refine ⟨hset, ?_⟩
    rintro ⟨v, hv, hnamed⟩
    cases a with
    | error f =>
      obtain ⟨rfl, hnone⟩ := Bucket.serve_head_none hmiss hserve
      exact absurd (hnone.symm.trans hv) (by simp)
    | ok info =>
      obtain ⟨rfl, v', hv', rfl⟩ := Bucket.serve_head hserve
      obtain rfl := some.inj (hv'.symm.trans hv)
      exact hmiss hnamed

theorem observedManifest_keeps (l : Loc) :
    (observedManifest G l).Keeps (onManifests G job lets) i (fun _ => True)
      fun observed w => ∀ m, observed = some m → w.state.Settled G.base64 l m := by
  refine (head_settled l).bind fun a => .pure fun w _ hk id hid => ?_
  cases a with
  | error f => simp at hid
  | ok info =>
    obtain ⟨m, hm, hid⟩ := bind_eq_some_iff.mp hid
    exact hk info id rfl ((parse_namedManifest (toOption_some.mp hm)).symm.trans hid)

theorem replacedSince_keeps (l : Loc) (observed : Manifest.ID) :
    (replacedSince G l observed).Keeps (onManifests G job lets) i
      (fun w => w.state.Settled G.base64 l observed)
      fun gone w => gone = true → w.state.Dead G.base64 l observed := by
  refine (Act.Keeps.weaken (head_dead l [observed]) ?_).bind fun a => .pure fun w _ hk hgone => ?_
  · intro w _ hk m hm
    rw [mem_singleton.mp hm]
    exact hk
  refine hk observed mem_cons_self ?_
  cases a with
  | error f => exact hgone
  | ok info =>
    obtain ⟨m, hm, hne⟩ := (Option.any_eq_true _ _).mp hgone
    intro hnamed
    exact bne_iff_ne.mp hne ((parse_namedManifest (toOption_some.mp hm)).trans hnamed)

/-! ## Uploads -/

/-- What a program knows of the manifest of the version that its upload `u` is to replace. -/
def OldKnown (E : Base64) (l : Loc) (u : Nat) (old : Option Manifest.ID) (w : CloudWorld) : Prop :=
  ∀ m, old = some m → w.state.Settled E l m ∧ w.state.Behind E l m u

theorem firm_oldKnown (l : Loc) (u : Nat) (old : Option Manifest.ID) :
    Firm (onManifests G job lets) (OldKnown G.base64 l u old) :=
  Firm.forall fun m => Firm.imp fun _ => firm_behind l m u

theorem firm_settledOld (l : Loc) (old : Option Manifest.ID) : Firm (onManifests G job lets)
      fun w => ∀ m, old = some m → w.state.Settled G.base64 l m :=
  Firm.forall fun m => Firm.imp fun _ => firm_settled l m

theorem newID_keeps : (ask .newID).Keeps (onManifests G job lets) i (fun _ => True)
      fun id w => Unused i id w := by
  refine ask_keeps (fun _ _ _ _ => trivial) (fun id => stable_unused i id) ?_
  intro id w s hw _ _ hserve
  obtain ⟨hnew, rfl⟩ := Bucket.serve_newID hserve
  refine ⟨World.asked_now _ _ _ _ _, fun hnamed => ?_⟩
  exact hnew (hw.sane.minted id hnamed)

/-- An upload is opened with an id of its own, or with none. It is ahead of all that has landed. -/
theorem createUpload_keeps (l : Loc) (md : Metadata) (hd : Headers) (id old : Option Manifest.ID)
    (hid : namedManifest G.base64 md = id) :
    (ask (.createUpload l md hd)).Keeps (onManifests G job lets) i
      (fun w => (∀ m, id = some m → Unused i m w) ∧ ∀ m, old = some m → w.state.Settled G.base64 l m)
      fun u w => w.state.Belongs G.base64 u id ∧ OldKnown G.base64 l u old w := by
  subst hid
  have hmay : ∀ w : CloudWorld, (∀ m, namedManifest G.base64 md = some m → Unused i m w) →
      manifestMay G.base64 i w (.createUpload l md hd) := fun w h m hm => h m hm
  refine ask_keeps (fun w _ hk _ => hmay w hk.1) (fun u => ?_) ?_
  · exact ((firm_belongs u _).and (firm_oldKnown l u old)).stable
  · intro u w s hw hk _ hserve
    have he := Bucket.serve_effect hserve
    obtain ⟨rfl, rfl⟩ := Bucket.serve_createUpload hserve
    refine ⟨⟨fun m hm => ?_, Nat.lt_succ_self _, fun up hup => ?_⟩, fun m hm => ⟨?_, ?_⟩⟩
    · exact mem_append_left _ (mem_toList.mpr hm)
    · have hnew : some (⟨l, md, hd, ∅⟩ : Upload) = some up := (AList.lookup_insert _).symm.trans hup
      rw [← some.inj hnew]
    · exact (hk.2 m hm).step he (hmay w hk.1)
    · exact fun _ r x hr => hw.sane.ranks l r x hr

/-- The manifest of an upload is written before the upload is completed. -/
theorem writeManifest_keeps (l : Loc) (u : Nat) (m : Manifest) (dek : Bytes) :
    (writeManifest G l m dek).Keeps (onManifests G job lets) i
      (fun w => w.state.Belongs G.base64 u (some m.id))
      fun _ w => w.state.Belongs G.base64 u (some m.id) ∧ w.state.Covered u l (some m.id) := by
  refine needOk_keeps.bind fun raw => .given fun _ => ?_
  refine ask_keeps (fun w _ hk _ => hk.1 m.id rfl) (fun _ => (firm_covered u l _).stable) ?_
  intro _ w s _ hk _ hserve
  refine ⟨hk.step (Bucket.serve_effect hserve), fun up id _ hid => ?_⟩
  obtain rfl := Bucket.serve_putManifest hserve
  rw [← some.inj hid]
  exact isSome_iff_exists.mpr ⟨_, AList.lookup_insert _⟩

/-- What a completion that was acknowledged means for the version that it was to replace: that is
gone, whether the completion was kept or discarded. -/
theorem complete_keeps (l : Loc) (u : Nat) (parts : List (Nat × Bytes)) (c : Cond) (id old : Option Manifest.ID) :
    (ask (.complete l u parts c)).Keeps (onManifests G job lets) i
      (fun w => (w.state.Belongs G.base64 u id ∧ w.state.Covered u l id) ∧ OldKnown G.base64 l u old w)
      fun _ w => ∀ m, old = some m → some m ≠ id → w.state.Dead G.base64 l m := by
  have hmay : ∀ w : CloudWorld, w.state.Belongs G.base64 u id ∧ w.state.Covered u l id →
      manifestMay G.base64 i w (.complete l u parts c) := by
    intro w h up m hup hm
    exact h.2 up m hup ((h.1.2.2 up (Bucket.uploadAt_eq.mp hup).1).symm.trans hm)
  refine ask_keeps (fun w _ hk _ => hmay w hk.1) (fun _ => ?_) ?_
  · exact (Firm.forall fun m => Firm.imp fun _ => Firm.imp fun _ => firm_dead l m).stable
  · intro _ w s _ hk _ hserve m hm hne
    obtain ⟨hset, hbehind⟩ := hk.2 m hm
    refine ⟨hset.step (Bucket.serve_effect hserve) (hmay w hk.1), ?_⟩
    rintro ⟨v, hv, hnamed⟩
    obtain ⟨up, bs, hup, -, -, -, ⟨hout, -, rfl⟩ | rfl⟩ := Bucket.serve_complete hserve
    · -- discarded: something outranks the upload, so `m` had been replaced before
      obtain ⟨⟨l', r, x⟩, hr, hlt⟩ := any_eq_true.mp hout
      obtain ⟨rfl, hbefore⟩ := of_decide_eq_true hlt
      exact absurd (hbehind ⟨v, hv, hnamed⟩ r x hr) (Nat.lt_asymm hbefore)
    · -- kept: what is visible names the manifest of the upload
      have hv' : some (w.state.completed up bs) = some v := (AList.lookup_insert _).symm.trans hv
      rw [← some.inj hv'] at hnamed
      have hid := hk.1.1.2.2 up (Bucket.uploadAt_eq.mp hup).1
      exact hne (hnamed.symm.trans hid)

theorem deleteManifest_keeps (l : Loc) (m : Manifest.ID) :
    (bestEffort (.deleteManifest l m)).Keeps (onManifests G job lets) i
      (fun w => w.state.Dead G.base64 l m) fun _ _ => True :=
  bestEffort_keeps Firm.const (fun _ _ hk _ => hk) fun _ _ _ => trivial

/-! ## Requests of clients -/

section

variable (r : PutRequest)

theorem putObject_manifests : (putObject G r).Tame (onManifests G job lets) i := by
  have hq := manifestRules_quiet G.base64 i
  refine (clientMetadata_keeps _).bind fun md => .given fun hmd => ?_
  refine storedLoc_asks.tame.bind fun l => ?_
  refine need_asks.tame.bind fun kid => ?_
  refine (ask_tame (hq _ rfl)).bind fun dek => ?_
  refine (wrapDEK_asks hq _ _ _ _).tame.bind fun wrapped => ?_
  refine (writeTagsBeforeObject_asks G _ (fun _ _ _ => trivial) _ _ _ _ _).tame.bind fun _ => ?_
  refine (sealSegment_asks G hq _ _ _).tame.bind fun sealed => ?_
  refine (ask_tame fun w => ?_).bind fun _ => .pure ()
  exact namedManifest_merge hmd (newMeta G kid wrapped none)

end

theorem dead_of_delete (h : w.state.Settled G.base64 l m)
    (hserve : w.state.serve G.toBackend G.base64 (.delete l) (.ok ()) s) :
    s.Dead G.base64 l m := by
  refine ⟨h.step (i := 0) (Bucket.serve_effect hserve) trivial, ?_⟩
  rintro ⟨v, hv, -⟩
  obtain rfl := Bucket.serve_delete hserve
  exact absurd ((AList.lookup_erase _ _).symm.trans hv) (by simp)

theorem delete_dead (l : Loc) (id : Option Manifest.ID) :
    (tryAsk (.delete l)).Keeps (onManifests G job lets) i
      (fun w => ∀ m, id = some m → w.state.Settled G.base64 l m)
      fun a w => ∀ r, a = .ok r → ∀ m, id = some m → w.state.Dead G.base64 l m := by
  refine tryAsk_keeps (fun _ _ _ _ => trivial) (fun a => ?_) ?_
  · refine (Firm.forall fun r => Firm.imp fun _ => Firm.forall fun m => ?_).stable
    exact Firm.imp fun _ => firm_dead l m
  · rintro a w s - hk - hserve r rfl m hm
    exact dead_of_delete (hk m hm) hserve

theorem deleteObject_manifests (bucket key : Bytes) :
    (deleteObject G bucket key).Tame (onManifests G job lets) i := by
  refine storedLoc_asks.tame.bind fun l => ?_
  refine (observedManifest_keeps l).bind fun observed => ?_
  have hdead : Firm (onManifests G job lets)
      fun w => ∀ m, observed = some m → w.state.Dead G.base64 l m :=
    Firm.forall fun m => Firm.imp fun _ => firm_dead l m
  refine (ask_keeps (fun _ _ _ _ => trivial) (fun _ => hdead.stable) ?_).bind fun _ => ?_
  · intro _ w s _ hk _ hserve m hm
    exact dead_of_delete (hk m hm) hserve
  · cases observed with
    | none => exact .pure fun _ _ _ => trivial
    | some id => exact (deleteManifest_keeps l id).weaken fun _ _ hk => hk id rfl

theorem createMultipartUpload_manifests (r : CreateRequest) :
    (createMultipartUpload G r).Tame (onManifests G job lets) i := by
  have hq := manifestRules_quiet G.base64 i
  refine (clientMetadata_keeps _).bind fun md => .given fun hmd => ?_
  refine storedLoc_asks.tame.bind fun l => ?_
  refine need_asks.tame.bind fun kid => ?_
  refine (ask_tame (hq _ rfl)).bind fun dek => ?_
  refine (wrapDEK_asks hq _ _ _ _).tame.bind fun wrapped => ?_
  refine Act.Keeps.bind newID_keeps fun id => ?_
  have htags := writeTagsBeforeObject_asks (C := fun q => ∃ dek raw, q = .putSidecar l dek raw) G l
    (fun dek raw => ⟨dek, raw, rfl⟩) r.bucket r.key (newMeta G kid wrapped (some id)) dek r.tags
  refine (htags.keeps (stable_unused i id) ?_ ?_).bind fun _ => ?_
  · rintro q w ⟨dek, raw, rfl⟩ - - -
    trivial
  · rintro q a w s ⟨dek, raw, rfl⟩ - hk - hserve
    exact hk.after hserve (by simp)
  have hid := namedManifest_merge (E := G.base64) hmd (newMeta G kid wrapped (some id))
  refine .bind (.weaken (createUpload_keeps l _ r.headers (some id) none hid) ?_)
    (fun u => ?_)
  · intro w _ hk
    refine ⟨fun m hm => ?_, fun m hm => absurd hm (by simp)⟩
    rw [← some.inj hm]
    exact hk
  · exact ask_keeps (fun w _ hk _ => hk.1) (fun _ => Stable.true) fun _ _ _ _ _ _ _ => trivial

theorem uploadPart_manifests (r : PartRequest) : (uploadPart G r).Tame (onManifests G job lets) i :=
  (uploadPart_asks G (manifestRules_quiet _ i) r (fun _ _ _ _ => trivial) fun _ _ => trivial).tame

theorem abortMultipartUpload_manifests (t : Token) :
    (abortMultipartUpload G t).Tame (onManifests G job lets) i :=
  (abortMultipartUpload_asks G t fun _ _ _ => trivial).tame

theorem dropReplaced_keeps (l : Loc) (own : Manifest.ID) (observed : Option Manifest.ID) :
    (dropReplaced G l own observed).Keeps (onManifests G job lets) i
      (fun w => ∀ m, observed = some m → w.state.Settled G.base64 l m) fun _ _ => True := by
  cases observed with
  | none => exact .pure fun _ _ _ => trivial
  | some m =>
    unfold dropReplaced
    dsimp only
    split
    · exact .pure fun _ _ _ => trivial
    · refine ((replacedSince_keeps l m).weaken fun _ _ hk => hk m rfl).bind fun gone => ?_
      cases gone with
      | false => exact .pure fun _ _ _ => trivial
      | true => exact (deleteManifest_keeps l m).weaken fun _ _ hk => hk rfl

theorem completeMultipartUpload_manifests (r : CompleteRequest) :
    (completeMultipartUpload G r).Keeps (onManifests G job lets) i
      (fun w => w.state.Belongs G.base64 r.token.uploadID (some r.token.manifestID)) fun _ _ => True := by
  have hq := manifestRules_quiet G.base64 i
  have hb : Firm (onManifests G job lets) _ :=
    firm_belongs r.token.uploadID (some r.token.manifestID)
  refine (storedLoc_asks.tame.frame hb).bind fun l => ?_
  refine ((unwrapDEK_asks _ _ _ _ _).tame.frame hb).bind fun dek => ?_
  refine (require_asks.tame.frame hb).bind fun _ => ?_
  refine (require_asks.tame.frame hb).bind fun _ => ?_
  refine ((ask_tame (hq _ rfl)).frame hb).bind fun stored => ?_
  refine (needOk_asks.tame.frame hb).bind fun matched => ?_
  refine (needOk_asks.tame.frame hb).bind fun parts => ?_
  refine ((observedManifest_keeps l).beside hb).bind fun observed => ?_
  have hobs : Firm (onManifests G job lets) _ := firm_settledOld l observed
  refine .bind (((writeManifest_keeps l _ _ dek).frame hobs).weaken fun _ _ hk => hk.symm)
    (fun _ => ?_)
  refine .bind (((complete_keeps l _ _ _ (some r.token.manifestID) none).frame hobs).weaken ?_)
    (fun _ => ?_)
  · exact fun w _ hk => ⟨⟨hk.1, fun _ h => absurd h (by simp)⟩, hk.2⟩
  · exact (dropReplaced_keeps l _ observed).weaken fun _ _ hk => hk.2

/-! ## Copies -/

theorem copyWhole_manifests (r : CopyRequest) (next : Meta) (hnext : next.manifestID = none) :
    (copyWhole G r next).Tame (onManifests G job lets) i := by
  refine (tryAsk_tame fun w => ?_).bind fun a => ?_
  · exact (namedManifest_mergeUser r.dest.userMetadata next).trans hnext
  · cases a with
    | ok _ => exact .pure _
    | error f => cases f <;> exact .throw _

/-- A version without a manifest keeps none; any other gets one of its own. -/
theorem nextVersion_keeps (r : CopyRequest) (next : Meta) (dek : Bytes)
    (hnext : next.manifestID = r.source.info_meta.manifestID) :
    (nextVersion G r next dek).Keeps (onManifests G job lets) i (fun _ => True)
      fun version w => (version.2 = none → version.1.manifestID = none)
        ∧ ∀ m, version.1.manifestID = some m → Unused i m w := by
  have hq := manifestRules_quiet G.base64 i
  unfold nextVersion
  cases hid : r.source.info_meta.manifestID with
  | none =>
    rw [hid] at hnext
    exact .pure fun _ _ _ => ⟨fun _ => hnext, fun m hm => absurd (hnext.symm.trans hm) (by simp)⟩
  | some id =>
    refine .bind (loadParts_asks G hq _ _ _).tame fun parts => ?_
    refine .bind newID_keeps (fun newId => .pure fun w _ hk => ⟨?_, fun m hm => ?_⟩)
    · exact by simp
    · rw [← some.inj hm]
      exact hk

theorem writeNextManifest_keeps (r : CopyRequest) (next : Meta) (dek : Bytes)
    (layout : Option (List Part)) (u : Nat) (hlayout : layout = none → next.manifestID = none) :
    (writeNextManifest G r next dek layout).Keeps (onManifests G job lets) i
      (fun w => w.state.Belongs G.base64 u next.manifestID)
      fun _ w => w.state.Belongs G.base64 u next.manifestID
        ∧ w.state.Covered u r.dest.loc next.manifestID := by
  unfold writeNextManifest
  cases hid : next.manifestID with
  | none =>
    have hnone : ∀ w : CloudWorld, w.state.Covered u r.dest.loc none := fun _ _ _ _ h => absurd h (by simp)
    cases layout with
    | none | some parts => exact .pure fun w _ hk => ⟨hk, hnone w⟩
  | some id =>
    cases layout with
    | none => exact absurd ((hlayout rfl).symm.trans hid) (by simp)
    | some parts => exact writeManifest_keeps r.dest.loc u ⟨_, _, id, parts, false⟩ dek

theorem publishUpload_keeps (r : CopyRequest) (next : Meta) (dek : Bytes)
    (layout : Option (List Part)) (u : Nat) (old : Option Manifest.ID)
    (hlayout : layout = none → next.manifestID = none) :
    (publishUpload G r next dek layout u).Keeps (onManifests G job lets) i
      (fun w => w.state.Belongs G.base64 u next.manifestID ∧ OldKnown G.base64 r.dest.loc u old w)
      fun _ w => ∀ m, old = some m → some m ≠ next.manifestID → w.state.Dead G.base64 r.dest.loc m := by
  have hq := manifestRules_quiet G.base64 i
  have hold : Firm (onManifests G job lets) _ := firm_oldKnown r.dest.loc u old
  have hcov : Firm (onManifests G job lets) _ :=
    firm_covered u r.dest.loc next.manifestID
  refine .bind (((copyParts_asks r u layout fun _ _ _ => trivial).tame.mapErr _).frame ((firm_belongs _ _).and hold))
    (fun completed => ?_)
  refine ((writeNextManifest_keeps r next dek layout u hlayout).frame hold).bind fun _ => ?_
  refine ((yieldIf_asks hq _ _ _).tame.frame (hcov.and hold)).bind fun _ => ?_
  refine ((complete_keeps r.dest.loc u completed _ next.manifestID old).mapErr _).bind fun _ => ?_
  exact .pure fun _ _ hk => hk

theorem dropOld_keeps (l : Loc) (next : Meta) (old : Option Manifest.ID) :
    (dropOld l next old).Keeps (onManifests G job lets) i
      (fun w => ∀ m, old = some m → some m ≠ next.manifestID → w.state.Dead G.base64 l m)
      fun _ _ => True := by
  cases old with
  | none => exact .pure fun _ _ _ => trivial
  | some m =>
    unfold dropOld
    dsimp only
    split
    · exact .pure fun _ _ _ => trivial
    next hne =>
      exact (deleteManifest_keeps l m).weaken fun _ _ hk => hk m rfl hne

theorem publish_keeps (r : CopyRequest) (next : Meta) (dek : Bytes)
    (hnext : next.manifestID = r.source.info_meta.manifestID) :
    (publish G r next dek).Keeps (onManifests G job lets) i
      (fun w => ∀ m, r.replacedManifest = some m → w.state.Settled G.base64 r.dest.loc m)
      fun _ _ => True := by
  have hq := manifestRules_quiet G.base64 i
  have hold : Firm (onManifests G job lets) _ :=
    firm_settledOld r.dest.loc r.replacedManifest
  refine ((writeTags_asks G hq r (fun _ _ _ => trivial) next dek).tame.frame hold).bind fun _ => ?_
  split
  next hsmall =>
    have hnone : next.manifestID = none := by
      rw [hnext]
      exact not_isSome_iff_eq_none.mp (by simpa [Meta.multipart] using hsmall.1)
    exact (copyWhole_manifests r next hnone).weaken fun _ _ _ => trivial
  · refine ((nextVersion_keeps r next dek hnext).beside hold).bind fun version => ?_
    have hmd := namedManifest_mergeUser (E := G.base64) r.dest.userMetadata version.1
    refine .weaken (.given fun hlayout => ?_)
      (fun w _ hk => (⟨hk.1.1, hk.1.2, hk.2⟩ : _ ∧ _ ∧ _))
    refine (createUpload_keeps _ _ _ _ r.replacedManifest hmd).bind fun u => ?_
    refine .bind (orAbort_keeps (fun _ _ _ => trivial)
      (publishUpload_keeps r version.1 dek version.2 u r.replacedManifest hlayout) _ _) (fun _ => ?_)
    refine (dropOld_keeps r.dest.loc version.1 r.replacedManifest).bind fun _ => ?_
    exact Act.Tame.pure _

theorem copyDo_keeps (r : CopyRequest) : (copyDo G r).Keeps (onManifests G job lets) i
      (fun w => ∀ m, r.replacedManifest = some m → w.state.Settled G.base64 r.dest.loc m)
      fun _ _ => True := by
  have hq := manifestRules_quiet G.base64 i
  have hold : Firm (onManifests G job lets) _ :=
    firm_settledOld r.dest.loc r.replacedManifest
  refine (require_asks.tame.frame hold).bind fun _ => ?_
  refine (require_asks.tame.frame hold).bind fun _ => ?_
  refine (needOk_asks.tame.frame hold).bind fun _ => ?_
  refine ((rewrap_keeps G hq r).beside hold).bind fun wrapped => .given ?_
  rintro ⟨k, hk⟩
  exact publish_keeps r wrapped.1 wrapped.2 (by rw [hk])

end BlindBucket.Cloud
