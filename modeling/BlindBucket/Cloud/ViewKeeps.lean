import BlindBucket.Cloud.ViewRules

/-!
# Copies of an object onto itself

A copy writes the sidecar of its version under a name of its own before it publishes the version. What
it publishes is seen with the metadata and headers that it was given and with the tags that it wrote.
-/

namespace BlindBucket.Cloud

open BlindBucket.Stream ObjectMeta Service

variable {G : Site} {T : Target G} {job : Nat → Job} {lets : Lets} {i : Nat}

/-! ## What does not depend on one's own sidecar -/

variable {H : CloudWorld → Prop} {α : Type} {p : Call α} {Good : α → CloudWorld → Prop} {n dek : Bytes}
  {w : CloudWorld} {s : Bucket} {cr : CopyRequest}

theorem Held.frame_prog {K : CloudWorld → Prop} (hH : Held G T job lets i H) {p : Prog Req Answer α}
    {Post : α → CloudWorld → Prop} (hasks : p.Asks fun q => q.calm = true)
    (h : p.Keeps (onView T job lets) i K Post) :
    p.Keeps (onView T job lets) i (fun w => K w ∧ H w)
      fun a w => Post a w ∧ H w := by
  induction p generalizing K with
  | done a => exact fun w hw hk => ⟨h w hw hk.1, hk.2⟩
  | ask q next ih =>
    refine ⟨fun w hw hk => h.1 w hw hk.1, fun a => ?_⟩
    obtain ⟨K', hst, hest, hkeeps⟩ := h.2 a
    refine ⟨fun w => K' w ∧ H w, hst.and hH.stable, ?_, ih a (hasks.2 a) hkeeps⟩
    intro w s hw hk hlets hserve
    exact ⟨hest w s hw hk.1 hlets hserve, hH.own w q a s hasks.1 hk.2 hserve⟩

theorem Held.frame {K : CloudWorld → Prop} (hH : Held G T job lets i H) (hasks : p.Asks fun q => q.calm = true)
    (h : p.Keeps (onView T job lets) i K Good) :
    p.Keeps (onView T job lets) i (fun w => K w ∧ H w)
      fun a w => Good a w ∧ H w :=
  Prog.Keeps.imp (hH.frame_prog hasks h) fun _ _ _ hr a ha => ⟨hr.1 a ha, hr.2⟩

theorem Held.ends {K : CloudWorld → Prop} (hH : Held G T job lets i H) (hasks : p.Asks fun q => q.calm = true)
    (h : p.Keeps (onView T job lets) i K Good) :
    p.Ends (onView T job lets) i (fun w => K w ∧ H w)
      (fun a w => Good a w ∧ H w) H := by
  refine Prog.Keeps.imp (hH.frame_prog hasks h) fun r w _ hr => ?_
  cases r with
  | ok a => exact ⟨hr.1 a rfl, hr.2⟩
  | error e => exact hr.2

/-- What is known of the source of a copy: it is not undone by one's own requests as long as they
leave the visible version and the sidecars of names in use alone. -/
structure Source.Fact (G : Site) (T : Target G) (job : Nat → Job) (lets : Lets)
    (i : Nat) (F : CloudWorld → Prop) : Prop where
  stable : Stable (onView T job lets) i F
  gentle : ∀ w q a s, F w → w.state.serve G.toBackend G.base64 q a s →
    s.visible = w.state.visible →
    (∀ n, Used n w → s.sidecars.lookup (T.loc, n) = w.state.sidecars.lookup (T.loc, n)) →
    F (w.after i q a s)

theorem Source.Fact.held {F : CloudWorld → Prop} (h : Source.Fact G T job lets i F) : Held G T job lets i F where
  stable := h.stable
  own w q a s hq hk hserve := by
    obtain ⟨hvis, hside⟩ := (Bucket.serve_effect hserve).calm hq
    exact h.gentle w q a s hk hserve hvis fun n _ => by rw [hside]

theorem Source.Fact.const {P : Prop} : Source.Fact G T job lets i fun _ => P where
  stable := Stable.const
  gentle _ _ _ _ hk _ _ _ := hk

theorem Source.Fact.and {F F' : CloudWorld → Prop} (h : Source.Fact G T job lets i F)
    (h' : Source.Fact G T job lets i F') : Source.Fact G T job lets i fun w => F w ∧ F' w where
  stable := h.stable.and h'.stable
  gentle w q a s hk hserve hvis hside :=
    ⟨h.gentle w q a s hk.1 hserve hvis hside, h'.gentle w q a s hk.2 hserve hvis hside⟩

/-! ## Tags -/

section

variable {F : CloudWorld → Prop} (hF : Source.Fact G T job lets i F)

include hF

variable {P : Option Blob → Prop}

/-- The sidecar of a version is written under the version's own name. -/
theorem putSidecar_view (hj : (job i).isTag = false) {raw : Bytes} {P' : Option Blob → Prop}
    (hP : ∀ t, P' (some ⟨raw, t⟩)) :
    (ask (.putSidecar T.loc n raw)).Keeps (onView T job lets) i
      (fun w => Ready T i n P w ∧ F w) fun _ w => Ready T i n P' w ∧ F w := by
  refine ask_keeps (fun w _ _ _ htag => absurd (hj.symm.trans htag) (by simp))
    (fun _ => (ready_held n P').stable.and hF.stable) ?_
  intro r w s _ hk _ hserve
  obtain ⟨⟨hfresh, -⟩, hf⟩ := hk
  obtain rfl := Bucket.serve_putSidecar hserve
  refine ⟨⟨hfresh.after rfl hserve, ?_⟩, hF.gentle w _ _ _ hf hserve rfl fun n' hn' => ?_⟩
  · change P' ((w.state.sidecars.insert (T.loc, n) ⟨raw, w.state.now⟩).lookup (T.loc, n))
    rw [AList.lookup_insert]
    exact hP _
  · have hne : (T.loc, n') ≠ (T.loc, n) := by
      intro he
      rw [(Prod.mk.inj he).2] at hn'
      exact hfresh.unused hn'
    exact AList.lookup_insert_ne hne

/-- What a copy writes as tags is what is read back. -/
theorem writeTagsBeforeObject_view (hj : (job i).isTag = false) (m : Meta) (dek : Bytes) (set : List Tag) :
    (writeTagsBeforeObject G T.loc T.bucket T.key m dek set).Keeps (onView T job lets) i
      (fun w => Ready T i (G.base64.encode m.wrappedDEK) (fun b => b = none) w ∧ F w)
      fun _ w => Ready T i (G.base64.encode m.wrappedDEK)
        (fun b => tagsOf G T.bucket T.key b dek = .ok (sortTags set)) w ∧ F w := by
  unfold writeTagsBeforeObject
  split
  next hnil =>
    subst hnil
    refine .pure fun w _ hk => ⟨⟨hk.1.1, ?_⟩, hk.2⟩
    rw [hk.1.2]
    rfl
  · refine need_keeps.bind fun raw => .given fun hraw => ?_
    refine putSidecar_view hF hj fun t => ?_
    have hopen := G.tags.open_seal _ _ _ _ _ hraw
    unfold tagsOf
    dsimp only
    rw [hopen]
    exact congrArg Except.ok (Tags.sorted_sorted set)

/-! ## Uploads -/

theorem createUpload_view (P : Option Blob → Prop) (md : Metadata) (hd : Headers) (hn : storedDEK md = n)
    (hj : (job i).isCreate = false) :
    (ask (.createUpload T.loc md hd)).Keeps (onView T job lets) i
      (fun w => Ready T i n P w ∧ F w) fun u w => Pending T i u md hd P w ∧ F w := by
  subst hn
  refine ask_keeps (fun _ _ _ _ => trivial) (fun u => (pending_held hj u md hd P).stable.and hF.stable) ?_
  intro u w s _ hk _ hserve
  obtain ⟨⟨hfresh, hside⟩, hf⟩ := hk
  have hserve' := hserve
  obtain ⟨rfl, rfl⟩ := Bucket.serve_createUpload hserve
  refine ⟨⟨World.asked_now _ _ _ _ _, ?_, ?_, ?_, hside⟩, hF.gentle w _ _ _ hf hserve' rfl fun _ _ => rfl⟩
  · exact World.ever_after.mpr (.inr (.inr ⟨w.state.clock, _, AList.lookup_insert _, rfl⟩))
  · intro hseen
    have hseen : SeenAs T (storedDEK md) w.state := hseen
    exact hfresh.unused hseen.used
  · intro u' up hup hname
    by_contra hne
    have hup : (w.state.uploads.insert w.state.clock ⟨T.loc, md, hd, ∅⟩).lookup u' = some up := hup
    rw [AList.lookup_insert_ne hne] at hup
    exact hfresh.unused (.inl (.inr ⟨u', up, hup, hname⟩))

omit hF in
theorem complete_view {u : Nat} {md : Metadata} {hd : Headers} (parts : List (Nat × Bytes)) (c : Cond) (hland : ∀ w, (viewRules T job).inv w → (wrapSystem G job lets).lets i w (.complete T.loc u parts c) →
      F w → P (w.state.sidecars.lookup (T.loc, storedDEK md)) → w.state.admits G.toBackend T.loc c = .ok () →
      MayLand T job i w md hd) :
    (ask (.complete T.loc u parts c)).Keeps (onView T job lets) i
      (fun w => Pending T i u md hd P w ∧ F w) fun _ _ => True := by
  refine ask_keeps (fun w hw hk hlets => ?_) (fun _ => Stable.true) fun _ _ _ _ _ _ _ => trivial
  intro up hup hadmits
  obtain ⟨-, hmd, hhd⟩ := hw.1.1.same i u T.loc md hd up hk.1.opened (Bucket.uploadAt_eq.mp hup).1
  rw [hmd, hhd]
  exact hland w hw hlets hk.2 hk.1.sidecar hadmits

end

/-! ## The copy -/

/-- A copy of the object onto itself. -/
structure SelfCopy (T : Target G) (r : CopyRequest) : Prop where
  srcBucket : r.source.bucket = T.bucket
  srcKey : r.source.key = T.key
  srcStored : r.source.storedKey = T.stored
  dstBucket : r.dest.bucket = T.bucket
  dstKey : r.dest.key = T.key
  dstStored : r.dest.storedKey = T.stored
  parsed : G.parse r.source.info.metadata = .ok r.source.info_meta

theorem SelfCopy.srcLoc {r : CopyRequest} (h : SelfCopy T r) : r.source.loc = T.loc :=
  congrArg₂ Loc.mk h.srcBucket h.srcStored

theorem SelfCopy.dstLoc {r : CopyRequest} (h : SelfCopy T r) : r.dest.loc = T.loc :=
  congrArg₂ Loc.mk h.dstBucket h.dstStored

theorem no_sidecar_of_wrap (hw : WrapInv G.base64 w) {kid aad x : Bytes}
    (hserve : w.state.serve G.toBackend G.base64 (.wrap kid dek aad) (.ok x) s) (l : Loc) :
    s.sidecars.lookup (l, G.base64.encode x) = none := by
  obtain ⟨-, hnew, rfl⟩ := Bucket.serve_wrap hserve
  cases hb : w.state.sidecars.lookup (l, G.base64.encode x) with
  | none => rfl
  | some b =>
    obtain ⟨y, hy, hxy⟩ := hw.sidecars l _ b hb
    rw [G.base64.encode_inj hxy] at hnew
    exact absurd hy hnew

variable {K : CloudWorld → Prop}

theorem wrapDEK_view (hsize : G.keys.Sized) (kid dek : Bytes) (hK : Held G T job lets i K) :
    (wrapDEK T.bucket T.key kid dek).Keeps (onView T job lets) i K fun x w =>
      (∃ aad, Keys.objectAAD kid T.bucket T.key = .ok aad ∧ x.length = wrappedDEKSize
        ∧ G.keys.unwrap kid x aad = some dek)
        ∧ Ready T i (G.base64.encode x) (fun b => b = none) w ∧ K w := by
  refine needOk_keeps.bind fun aad => .given fun haad => ?_
  refine ask_keeps (fun _ _ _ _ => trivial)
    (fun x => Stable.const.and ((ready_held _ _).stable.and hK.stable)) ?_
  intro x w s hw hk _ hserve
  obtain ⟨⟨nonce, hx⟩, -, -⟩ := Bucket.serve_wrap hserve
  exact ⟨⟨aad, haad, hsize _ _ _ _ _ hx, G.keys.unwrap_wrap _ _ _ _ _ hx⟩,
    ⟨fresh_of_wrap hsize hw.1.2 hserve, no_sidecar_of_wrap hw.1.2 hserve T.loc⟩,
    hK.own w _ _ s rfl hk hserve⟩

/-- The wrapped key of a copy is a new one, and unwraps to the data key of the source. -/
theorem rewrap_view (hsize : G.keys.Sized) {r : CopyRequest} (hr : SelfCopy T r)
    (hkid : validateKID r.dest.keyID = .ok ()) (hK : Held G T job lets i K) :
    (rewrap G r).Keeps (onView T job lets) i K fun wrapped w =>
      (dekOf G T.bucket T.key r.source.info.metadata = .ok wrapped.2 ∧ Carries T wrapped.2 wrapped.1)
        ∧ Ready T i (G.base64.encode wrapped.1.wrappedDEK) (fun b => b = none) w ∧ K w := by
  have hparses := parse_ok hr.parsed
  unfold rewrap
  rw [hr.srcBucket, hr.srcKey, hr.dstBucket, hr.dstKey]
  refine (unwrapDEK_keeps G _ _ _ _).bind fun dek => .given fun hdek => ?_
  refine (wrapDEK_view hsize r.dest.keyID dek hK).bind fun x => ?_
  refine .pure fun w _ hk => ?_
  obtain ⟨⟨aad, haad, hlen, hun⟩, hready⟩ := hk
  exact ⟨⟨dekOf_of_parse hr.parsed hdek, hparses.version, hkid, hlen, hparses.log2, aad, haad, hun⟩, hready⟩

/-- The next version differs from the source in its wrapped key and its manifest. -/
theorem nextVersion_view (r : CopyRequest) (next : Meta) (dek : Bytes) (hK : Held G T job lets i K) :
    (nextVersion G r next dek).Keeps (onView T job lets) i K
      fun version w => (∃ id, version.1 = { next with manifestID := id }) ∧ K w := by
  unfold nextVersion
  cases r.source.info_meta.manifestID with
  | none => exact .pure fun w _ hk => ⟨⟨next.manifestID, rfl⟩, hk⟩
  | some id =>
    refine (hK.keeps (loadParts_asks G calm_quiet _ _ _)).bind fun parts => ?_
    refine (hK.keeps (ask_asks rfl)).bind fun newId => ?_
    exact .pure fun w _ hk => ⟨⟨some newId, rfl⟩, hk⟩

section

variable {r : CopyRequest} {F : Bytes → List Tag → CloudWorld → Prop}

/-- What is seen of a version that a copy writes with these tags. -/
def CopyRequest.shows (r : CopyRequest) (set : List Tag) : View :=
  ⟨userMetadataOf r.dest.userMetadata, r.dest.headers, .ok (sortTags set)⟩

/-- A copy of which it is known what it may show when it lands. -/
structure Lands (T : Target G) (job : Nat → Job) (lets : Lets) (i : Nat)
    (r : CopyRequest) (F : Bytes → List Tag → CloudWorld → Prop) : Prop where
  fact : ∀ dek set, Source.Fact G T job lets i (F dek set)
  whole : r.destIfMatch = [] → ∀ w dek set, F dek set w → MayShow T job i w (r.shows set)
  upload : ∀ w dek set u parts, (viewRules T job).inv w →
    (wrapSystem G job lets).lets i w (.complete T.loc u parts ⟨r.destIfMatch, r.destIfNoneMatch⟩) →
    F dek set w → w.state.admits G.toBackend T.loc ⟨r.destIfMatch, r.destIfNoneMatch⟩ = .ok () →
    MayShow T job i w (r.shows set)

variable (hr : SelfCopy T r) (hF : Lands T job lets i r F) (hj : (job i).publishes = true)

include hr hF hj

theorem publishUpload_view (next : Meta) (dek dek' : Bytes) (layout : Option (List Part)) (u : Nat)
    (set : List Tag) (hc : Carries T dek next) :
    (publishUpload G r next dek' layout u).Keeps (onView T job lets) i
      (fun w => Pending T i u (mergeMetadata G.base64 (userMetadataOf r.dest.userMetadata) next) r.dest.headers
        (fun b => tagsOf G T.bucket T.key b dek = .ok (sortTags set)) w ∧ F dek set w)
      fun _ _ => True := by
  have hcreate := Job.publishes_isCreate hj
  have hK := (pending_held hcreate u (mergeMetadata G.base64 (userMetadataOf r.dest.userMetadata) next)
    r.dest.headers (fun b => tagsOf G T.bucket T.key b dek = .ok (sortTags set))).and (hF.fact dek set).held
  refine .bind (.mapErr (hK.keeps (copyParts_asks r u layout fun _ _ => rfl)) _)
    (fun completed => ?_)
  refine (hK.keeps (writeNextManifest_asks G r next dek' layout fun _ _ => rfl)).bind fun _ => ?_
  refine (hK.keeps (yieldIf_asks calm_quiet _ _ _)).bind fun _ => ?_
  rw [hr.dstLoc]
  refine (Act.Keeps.mapErr (complete_view completed _ ?_) _).bind fun _ => Act.Tame.pure _
  intro w hw hlets hf hside hadmits
  unfold MayLand
  rw [viewOf_merge hc _ _ hside]
  exact hF.upload w dek set u completed hw hlets hf hadmits

/-- A version is published with the tags that were written for it. -/
theorem publish_view (next : Meta) (dek : Bytes) (hc : Carries T dek next)
    (htags : (copiedTags G r dek).Keeps (onView T job lets) i K (F dek)) :
    (publish G r next dek).Keeps (onView T job lets) i
      (fun w => Ready T i (G.base64.encode next.wrappedDEK) (fun b => b = none) w ∧ K w)
      fun _ _ => True := by
  have htag := Job.publishes_isTag hj
  have hcreate := Job.publishes_isCreate hj
  have huser : ∀ e ∈ userMetadataOf r.dest.userMetadata, reserved e.1 = false :=
    fun _ he => userMetadataOf_not_reserved he
  have hready : Held G T job lets i (Ready T i (G.base64.encode next.wrappedDEK) fun b => b = none) :=
    ready_held _ _
  have hwrite : (writeTags G r next dek).Keeps (onView T job lets) i
      (fun w => Ready T i (G.base64.encode next.wrappedDEK) (fun b => b = none) w ∧ K w)
      fun _ w => ∃ set, Ready T i (G.base64.encode next.wrappedDEK)
        (fun b => tagsOf G T.bucket T.key b dek = .ok (sortTags set)) w ∧ F dek set w := by
    unfold writeTags
    rw [hr.dstLoc, hr.dstBucket, hr.dstKey]
    refine ((hready.frame (copiedTags_asks G calm_quiet r dek) htags).weaken ?_).bind fun set => ?_
    · exact fun w _ hk => hk.symm
    · refine .imp ((writeTagsBeforeObject_view (hF.fact dek set) htag next dek set).weaken ?_) ?_
      · exact fun w _ hk => hk.symm
      · exact fun _ w _ hk => ⟨set, hk⟩
  refine .bind hwrite fun _ => .exists fun set => ?_
  have hK := (ready_held (G.base64.encode next.wrappedDEK)
    fun b => tagsOf G T.bucket T.key b dek = .ok (sortTags set)).and (hF.fact dek set).held
  split
  next hsmall =>
    refine .bind (tryAsk_keeps (fun w _ hk _ => ?_) (fun _ => Stable.true)
      fun _ _ _ _ _ _ _ => trivial) (fun a => ?_)
    · change MayLand T job i w _ _
      unfold MayLand
      rw [storedDEK_merge huser, viewOf_merge hc _ _ hk.1.2]
      exact hF.whole hsmall.2.1 w dek set hk.2
    · cases a with
      | ok _ => exact Act.Tame.pure _
      | error f => cases f <;> exact Act.Tame.throw _
  · refine (nextVersion_view r next dek hK).bind fun version => .given fun hv => ?_
    obtain ⟨id, hv⟩ := hv
    have hcv : Carries T dek version.1 := by
      rw [hv]
      exact ⟨hc.version, hc.kid, hc.size, hc.log2, hc.unwraps⟩
    have hname : G.base64.encode version.1.wrappedDEK = G.base64.encode next.wrappedDEK := by rw [hv]
    rw [hr.dstLoc]
    refine .bind (createUpload_view (hF.fact dek set) _ _ _
      ((storedDEK_merge huser version.1).trans hname) hcreate) (fun u => ?_)
    refine .bind (orAbort_keeps (fun _ _ _ => trivial)
      (publishUpload_view hr hF hj version.1 dek dek version.2 u set hcv) _ _) (fun _ => ?_)
    refine .bind ?_ (fun _ => Act.Tame.pure _)
    exact (dropOld_asks _ _ _ fun _ _ => trivial).tame

/-- **A copy of an object onto itself lands only as it may.** -/
theorem copyDo_view (hsize : G.keys.Sized) (hK : Held G T job lets i K)
    (htags : ∀ dek, dekOf G T.bucket T.key r.source.info.metadata = .ok dek →
      (copiedTags G r dek).Keeps (onView T job lets) i K (F dek)) :
    (copyDo G r).Keeps (onView T job lets) i K fun _ _ => True := by
  refine (hK.keeps require_asks).bind fun _ => ?_
  refine (hK.keeps require_asks).bind fun _ => ?_
  refine needOk_keeps.bind fun _ => .given fun hkid => ?_
  refine (rewrap_view hsize hr hkid hK).bind fun wrapped => .given fun hwrapped => ?_
  exact publish_view hr hF hj wrapped.1 wrapped.2 hwrapped.2 (htags wrapped.2 hwrapped.1)

end

/-! ## A copy of a client's -/

/-- A copy that a client asked for shows what it was asked for. -/
theorem copyDo_asked (hsize : G.keys.Sized) {r : CopyObjectRequest} (hself : SelfCopy T cr) (hj : job i = .copy r)
    (hrep : r.replaced = some (cr.dest.userMetadata, cr.dest.headers))
    (hmd : ∀ e ∈ cr.dest.userMetadata, reserved e.1 = false) (hmode : cr.tagMode = r.tagMode) :
    (copyDo G cr).Tame (onView T job lets) i := by
  have hasked : ∀ w set, (∀ set', r.tagMode = .replace set' → set = set') → MayShow T job i w (cr.shows set) := by
    intro w set hset
    have huser : userMetadataOf cr.dest.userMetadata = cr.dest.userMetadata :=
      List.filter_eq_self.mpr fun e he => by rw [hmd e he]; rfl
    unfold MayShow CopyRequest.shows
    rw [hj, huser]
    exact ⟨_, _, hrep, rfl, rfl, fun set' h => by rw [hset set' h]⟩
  have hF : Lands T job lets i cr fun _ set _ => ∀ set', r.tagMode = .replace set' → set = set' :=
    ⟨fun _ _ => Source.Fact.const, fun _ w _ set h => hasked w set h,
      fun w _ set _ _ _ _ h _ => hasked w set h⟩
  refine copyDo_view hself hF (by rw [hj]; rfl) hsize Held.const fun dek _ => ?_
  unfold copiedTags
  rw [hmode]
  cases hmode : r.tagMode with
  | carry =>
    refine (Held.keeps Held.const (sourceTags_asks G calm_quiet _ _)).imp fun _ _ _ _ set' h => ?_
    simp at h
  | replace set =>
    refine .pure fun _ _ _ set' h => ?_
    cases h
    rfl

theorem copyObject_view (hsize : G.keys.Sized) {r : CopyObjectRequest} (hacts : Acts T (.copy r))
    (hj : job i = .copy r) :
    (copyObject G r).Tame (onView T job lets) i := by
  obtain ⟨⟨hsb, hsk⟩, ⟨hb, hk⟩, hrep⟩ := hacts
  obtain ⟨⟨md, hd⟩, hrep⟩ := Option.isSome_iff_exists.mp hrep
  have hstored : ∀ {l : Loc}, G.Stores T.bucket T.key l → l.key = T.stored :=
    fun h => Option.some.inj (h.1.symm.trans T.stores)
  have hcalm : ∀ {α : Type} {p : Call α}, (p.Asks fun q => q.calm = true) →
      p.Tame (onView T job lets) i := fun h => Held.keeps Held.const h
  refine (hcalm require_asks).bind fun _ => ?_
  rw [hsb, hsk, hb, hk]
  refine (storedLoc_keeps G _ _).bind fun src => .given fun hsrc => ?_
  refine (storedLoc_keeps G _ _).bind fun dst => .given fun hdst => ?_
  refine (hcalm (ask_asks rfl)).bind fun info => ?_
  refine (hcalm require_asks).bind fun _ => ?_
  refine (parseMeta_keeps G _).bind fun m => .given fun hm => ?_
  refine (hcalm need_asks).bind fun kid => ?_
  have hgiven : (copiedMetadata r info).Keeps (onView T job lets) i (fun _ => True)
      fun given _ => given = (md, hd) ∧ ∀ e ∈ md, reserved e.1 = false := by
    unfold copiedMetadata
    rw [hrep]
    refine (clientMetadata_same md).bind fun md' => .pure fun _ _ hk => ?_
    exact ⟨congrArg (·, hd) hk.1, hk.2.1⟩
  refine Act.Keeps.bind hgiven fun given => ?_
  refine .weaken (.given fun hgiven => ?_) fun _ _ hk => ⟨hk, trivial⟩
  obtain ⟨rfl, hmd⟩ := hgiven
  exact copyDo_asked hsize ⟨rfl, rfl, hstored hsrc, rfl, rfl, hstored hdst, hm⟩ hj hrep hmd rfl

/-! ## A rotation -/

/-- The visible version is the one that a `HEAD` showed. -/
def ShowsInfo (T : Target G) (info : Info) (s : Bucket) : Prop :=
  ∃ v, s.visible.lookup T.loc = some v ∧ Bucket.infoOf G.toBackend v = info

/-- The sidecar of the version that a `HEAD` showed holds this set. -/
def ShowsTags (T : Target G) (info : Info) (dek : Bytes) (set : List Tag) (s : Bucket) : Prop :=
  tagsOf G T.bucket T.key (s.sidecars.lookup (T.loc, storedDEK info.metadata)) dek = .ok (sortTags set)

/-- What a rotation knows after its `HEAD`: what it saw is visible, unless it was overtaken. -/
def HeadKnown (T : Target G) (job : Nat → Job) (i : Nat) (info : Info) (w : CloudWorld) : Prop :=
  Used (storedDEK info.metadata) w
    ∧ w.Unless (fun e => headOf i T.loc e) (fun _ => False) (fun e => e.who ≠ i ∧ published job T.loc e)
      (ShowsInfo T info)

/-- What it knows after it has read the sidecar. -/
def TagsKnown (T : Target G) (job : Nat → Job) (i : Nat) (info : Info) (dek : Bytes) (set : List Tag)
    (w : CloudWorld) : Prop :=
  HeadKnown T job i info w
    ∧ w.Unless (fun e => sidecarReadOf i T.loc e) (fun _ => False) (fun e => tagged job T.loc e)
      (ShowsTags T info dek set)

section

variable (hfaults : G.faults = false)

include hfaults

variable {j : Nat} {q : Req} {a : Answer q} {info : Info}

/-- What is visible is as it was, or another version was published. -/
theorem showsInfo_moves (hserve : w.state.serve G.toBackend G.base64 q a s) (hview : viewMay T job j w q)
    (h : ShowsInfo T info w.state) : ShowsInfo T info s ∨ published job T.loc ⟨j, q, a⟩ = true := by
  rcases visible_moves (Bucket.serve_effect hserve) hview with hsame | ⟨hlands, -, v, -, hmay⟩
  · obtain ⟨v, hv, hinfo⟩ := h
    exact .inl ⟨v, hsame.trans hv, hinfo⟩
  · cases a with
    | error f =>
      rw [Bucket.serve_refused hfaults hserve]
      exact .inl h
    | ok r =>
      have hj : (job j).publishes = true := by
        unfold MayLand MayShow at hmay
        split at hmay
        next hj =>
          rw [hj]
          rfl
        next hj =>
          rw [hj]
          rfl
        · exact absurd hmay (fun h => h)
      refine .inr ?_
      unfold published
      rw [hj, hlands]
      rfl

/-- The sidecar of a version that was visible is as it was, or tags were changed. -/
theorem showsTags_moves {set : List Tag} (hserve : w.state.serve G.toBackend G.base64 q a s)
    (hwrap : wrapMay G.base64 job j w q) (hview : viewMay T job j w q) (hused : Used (storedDEK info.metadata) w)
    (h : ShowsTags T info dek set w.state) :
    ShowsTags T info dek set s ∨ tagged job T.loc ⟨j, q, a⟩ = true := by
  rcases sidecar_moves (storedDEK info.metadata) (Bucket.serve_effect hserve) hwrap hview with
    hsame | hfresh | ⟨hj, hq, -⟩
  · refine .inl ?_
    unfold ShowsTags
    rw [hsame]
    exact h
  · exact absurd hused hfresh.unused
  · cases a with
    | error f =>
      rw [Bucket.serve_refused hfaults hserve]
      exact .inl h
    | ok r =>
      refine .inr ?_
      unfold tagged
      rw [hj, hq]
      rfl

omit hfaults in
theorem drift_same {s' : Bucket} (hs : s.Drift s') : s'.visible = s.visible ∧ s'.sidecars = s.sidecars := by
  cases hs with
  | abort u | tick t ht => exact ⟨rfl, rfl⟩

omit hfaults in
theorem used_after_step (h : Used n w) (j : Nat) (q : Req) (a : Answer q) (s : Bucket) : Used n (w.after j q a s) := World.ever_after.mpr (.inl h)

theorem headKnown_fact (info : Info) : Source.Fact G T job lets i (HeadKnown T job i info) where
  stable := by
    refine ⟨fun j w w' hj hw hk hm => ?_, fun w w' hw hk hd => ?_⟩
    · obtain ⟨q, a, s, hlets, hview, hserve, rfl⟩ := hm
      refine ⟨used_after_step hk.1 j q a s, hk.2.after (fun h => h) fun h => ?_⟩
      exact (showsInfo_moves hfaults hserve hview h).imp id fun hp => ⟨hj, hp⟩
    · obtain ⟨s, hs, rfl⟩ := hd
      refine ⟨(used_moved hs).mpr hk.1, hk.2.moved fun h => ?_⟩
      obtain ⟨v, hv, hinfo⟩ := h
      exact ⟨v, (drift_same hs).1 ▸ hv, hinfo⟩
  gentle w q a s hk hserve hvis _ := by
    refine ⟨used_after_step hk.1 i q a s, hk.2.after (fun h => h) fun h => ?_⟩
    obtain ⟨v, hv, hinfo⟩ := h
    exact .inl ⟨v, hvis ▸ hv, hinfo⟩

theorem tagsKnown_fact (info : Info) (dek : Bytes) (set : List Tag) :
    Source.Fact G T job lets i (TagsKnown T job i info dek set) where
  stable := by
    refine ⟨fun j w w' hj hw hk hm => ?_, fun w w' hw hk hd => ?_⟩
    · refine ⟨(headKnown_fact hfaults info).stable.moves j w w' hj hw hk.1 hm, ?_⟩
      obtain ⟨q, a, s, hlets, hview, hserve, rfl⟩ := hm
      exact hk.2.after (fun h => h) fun h =>
        showsTags_moves hfaults hserve hlets.2.2 hview hk.1.1 h
    · refine ⟨(headKnown_fact hfaults info).stable.drifts w w' hw hk.1 hd, ?_⟩
      obtain ⟨s, hs, rfl⟩ := hd
      refine hk.2.moved fun h => ?_
      unfold ShowsTags
      rw [(drift_same hs).2]
      exact h
  gentle w q a s hk hserve hvis hside := by
    have hhead : Source.Fact G T job lets i (HeadKnown T job i info) := headKnown_fact hfaults info
    refine ⟨hhead.gentle w q a s hk.1 hserve hvis hside, ?_⟩
    refine hk.2.after (fun h => h) fun h => .inl ?_
    unfold ShowsTags
    rw [hside _ hk.1.1]
    exact h

omit hfaults in
/-- A rotation that was not overtaken lets be seen what is seen. -/
theorem rotate_shows {set : List Tag} {r : RotateRequest} (hj : job i = .rotate r)
    (hk : TagsKnown T job i info dek set w) (hdek : dekOf G T.bucket T.key info.metadata = .ok dek)
    (hover : ¬ Overtaken T job i w) (htagged : ¬ Retagged T job i w)
    (huser : cr.dest.userMetadata = userMetadataOf info.metadata) (hhd : cr.dest.headers = info.headers) :
    MayShow T job i w (cr.shows set) := by
  obtain ⟨v, hv, rfl⟩ := hk.1.2.elim hover
  have htags : ShowsTags T (Bucket.infoOf G.toBackend v) dek set w.state := hk.2.elim htagged
  have hself : userMetadataOf (userMetadataOf v.metadata) = userMetadataOf v.metadata :=
    List.filter_eq_self.mpr fun e he => (List.mem_filter.mp he).2
  unfold MayShow CopyRequest.shows
  rw [hj, huser, hhd]
  dsimp only [Bucket.infoOf] at hdek ⊢
  rw [view_visible hv, hself, viewOf, hdek]
  exact congrArg some (congrArg (View.mk _ _) htags)

theorem sourceTags_view {src : Source} (hsrc : src.loc = T.loc) (hinfo : src.info = info) (hb : src.bucket = T.bucket)
    (hk : src.key = T.key) (hne : storedDEK info.metadata ≠ []) :
    (sourceTags G src dek).Keeps (onView T job lets) i (HeadKnown T job i info)
      (TagsKnown T job i info dek) := by
  unfold sourceTags
  rw [hinfo, if_neg hne, hsrc, hb, hk]
  have hread : (tryAsk (.getSidecar T.loc (storedDEK info.metadata))).Keeps (onView T job lets) i (HeadKnown T job i info) fun a w => ∀ set,
        (match a with
          | .error f => f.isNotFound = true ∧ set = []
          | .ok raw => G.tags.openTags dek T.bucket T.key raw = some set) →
        TagsKnown T job i info dek set w := by
    refine tryAsk_keeps (fun _ _ _ _ => trivial)
      (fun a => Stable.forall fun set => Stable.imp fun _ => (tagsKnown_fact hfaults info dek set).stable) ?_
    intro a w s hw hk _ hserve set hset
    have hhead : Source.Fact G T job lets i (HeadKnown T job i info) := headKnown_fact hfaults info
    have hkeep := hhead.held.own w _ a s rfl hk hserve
    have hmark : sidecarReadOf i T.loc ⟨i, .getSidecar T.loc (storedDEK info.metadata), a⟩ = true :=
      decide_eq_true ⟨rfl, rfl⟩
    refine ⟨hkeep, World.unless_now hmark ?_⟩
    unfold ShowsTags
    cases a with
    | error f =>
      obtain ⟨hf, rfl⟩ := hset
      obtain ⟨rfl, hnone⟩ := Bucket.serve_getSidecar_none hf hserve
      rw [hnone]
      rfl
    | ok raw =>
      obtain ⟨rfl, b, hb, hraw⟩ := Bucket.serve_getSidecar hserve
      rw [hb]
      unfold tagsOf
      dsimp only
      rw [hraw, hset]
  refine .bind hread fun a => ?_
  cases a with
  | error f =>
    dsimp only
    split
    next hf =>
      exact .pure fun w _ hk => hk [] ⟨hf, rfl⟩
    · exact .throw
  | ok raw =>
    exact need_keeps.imp fun set w _ hk => hk.2 set hk.1

/-- **A rotation lands only as what is seen**, if it is not overtaken and no tags are changed. -/
theorem rotateOne_view (hsize : G.keys.Sized) (hover : ∀ i w q, lets i w q → NotOvertaken T job i w q)
    (htag : ∀ i w q, lets i w q → NotRetagged T job i w q) {r : RotateRequest}
    (hacts : Acts T (.rotate r)) (hj : job i = .rotate r) :
    (rotateOne G r).Tame (onView T job lets) i := by
  obtain ⟨hb, hk, hs, hallow⟩ := hacts
  have hloc : (⟨r.bucket, r.stored⟩ : Loc) = T.loc := congrArg₂ Loc.mk hb hs
  refine rotateOne_keeps (fun info w => info.etag ≠ [] ∧ HeadKnown T job i info w) r ?_ fun info m hm => ?_
  · rw [hloc]
    refine tryAsk_keeps (fun _ _ _ _ => trivial) (fun a => Stable.forall fun info =>
      Stable.imp fun _ => Stable.const.and (headKnown_fact hfaults info).stable) ?_
    intro a w s _ _ _ hserve info ha
    subst ha
    obtain ⟨rfl, v, hv, rfl⟩ := Bucket.serve_head hserve
    have hmark : headOf i T.loc ⟨i, .head T.loc, .ok (Bucket.infoOf G.toBackend v)⟩ = true :=
      decide_eq_true ⟨rfl, rfl⟩
    refine ⟨G.etag_ne _, ?_, World.unless_now hmark ⟨v, hv, rfl⟩⟩
    exact .inl (.inl ⟨T.loc, v, hv, rfl⟩)
  · refine .given fun hetag => ?_
    have hself : SelfCopy T ⟨⟨r.bucket, r.identity, r.stored, info, m⟩,
        ⟨r.bucket, r.identity, r.stored, r.targetKID, userMetadataOf info.metadata, info.headers⟩,
        info.etag, if r.allowUnconditional then [] else info.etag, [], m.manifestID, true, .carry⟩ :=
      ⟨hb, hk, hs, hb, hk, hs, hm⟩
    have hF : Lands T job lets i ⟨⟨r.bucket, r.identity, r.stored, info, m⟩,
        ⟨r.bucket, r.identity, r.stored, r.targetKID, userMetadataOf info.metadata, info.headers⟩,
        info.etag, if r.allowUnconditional then [] else info.etag, [], m.manifestID, true, .carry⟩
        fun dek set w => dekOf G T.bucket T.key info.metadata = .ok dek ∧ TagsKnown T job i info dek set w := by
      refine ⟨fun dek set => ?_, fun hcond => ?_, fun w dek set u parts _ hlets hf hadmits => ?_⟩
      · exact Source.Fact.const.and (tagsKnown_fact hfaults info dek set)
      · rw [hallow] at hcond
        exact absurd hcond hetag
      · rw [hallow] at hlets hadmits
        have hlets := hlets.1.1
        -- the completion is under the entity tag that the `HEAD` showed
        obtain ⟨v, hv, hve⟩ := (Bucket.admits_ok hadmits).1 hetag
        have hhas : w.state.hasETag G.toBackend T.loc info.etag = true := by
          unfold Bucket.hasETag
          rw [hv]
          exact decide_eq_true hve
        have hrot : (job i).isRotate = true := by rw [hj]; rfl
        exact rotate_shows hj hf.2 hf.1 (hover i w _ hlets hrot hhas)
          ((htag i w _ hlets).1 hrot hhas) rfl rfl
    refine copyDo_view hself hF (by rw [hj]; rfl) hsize (headKnown_fact hfaults info).held fun dek hdek => ?_
    refine (sourceTags_view hfaults hself.srcLoc rfl hb hk (parse_ok hm).named).imp fun set w _ hk => ⟨hdek, hk⟩

end

end BlindBucket.Cloud
