import BlindBucket.Cloud.Rewrites

/-!
# Rotations beside changes of tags

A client changes the tags of an object, one request after another, while the object is rotated. Tags
lie in a sidecar that is named after `bb-dek`, and a rotation gives the object another `bb-dek`. A tag
request acts on the name that its `HEAD` showed, and a rotation carries over the tags that it has read.
If nothing comes between either of these reads and the write that follows it, the tags that are seen
are those of the last request that was acknowledged.
-/

namespace BlindBucket.Cloud

open BlindBucket.Stream ObjectMeta Service Option

/-- The set that an object has after a change of its tags. -/
def TagOp.set : TagOp → List Tag
  | .put set => sortTags set
  | .delete => []

def Job.isRead : Job → Bool
  | .read .. => true
  | _ => false

variable {G : Site} (T : Target G)

/-- What is seen are the tags of this change, if there was one. -/
def Shown (last : Option TagOp) (s : Bucket) : Prop :=
  ∀ op, last = some op → ∃ vw, view T s = some vw ∧ vw.tags = .ok op.set

/-- What a tag request knows of the version that it acts on: it is visible, unless another was published
since the `HEAD`. -/
def Targets (job : Nat → Job) (i : Nat) (info : Info) (w : CloudWorld) : Prop :=
  w.Unless (fun e => headOf i T.loc e) (fun e => headOf i T.loc e) (fun e => published job T.loc e)
    (ShowsInfo T info)

/-- One program changes tags, at most one rotates the object, and the others only read. -/
structure TagRun (job : Nat → Job) (i : Nat) (ops : List TagOp) : Prop where
  client : job i = .tag T.bucket T.key ops
  others : ∀ j, j ≠ i → (job j).isRotate = true ∧ Acts T (job j) ∨ (job j).isRead = true
  once : ∀ j k, (job j).isRotate = true → (job k).isRotate = true → j = k

variable {T} {job : Nat → Job} {lets : Lets} {i : Nat} {ops : List TagOp}

variable {j : Nat} {w : CloudWorld} {q : Req} {s : Bucket} {target : Bytes × Bytes}

theorem TagRun.publishes (h : TagRun T job i ops) (hj : (job j).publishes = true) : (job j).isRotate = true := by
  by_cases hji : j = i
  · rw [hji, h.client] at hj
    simp [Job.publishes] at hj
  · rcases h.others j hji with ⟨hrot, -⟩ | hread
    · exact hrot
    · cases hjob : job j with
      | read p hp =>
        rw [hjob] at hj
        simp [Job.publishes] at hj
      | _ =>
        rw [hjob] at hread
        simp [Job.isRead] at hread

theorem TagRun.notOvertaken (h : TagRun T job i ops) (j : Nat) (w : CloudWorld) (q : Req) :
    NotOvertaken T job j w q := by
  intro hrot _ hover
  obtain ⟨e, s, since, -, e', s', -, hne, hpub⟩ := hover
  unfold published at hpub
  simp only [Bool.and_eq_true] at hpub
  exact hne (h.once e'.who j (h.publishes hpub.1.1) hrot)

theorem TagRun.view_same (h : TagRun T job i ops) (hj : j ≠ i) {a : Answer q}
    (hserve : w.state.serve G.toBackend G.base64 q a s) (hwrap : wrapMay G.base64 job j w q)
    (hview : viewMay T job j w q) : view T s = view T w.state := by
  rcases view_moves hserve hwrap hview with hsame | ⟨r, vw, hcopy, -⟩ | ⟨htag, -⟩
  · exact hsame
  · rcases h.others j hj with ⟨hrot, -⟩ | hread
    · rw [hcopy] at hrot
      simp [Job.isRotate] at hrot
    · rw [hcopy] at hread
      simp [Job.isRead] at hread
  · rcases h.others j hj with ⟨hrot, -⟩ | hread
    · cases hjob : job j <;> rw [hjob] at hrot htag <;> simp [Job.isRotate, Job.isTag] at hrot htag
    · cases hjob : job j <;> rw [hjob] at hread htag <;> simp [Job.isRead, Job.isTag] at hread htag

/-! ## What a tag request knows -/

theorem Shown.tags {op : TagOp} (h : Shown T (some op) s) : tagsShown G T.bucket T.key s = .ok op.set := by
  obtain ⟨vw, hvw, htags⟩ := h op rfl
  unfold view at hvw
  cases hv : s.visible.lookup T.loc with
  | none =>
    rw [hv] at hvw
    simp at hvw
  | some v =>
    rw [hv] at hvw
    rw [← some.inj hvw] at htags
    exact htags

theorem Shown.congr {last : Option TagOp} {s' : Bucket} (h : Shown T last s) (hview : view T s' = view T s) :
    Shown T last s' := by
  intro op hop
  rw [hview]
  exact h op hop

theorem shown_held (hrun : TagRun T job i ops) (last : Option TagOp) :
    Held G T job lets i fun w => Shown T last w.state where
  stable := by
    refine ⟨fun j w w' hj hw hk hm => ?_, fun w w' hw hk hd => ?_⟩
    · obtain ⟨q, a, s, hlets, hview, hserve, rfl⟩ := hm
      exact hk.congr (hrun.view_same hj hserve hlets.2.2 hview)
    · obtain ⟨s, hs, rfl⟩ := hd
      obtain ⟨hvis, hside⟩ := drift_same hs
      exact hk.congr (view_congr (congrArg (AList.lookup T.loc) hvis) fun v _ => congrArg (AList.lookup _) hside)
  own w q a s hq hk hserve := by
    obtain ⟨hvis, hside⟩ := (Bucket.serve_effect hserve).calm hq
    exact hk.congr (view_congr (congrArg (AList.lookup T.loc) hvis) fun v _ => congrArg (AList.lookup _) hside)

theorem targets_stable (hfaults : G.faults = false) (info : Info) :
    Stable (onView T job lets) i (Targets T job i info) where
  moves j w w' hj _ hk hm := by
    obtain ⟨q, a, s, hlets, hview, hserve, rfl⟩ := hm
    refine hk.after ?_ fun h => showsInfo_moves hfaults hserve hview h
    -- the `HEAD` of another program does not count
    intro hhead
    unfold headOf at hhead
    split at hhead
    · exact hj (of_decide_eq_true hhead).1
    · simp at hhead
  drifts w w' _ hk hd := by
    obtain ⟨s, hs, rfl⟩ := hd
    refine hk.moved fun h => ?_
    obtain ⟨v, hv, hinfo⟩ := h
    exact ⟨v, (drift_same hs).1 ▸ hv, hinfo⟩

/-- The version that a tag request acts on, with its name and its data key. -/
def Found (T : Target G) (job : Nat → Job) (i : Nat) (target : Bytes × Bytes) (w : CloudWorld) : Prop :=
  ∃ info, (target.1 = storedDEK info.metadata ∧ dekOf G T.bucket T.key info.metadata = .ok target.2)
    ∧ Targets T job i info w

theorem findTagTarget_view (hfaults : G.faults = false) :
    (findTagTarget G T.loc T.bucket T.key).Keeps (onView T job lets) i
      (fun _ => True) (Found T job i) := by
  have hhead : (ask (.head T.loc)).Keeps (onView T job lets) i (fun _ => True)
      (Targets T job i) := by
    refine ask_keeps (fun _ _ _ _ => trivial) (targets_stable hfaults) ?_
    intro info w s _ _ _ hserve
    obtain ⟨rfl, v, hv, rfl⟩ := Bucket.serve_head hserve
    have hmark : headOf i T.loc ⟨i, .head T.loc, .ok (Bucket.infoOf G.toBackend v)⟩ = true :=
      decide_eq_true ⟨rfl, rfl⟩
    exact World.unless_now hmark ⟨v, hv, rfl⟩
  refine .bind hhead fun info => ?_
  refine (parseMeta_keeps G _).bind fun m => .given fun hm => ?_
  refine (unwrapDEK_keeps G _ _ _ _).bind fun dek => .given fun hdek => ?_
  exact .pure fun w _ hk => ⟨info, ⟨rfl, dekOf_of_parse hm hdek⟩, hk⟩

theorem Found.visible (h : Found T job i target w) (hnot : ¬ Replaced T job i w) :
    ∃ v, w.state.visible.lookup T.loc = some v ∧ storedDEK v.metadata = target.1
      ∧ dekOf G T.bucket T.key v.metadata = .ok target.2 := by
  obtain ⟨info, ⟨hname, hdek⟩, htargets⟩ := h
  obtain ⟨v, hv, rfl⟩ := htargets.elim hnot
  exact ⟨v, hv, hname.symm, hdek⟩

/-! ## Tag requests -/

section

variable (hrun : TagRun T job i ops) (hlets : ∀ i w q, lets i w q → NotRetagged T job i w q)
  (hfaults : G.faults = false)

include hrun hlets

theorem Found.lets_visible (h : Found T job i target w) (hlet : (wrapSystem G job lets).lets i w q)
    (hq : q.setsSidecar T.loc = true) :
    ∃ v, w.state.visible.lookup T.loc = some v ∧ storedDEK v.metadata = target.1
      ∧ dekOf G T.bucket T.key v.metadata = .ok target.2 := by
  have htag : (job i).isTag = true := by
    rw [hrun.client]
    rfl
  exact h.visible ((hlets i w q hlet.1.1).2 htag hq)

include hfaults

/-- `putObjectTagging` shows its set if it is acknowledged, and changes nothing if it is not. -/
theorem putTags_view (target : Bytes × Bytes) (set : List Tag) (last : Option TagOp) :
    (putTags G T.loc T.bucket T.key target.1 target.2 set).Ends (onView T job lets) i
      (fun w => Found T job i target w ∧ Shown T last w.state)
      (fun _ w => Shown T (some (.put set)) w.state) fun w => Shown T last w.state := by
  have hlast : Held G T job lets i fun w => Shown T last w.state := shown_held hrun last
  unfold putTags
  cases hraw : G.tags.sealTags target.2 T.bucket T.key set with
  | none => exact fun w _ hk => hk.2
  | some raw =>
    refine ⟨fun w _ hk hlet _ => ?_, fun a => ?_⟩
    · obtain ⟨v, hv, hname, -⟩ := Found.lets_visible hrun hlets hk.1 hlet (by simp [Req.setsSidecar])
      exact ⟨v, hv, hname⟩
    · cases a with
      | error f =>
        refine ⟨_, hlast.stable, fun w s _ hk _ hserve => ?_, fun w _ hk => hk⟩
        obtain rfl := Bucket.serve_refused hfaults hserve
        exact hk.2
      | ok r =>
        have hput : Held G T job lets i fun w => Shown T (some (.put set)) w.state := shown_held hrun _
        refine ⟨_, hput.stable, fun w s _ hk hlet hserve => ?_, fun w _ hk => hk⟩
        obtain ⟨v, hv, hname, hdek⟩ :=
          Found.lets_visible hrun hlets hk.1 hlet (by simp [Req.setsSidecar])
        obtain rfl := Bucket.serve_putSidecar hserve
        intro op hop
        cases hop
        have hvw := view_visible (s := w.state.keepSidecar T.loc target.1 raw) hv
        refine ⟨_, hvw, ?_⟩
        -- the sidecar that was written is the one of the visible version
        have hside : (w.state.keepSidecar T.loc target.1 raw).sidecars.lookup
            (T.loc, storedDEK v.metadata) = some ⟨raw, w.state.now⟩ := by
          rw [hname]
          exact AList.lookup_insert _
        unfold viewOf
        rw [hside, hdek]
        change tagsOf G T.bucket T.key (some ⟨raw, w.state.now⟩) target.2 = .ok (sortTags set)
        unfold tagsOf
        dsimp only
        rw [G.tags.open_seal _ _ _ _ _ hraw]
        exact congrArg Except.ok (Tags.sorted_sorted set)

theorem deleteTags_view (target : Bytes × Bytes) (last : Option TagOp)
    {f : Answer (.deleteSidecar T.loc target.1) → Call Unit} (hf : ∀ r, f (.ok r) = pure ()) :
    (tryAsk (.deleteSidecar T.loc target.1) >>= f).Ends (onView T job lets) i
      (fun w => Found T job i target w ∧ Shown T last w.state)
      (fun _ w => Shown T (some .delete) w.state) fun w => Shown T last w.state := by
  refine ⟨fun w _ hk hlet => ?_, fun a => ?_⟩
  · obtain ⟨v, hv, hname, -⟩ := Found.lets_visible hrun hlets hk.1 hlet (by simp [Req.setsSidecar])
    exact ⟨by rw [hrun.client]; rfl, v, hv, hname⟩
  · cases a with
    | error e =>
      refine ⟨fun _ => False, Stable.const, fun w s _ _ _ hserve => ?_, Prog.Keeps.never fun _ h => h⟩
      exact Bucket.serve_deleteSidecar_ok hfaults hserve
    | ok r =>
      have hdel : Held G T job lets i fun w => Shown T (some .delete) w.state := shown_held hrun _
      have hdone : Act.Ends (onView T job lets) i (fun w => Shown T (some .delete) w.state)
          (f (.ok r)) (fun _ w => Shown T (some .delete) w.state) fun w => Shown T last w.state := by
        rw [hf]
        exact fun _ _ hk => hk
      refine ⟨_, hdel.stable, fun w s _ hk hlet hserve => ?_, hdone⟩
      obtain ⟨v, hv, hname, hdek⟩ :=
        Found.lets_visible hrun hlets hk.1 hlet (by simp [Req.setsSidecar])
      obtain rfl := Bucket.serve_deleteSidecar hserve
      intro op hop
      cases hop
      have hvw := view_visible (s := w.state.dropSidecar T.loc target.1) hv
      refine ⟨_, hvw, ?_⟩
      have hside : (w.state.dropSidecar T.loc target.1).sidecars.lookup (T.loc, storedDEK v.metadata) = none := by
        rw [hname]
        exact AList.lookup_erase _ _
      unfold viewOf
      rw [hside, hdek]
      rfl

/-- **A tag request** shows its set if it is acknowledged, and changes nothing if it is not. -/
theorem tagRequest_view (op : TagOp) (last : Option TagOp) :
    (tagRequest G T.bucket T.key op).Ends (onView T job lets) i
      (fun w => Shown T last w.state) (fun _ w => Shown T (some op) w.state)
      fun w => Shown T last w.state := by
  have hlast : Held G T job lets i fun w => Shown T last w.state := shown_held hrun last
  have hloc : (storedLoc G T.bucket T.key).Ends (onView T job lets) i
      (fun w => Shown T last w.state) (fun l w => G.Stores T.bucket T.key l ∧ Shown T last w.state)
      fun w => Shown T last w.state := by
    have h := hlast.ends storedLoc_asks (storedLoc_keeps G T.bucket T.key (K := fun _ => True))
    refine Prog.Keeps.imp (Prog.Keeps.weaken h fun w _ hk => ⟨trivial, hk⟩) fun r w _ hr => ?_
    cases r with
    | ok l => exact ⟨hr.1.1, hr.2⟩
    | error e => exact hr
  have hfind : (findTagTarget G T.loc T.bucket T.key).Ends (onView T job lets) i
      (fun w => Shown T last w.state) (fun target w => Found T job i target w ∧ Shown T last w.state)
      fun w => Shown T last w.state :=
    (hlast.ends (findTagTarget_asks G calm_quiet _ _ _) (findTagTarget_view hfaults)).weaken
      fun w _ hk => ⟨trivial, hk⟩
  have hat : ∀ {l : Loc}, G.Stores T.bucket T.key l → l = T.loc := by
    intro l hl
    obtain ⟨hstored, hbucket⟩ := hl
    have hkey := some.inj (hstored.symm.trans T.stores)
    exact congrArg₂ Loc.mk hbucket hkey
  cases op with
  | put set =>
    refine Act.Ends.bind hloc fun l => Act.Ends.given fun hl => ?_
    rw [hat hl]
    exact Act.Ends.bind hfind fun target => putTags_view hrun hlets hfaults target set last
  | delete =>
    refine Act.Ends.bind hloc fun l => Act.Ends.given fun hl => ?_
    rw [hat hl]
    exact Act.Ends.bind hfind fun target => deleteTags_view hrun hlets hfaults target last fun _ => rfl

/-- **A client that changes tags** ends with the tags of its last acknowledged request on show. -/
theorem tagSession_view (todo : List TagOp) (last : Option TagOp) :
    (tagSession G T.bucket T.key todo).Ends (onView T job lets) i
      (fun w => Shown T last w.state) (fun acked w => Shown T (acked.getLast?.or last) w.state)
      fun _ => False := by
  induction todo generalizing last with
  | nil => exact fun w _ hk => hk
  | cons op todo ih =>
    have hop := tagRequest_view hrun hlets hfaults op last
    -- what comes of the request is not an error of the session
    have htry : ((tagRequest G T.bucket T.key op).attempt : Call (Except OpErr Unit)).Ends
        (onView T job lets) i (fun w => Shown T last w.state)
        (fun r w => Shown T (r.toOption.elim last fun _ => some op) w.state) fun _ => False := by
      refine Prog.Keeps.bind hop fun r => ?_
      cases r with
      | ok _ | error e => exact fun _ _ hk => hk
    refine Act.Ends.bind htry fun r => ?_
    cases r with
    | error e => exact ih last
    | ok _ =>
      refine Act.Ends.bind (ih (some op)) fun rest => Act.Ends.pure fun w _ hk => ?_
      cases rest with
      | nil => exact hk
      | cons op' rest => simpa [List.getLast?_cons] using hk

end

/-! ## Runs -/

theorem Req.reads_calm (h : q.reads = true) : q.calm = true := by
  cases q <;> first | rfl | exact absurd h (by simp [Req.reads])

/-- How the client ends: with the tags of its last acknowledged request on show. -/
def TagsPost (T : Target G) (i j : Nat) (out : Outcome) (w : CloudWorld) : Prop :=
  j = i → ∃ acked, out = .tagged acked ∧ Shown T acked.getLast? w.state

theorem tag_starters (hsize : G.keys.Sized) (hfaults : G.faults = false) (hrun : TagRun T job i ops)
    (hlets : ∀ i w q, lets i w q → NotRetagged T job i w q) :
    Starters (onView T job lets) (TagsPost T i) := by
  intro j w p _ hstart
  obtain ⟨rfl, -⟩ := hstart
  by_cases hji : j = i
  · subst hji
    refine ⟨fun w => Shown T none w.state, (shown_held hrun none).stable, fun op hop => absurd hop (by simp), ?_⟩
    rw [hrun.client]
    refine Prog.Keeps.bind (tagSession_view hrun hlets hfaults ops none) fun r => ?_
    cases r with
    | error e => exact Prog.Keeps.never fun _ h => h
    | ok acked =>
      intro w _ hk _
      have hk : Shown T (acked.getLast?.or none) w.state := hk
      rw [or_none] at hk
      exact ⟨acked, rfl, hk⟩
  · refine ⟨fun _ => True, Stable.true, trivial, ?_⟩
    have hfree : ∀ (out : Outcome) (w : CloudWorld), TagsPost T i j out w := fun _ _ h => absurd h hji
    rcases hrun.others j hji with ⟨hrot, hacts⟩ | hread
    · cases hj : job j with
      | rotate r =>
        rw [hj] at hacts
        refine Prog.Keeps.imp (ended_keeps (rotateOne_view hfaults hsize
          (fun k w q _ => hrun.notOvertaken k w q) hlets hacts hj)) fun out w _ _ => hfree out w
      | _ =>
        rw [hj] at hrot
        simp [Job.isRotate] at hrot
    · cases hj : job j with
      | read p hp =>
        refine Prog.Keeps.imp (Prog.Asks.keeps hp Stable.true (fun q w hq _ _ _ => ?_)
          fun _ _ _ _ _ _ _ _ _ => trivial) fun out w _ _ => hfree out w
        exact viewMay_calm (Req.reads_calm hq) w
      | _ =>
        rw [hj] at hread
        simp [Job.isRead] at hread

/-- **An acknowledged change of tags survives a rotation**: when the client has ended,
`GetObjectTagging` answers with the set of its last acknowledged request, as long as the rotation
completes before tags change again after it has read them, and tags are written before a version is
published after the request's `HEAD`. -/
theorem lastTags_shown (hsize : G.keys.Sized) (hfaults : G.faults = false) (hrun : TagRun T job i ops)
    (hlets : ∀ i w q, lets i w q → NotRetagged T job i w q) {s₀ : Bucket} (h₀ : s₀.Ranked)
    (hl : s₀.Labelled G.base64) {c : CloudConf}
    (h : Reach (system G job lets) s₀ c) {out : Outcome} (hi : c.threads i = .running (.done out)) :
    ∃ acked, out = .tagged acked ∧ ∀ op, acked.getLast? = some op →
      tagsShown G T.bucket T.key c.world.state = .ok op.set := by
  have hreach := reach_wraps hsize h₀ hl h
  have hinit : (viewRules T job).inv ⟨s₀, []⟩ := ⟨⟨uploadInv_init h₀, wrapInv_init hl⟩, trivial⟩
  obtain ⟨acked, hout, hshown⟩ :=
    hreach.post viewRules_sound (tag_starters hsize hfaults hrun hlets) hinit hi rfl
  refine ⟨acked, hout, fun op hop => ?_⟩
  rw [hop] at hshown
  exact hshown.tags

/-! ## A change of tags that is lost -/

/-- A rotation to another key id beside a client that sets one tag. -/
def tagJobs : Nat → Job
  | 0 => .rotate ⟨[98], [107], [107], [76], false, false⟩
  | 1 => .tag [98] [107] [.put [⟨[116], [118]⟩]]
  | _ => .read (.done .done) trivial

theorem tagJobs_run : TagRun steadyTarget tagJobs 1 [.put [⟨[116], [118]⟩]] where
  client := rfl
  others := by
    intro j hj
    match j with
    | 0 => exact .inl ⟨rfl, rfl, rfl, rfl, rfl⟩
    | 1 => exact absurd rfl hj
    | _ + 2 => exact .inr rfl
  once := by
    intro j k hj hk
    match j, k with
    | 0, 0 => rfl
    | 0, 1 => simp [tagJobs, Job.isRotate] at hk
    | 0, _ + 2 => simp [tagJobs, Job.isRotate] at hk
    | 1, _ => simp [tagJobs, Job.isRotate] at hj
    | _ + 2, _ => simp [tagJobs, Job.isRotate] at hj

/-- The outcome of a program that has ended. -/
def outcomeOf (c : CloudConf) (i : Nat) : Option Outcome :=
  match c.threads i with
  | .running (.done out) => some out
  | _ => none

/-- The tags are set after the rotation has read that there are none. -/
def retaggedRun : CloudConf :=
  runOf steadySite tagJobs steadyPut.world.state
    [.start 0, .ask 0 {}, .ask 0 (.bytes 12 2), .ask 0 {}, .start 1, .ask 1 {}, .ask 1 {},
      .ask 0 {}, .ask 0 {}, .ask 0 {}, .ask 0 {}]

/-- **A rotation loses a change of tags.** The client's only request was acknowledged, and the object
has no tags when both have ended. -/
theorem tags_lost : Reach (system steadySite tagJobs fun _ _ _ => True) steadyPut.world.state retaggedRun
      ∧ hasEnded retaggedRun 0 = true
      ∧ outcomeOf retaggedRun 1 = some (.tagged [.put [⟨[116], [118]⟩]])
      ∧ tagsShown steadySite [98] [107] retaggedRun.world.state = .ok []
      ∧ TagOp.set (.put [⟨[116], [118]⟩]) ≠ [] := by
  exact ⟨runOf_reach _ _ _ _, by decide +kernel, by decide +kernel, by decide +kernel, by decide⟩

/-- The rotation runs first, and then the client. -/
def retagMoves : List (Move Choice) :=
  [.start 0, .ask 0 {}, .ask 0 (.bytes 12 2), .ask 0 {}, .ask 0 {}, .ask 0 {}, .ask 0 {}, .ask 0 {},
    .start 1, .ask 1 {}, .ask 1 {}]

theorem lastTags_shown_run :
    ∃ acked, Outcome.tagged [.put [⟨[116], [118]⟩]] = .tagged acked ∧ ∀ op, acked.getLast? = some op →
      tagsShown steadySite [98] [107]
        (runOf steadySite tagJobs steadyPut.world.state retagMoves).world.state = .ok op.set := by
  have hlets : runLets steadySite tagJobs (NotRetagged steadyTarget tagJobs)
      steadyPut.world.state retagMoves = true := by decide +kernel
  exact lastTags_shown clearKeys_sized rfl tagJobs_run (fun _ _ _ h => h) steadyPut_labelled.1
    steadyPut_labelled.2 (runLets_reach _ _ _ hlets) rfl

end BlindBucket.Cloud
