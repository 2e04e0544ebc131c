import BlindBucket.Cloud.Rotation
import BlindBucket.Cloud.ViewKeeps

/-!
# Rotations beside rewrites of metadata

A client rewrites the metadata of an object by copying it onto itself. A rotation guards its completion
with the entity tag that it saw, and a copy of a small object keeps the entity tag. So the guard does
not tell the rewritten object from the one that the rotation has read, and the rotation takes the
rewrite back. If no rotation completes after it was overtaken in this way, rewrites stay.
-/

namespace BlindBucket.Cloud

open BlindBucket.Stream ObjectMeta Service Option

variable {G : Site} (T : Target G) (job : Nat → Job)

/-- A copy of a client's was acknowledged. -/
def rewrote (l : Loc) (e : Event Req Answer) : Bool := (job e.who).isCopy && e.q.lands l && acked e

/-- What is seen of the object is what was seen right after the last copy was acknowledged, and that is
what the copy was asked for. -/
def RewritesStay (w : CloudWorld) : Prop :=
  ∀ e s since, w.Mark (fun e => rewrote job T.loc e) (fun e => rewrote job T.loc e) e s since →
    ∃ r vw, job e.who = .copy r ∧ view T w.state = some vw ∧ view T (w.next since) = some vw
      ∧ AskedFor r vw

variable {T job} {lets : Lets} {i : Nat}

theorem notRetagged (hjobs : ∀ i, (job i).publishes = true) (i : Nat) (w : CloudWorld) (q : Req) :
    NotRetagged T job i w q := by
  have hnotag : ∀ j, (job j).isTag = false := fun j => Job.publishes_isTag (hjobs j)
  refine ⟨fun _ _ h => ?_, fun htag => absurd (htag.symm.trans (hnotag i)) (by simp)⟩
  obtain ⟨e, s, since, -, e', s', -, he'⟩ := h
  unfold tagged at he'
  rw [hnotag e'.who] at he'
  simp at he'

variable {w : CloudWorld} {q : Req} {a : Answer q} {s : Bucket}

theorem lands_view (hdiscards : G.discards = false) (hserve : w.state.serve G.toBackend G.base64 q a s)
    (hview : viewMay T job i w q) (hq : q.lands T.loc = true) (ha : acked ⟨i, q, a⟩ = true) :
    ∃ v, s.visible.lookup T.loc = some v ∧ s.sidecars = w.state.sidecars
      ∧ MayLand T job i w v.metadata v.headers := by
  cases a with
  | error f => simp [acked] at ha
  | ok r =>
    cases q with
    | copy src dst md hd e =>
      obtain rfl : dst = T.loc := of_decide_eq_true hq
      obtain ⟨v, -, rfl⟩ := Bucket.serve_copy hserve
      exact ⟨_, AList.lookup_insert _, rfl, hview⟩
    | complete l u parts c =>
      obtain rfl : l = T.loc := of_decide_eq_true hq
      obtain ⟨up, bs, hup, -, hc, -, ⟨-, hd, -⟩ | rfl⟩ := Bucket.serve_complete hserve
      · exact absurd (hd.symm.trans hdiscards) (by simp)
      · exact ⟨_, AList.lookup_insert _, rfl, hview up hup hc⟩
    | _ => simp [Req.lands] at hq

section

variable (hfaults : G.faults = false) (hdiscards : G.discards = false)
  (hjobs : ∀ i, (job i).publishes = true)

include hfaults hdiscards hjobs

theorem rewrites_moves (h : RewritesStay T job w) (hserve : w.state.serve G.toBackend G.base64 q a s)
    (hwrap : wrapMay G.base64 job i w q) (hview : viewMay T job i w q) : RewritesStay T job (w.after i q a s) := by
  intro e t since hmark
  rcases hmark.of_after with ⟨rfl, rfl⟩ | ⟨hstop, since', rfl, hmark'⟩
  · -- the copy that was acknowledged just now
    have hkind := hmark.kind
    simp only [rewrote, Bool.and_eq_true] at hkind
    obtain ⟨⟨hcopy, hlands⟩, hack⟩ := hkind
    obtain ⟨v, hv, hside, hmay⟩ := lands_view hdiscards hserve hview hlands hack
    have hvw := view_visible hv
    rw [hside] at hvw
    cases hj : job i with
    | copy r =>
      unfold MayLand MayShow at hmay
      rw [hj] at hmay
      exact ⟨r, _, rfl, hvw, hvw, hmay⟩
    | _ =>
      rw [hj] at hcopy
      simp [Job.isCopy] at hcopy
  · obtain ⟨r, vw, hr, hnow, hnext, hasked⟩ := h e t since' hmark'
    have hsame : view T s = view T w.state := by
      rcases view_moves hserve hwrap hview with hsame | ⟨r', vw', hj, hlands, hvw', -⟩ | ⟨htag, -⟩
      · exact hsame
      · cases a with
        | error f => rw [Bucket.serve_refused hfaults hserve]
        | ok r₀ =>
          refine absurd ?_ hstop
          simp only [rewrote, Bool.and_eq_true]
          exact ⟨⟨by rw [hj]; rfl, hlands⟩, rfl⟩
      · exact absurd (htag.symm.trans (Job.publishes_isTag (hjobs i))) (by simp)
    refine ⟨r, vw, hr, hsame.trans hnow, ?_, hasked⟩
    exact (congrArg (view T) (World.next_snoc since' _ s)).trans hnext

omit hfaults hdiscards hjobs in
theorem rewrites_drifts (h : RewritesStay T job w) (hs : w.state.Drift s) : RewritesStay T job (w.moved s) := by
  intro e t since hmark
  obtain ⟨since', rfl, hmark'⟩ := hmark.of_moved
  obtain ⟨r, vw, hr, hnow, hnext, hasked⟩ := h e t since' hmark'
  obtain ⟨hvis, hside⟩ := drift_same hs
  have hsame : view T s = view T w.state :=
    view_congr (by rw [hvis]) fun v _ => by rw [hside]
  refine ⟨r, vw, hr, hsame.trans hnow, ?_, hasked⟩
  exact (congrArg (view T) (World.next_snoc since' _ s)).trans hnext

end

/-! ## Runs -/

theorem publishers_starters (hsize : G.keys.Sized) (hfaults : G.faults = false)
    (hjobs : ∀ i, (job i).publishes = true ∧ Acts T (job i))
    (hlets : ∀ i w q, lets i w q → NotOvertaken T job i w q) :
    Starters (onView T job lets) fun _ _ _ => True := by
  intro i w p _ hstart
  obtain ⟨rfl, -⟩ := hstart
  obtain ⟨hpub, hacts⟩ := hjobs i
  refine ⟨fun _ => True, Stable.true, trivial, ?_⟩
  cases hj : job i with
  | rotate r =>
    rw [hj] at hacts
    exact ended_keeps (rotateOne_view hfaults hsize hlets
      (fun i w q _ => notRetagged (fun j => (hjobs j).1) i w q) hacts hj)
  | copy r =>
    rw [hj] at hacts
    exact ended_keeps (copyObject_view hsize hacts hj)
  | _ =>
    rw [hj] at hpub
    simp [Job.publishes] at hpub

/-- **Rewrites of metadata stay**, whatever rotations and copies of the object onto itself run and in
whatever order their requests are served, as long as no rotation completes its upload over a version
with the entity tag that it saw when another program has published since its `HEAD`. -/
theorem rewrites_stay (hsize : G.keys.Sized) (hfaults : G.faults = false) (hdiscards : G.discards = false)
    (hjobs : ∀ i, (job i).publishes = true ∧ Acts T (job i))
    (hlets : ∀ i w q, lets i w q → NotOvertaken T job i w q) {s₀ : Bucket} (h₀ : s₀.Ranked)
    (hl : s₀.Labelled G.base64) {c : CloudConf}
    (h : Reach (system G job lets) s₀ c) : RewritesStay T job c.world := by
  have hreach := reach_wraps hsize h₀ hl h
  have hinit : (viewRules T job).inv ⟨s₀, []⟩ := ⟨⟨uploadInv_init h₀, wrapInv_init hl⟩, trivial⟩
  have hunder := hreach.under viewRules_sound (publishers_starters hsize hfaults hjobs hlets) hinit
  have hpub : ∀ i, (job i).publishes = true := fun i => (hjobs i).1
  refine Reach.always ?_ (fun w s hI hs => rewrites_drifts hI hs) (fun e s since hmark => ?_) hunder
  · intro i w q a s hI hlets hserve
    exact rewrites_moves hfaults hdiscards hpub hI hserve hlets.1.2.2 hlets.2.2
  · obtain ⟨before, hsplit⟩ := hmark.split
    simp at hsplit

/-! ## A rotation that is overtaken -/

theorem ring_sized {A : Aead Keys.wrapTagSize} (hA : A.Correct) (r : Keys.Keyring) : (KeyProvider.ring hA r).Sized := by
  intro kid dek aad nonce x h
  obtain ⟨hlen, h⟩ := ite_none_right_eq_some.mp h
  obtain ⟨kek, -, h⟩ := bind_ok (toOption_some.mp h)
  cases (else_ok (else_ok h).2).2
  rw [List.length_append, A.sealBytes_length, hlen.1, hlen.2]
  rfl

theorem clearKeys_sized : clearKeys.Sized := ring_sized _ _

theorem Bucket.empty_labelled (E : Base64) : Bucket.empty.Labelled E where
  uses := by
    intro n h
    rcases h with ⟨l, v, hv, -⟩ | ⟨u, up, hup, -⟩
    · simp [Bucket.empty] at hv
    · simp [Bucket.empty] at hup
  sidecars := by
    intro l n b hb
    simp [Bucket.empty] at hb

theorem steadyPut_labelled : steadyPut.world.state.Ranked ∧ steadyPut.world.state.Labelled steadySite.base64 :=
  labelled_of_reach clearKeys_sized Bucket.empty_ranked (Bucket.empty_labelled _) (runOf_reach _ _ _ _)

def steadyTarget : Target steadySite := ⟨[98], [107], [107], rfl⟩

/-- A rotation to another key id, and copies that give the object a content type. -/
def rewriteJobs : Nat → Job
  | 0 => .rotate ⟨[98], [107], [107], [76], false, false⟩
  | _ => .copy ⟨[98], [107], [98], [107], fun _ => true, some ([], { contentType := [116] }), {}, .carry⟩

theorem rewriteJobs_act (i : Nat) : (rewriteJobs i).publishes = true ∧ Acts steadyTarget (rewriteJobs i) := by
  cases i with
  | zero => exact ⟨rfl, rfl, rfl, rfl, rfl⟩
  | succ i => exact ⟨rfl, ⟨rfl, rfl⟩, ⟨rfl, rfl⟩, rfl⟩

/-- A copy comes between the rotation's check for other uploads and its completion. -/
def overtakenRun : CloudConf :=
  runOf steadySite rewriteJobs steadyPut.world.state
    [.start 0, .ask 0 {}, .ask 0 (.bytes 12 2), .ask 0 {}, .ask 0 {}, .ask 0 {}, .ask 0 {},
      .start 1, .ask 1 {}, .ask 1 (.bytes 12 3), .ask 1 {}, .ask 1 {}, .ask 0 {}]

/-- **A rotation takes a rewrite back.** The copy is acknowledged and keeps the entity tag, so the
rotation completes over it and publishes the headers that it saw before. -/
theorem rewrite_taken_back : Reach (system steadySite rewriteJobs fun _ _ _ => True) steadyPut.world.state overtakenRun
      ∧ hasEnded overtakenRun 0 = true ∧ hasEnded overtakenRun 1 = true
      ∧ ¬ RewritesStay steadyTarget rewriteJobs overtakenRun.world := by
  refine ⟨runOf_reach _ _ _ _, by decide +kernel, by decide +kernel, fun h => ?_⟩
  have hkind : (overtakenRun.world.trace[9]?).any
      (isKind fun e => rewrote rewriteJobs steadyTarget.loc e = true) = true := by decide +kernel
  have hclear : (overtakenRun.world.trace.drop 10).all
      (fun y => !isKind (fun e => rewrote rewriteJobs steadyTarget.loc e = true) y) = true := by
    decide +kernel
  obtain ⟨e, s, hmark⟩ := World.mark_of_check 9 hkind hclear
  obtain ⟨r, vw, hr, hnow, -, md, hd, hrep, -, hhd, -⟩ := h e s _ hmark
  -- the only copies are those that set the content type
  have hd' : hd = { contentType := [116] } := by
    cases hwho : e.who with
    | zero =>
      rw [hwho] at hr
      simp [rewriteJobs] at hr
    | succ n =>
      rw [hwho] at hr
      cases hr
      exact (Prod.mk.inj (some.inj hrep)).2.symm
  have hseen : (view steadyTarget overtakenRun.world.state).map (·.headers) = some {} := by decide +kernel
  rw [hnow, map_some, hhd, hd'] at hseen
  simp at hseen

/-- The rotation runs first, and then the copy. -/
def rewriteMoves : List (Move Choice) :=
  [.start 0, .ask 0 {}, .ask 0 (.bytes 12 2), .ask 0 {}, .ask 0 {}, .ask 0 {}, .ask 0 {}, .ask 0 {},
    .start 1, .ask 1 {}, .ask 1 (.bytes 12 3), .ask 1 {}, .ask 1 {}]

theorem rewrites_stay_run : RewritesStay steadyTarget rewriteJobs
      (runOf steadySite rewriteJobs steadyPut.world.state rewriteMoves).world := by
  have hlets : runLets steadySite rewriteJobs (NotOvertaken steadyTarget rewriteJobs)
      steadyPut.world.state rewriteMoves = true := by decide +kernel
  exact rewrites_stay clearKeys_sized rfl rfl rewriteJobs_act (fun _ _ _ h => h) steadyPut_labelled.1
    steadyPut_labelled.2 (runLets_reach _ _ _ hlets)

end BlindBucket.Cloud
