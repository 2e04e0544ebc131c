import BlindBucket.Cloud.Yield

/-!
# Whose wrapped key it is

Every version and every upload has a data key that was wrapped for it alone. The wrapped key is drawn
at random, its base64 form is `bb-dek`, and that is what the tag sidecar of the version is named
after. So a name is used by the program that wrapped the key, once, and a sidecar under it is written
before the version is visible, by that program, or afterwards, by a tag request that has seen it.
-/

namespace BlindBucket.Cloud

open BlindBucket.Stream ObjectMeta Service

/-- A wrapped key has the size that the format fixes. -/
def KeyProvider.Sized (K : KeyProvider) : Prop :=
  ∀ kid dek aad nonce x, K.wrap kid dek aad nonce = some x → x.length = wrappedDEKSize

/-- Program `i` was given this wrapped key. -/
def Wrapped (i : Nat) (x : Bytes) (w : CloudWorld) : Prop :=
  ∃ kid dek aad, w.Asked ⟨i, .wrap kid dek aad, .ok x⟩

/-- A version that is visible, or an upload that is open, has this `bb-dek`. -/
def Bucket.Uses (n : Bytes) (s : Bucket) : Prop :=
  (∃ l v, s.visible.lookup l = some v ∧ storedDEK v.metadata = n)
    ∨ ∃ u up, s.uploads.lookup u = some up ∧ storedDEK up.metadata = n

def Used (n : Bytes) (w : CloudWorld) : Prop := w.Ever (Bucket.Uses n)

/-- The base64 form of a wrapped key that was drawn. -/
def Bucket.Drawn (E : Base64) (s : Bucket) (n : Bytes) : Prop := ∃ x ∈ s.wraps, n = E.encode x

/-- A name that program `i` alone can use, and has not. -/
def FreshName (E : Base64) (i : Nat) (n : Bytes) (w : CloudWorld) : Prop :=
  ∃ x, Wrapped i x w ∧ n = E.encode x ∧ n ≠ [] ∧ ¬ Used n w

def Job.isTag : Job → Bool
  | .tag .. => true
  | _ => false

/-- The metadata that a request gives a version or an upload. -/
def Req.metadata : Req → Option Metadata
  | .put _ _ md _ _ => some md
  | .copy _ _ md _ _ => some md
  | .createUpload _ md _ => some md
  | _ => none

variable (E : Base64) (job : Nat → Job)

/-- The invariant: names are those of wrapped keys, and every wrapped key is one program's. -/
structure WrapInv (w : CloudWorld) : Prop where
  drawn : ∀ i x, Wrapped i x w → x ∈ w.state.wraps
  /-- No two programs are given one wrapped key. -/
  owner : ∀ i j x, Wrapped i x w → Wrapped j x w → i = j
  /-- A `bb-dek` in use was drawn. -/
  used : ∀ n, Used n w → n ≠ [] → w.state.Drawn E n
  /-- So was the name of a sidecar. -/
  sidecars : ∀ l n b, w.state.sidecars.lookup (l, n) = some b → w.state.Drawn E n

/-- The names under which program `i` may write a sidecar: a tag request one that it has seen in use,
and any other program one of its own. -/
def SidecarName (i : Nat) (n : Bytes) (w : CloudWorld) : Prop :=
  if (job i).isTag then Used n w ∧ n ≠ [] else FreshName E i n w

def wrapMay (i : Nat) (w : CloudWorld) : Req → Prop
  | .put _ _ md _ _ => FreshName E i (storedDEK md) w
  | .copy _ _ md _ _ => FreshName E i (storedDEK md) w
  | .createUpload _ md _ => FreshName E i (storedDEK md) w
  | .putSidecar _ n _ => SidecarName E job i n w
  | _ => True

/-- The rules about wrapped keys, on top of those about uploads. -/
def wrapRules : Rules Bucket Req Answer := (uploadRules job).over (WrapInv E) (wrapMay E job)

abbrev onWraps (G : Site) (job : Nat → Job) (lets : Lets) :
    Regime Bucket Req Answer Outcome := ⟨uploadSystem G job lets, wrapRules G.base64 job⟩

theorem wrapRules_quiet (i : Nat) : Quiet fun q => ∀ w, (wrapRules E job).may i w q := by
  intro q hq w
  cases q <;> trivial

variable {E job} {G : Site} {lets : Lets} {i : Nat}

/-! ## What a step adds -/

variable {w : CloudWorld}

variable {x : Bytes} {j : Nat} {q : Req} {a : Answer q} {s s' s₀ : Bucket} {c : CloudConf}

theorem Wrapped.after (h : Wrapped i x w) (j : Nat) (q : Req) (a : Answer q) (s : Bucket) :
    Wrapped i x (w.after j q a s) := by
  obtain ⟨kid, dek, aad, h⟩ := h
  exact ⟨kid, dek, aad, h.after⟩

theorem wrapped_after (h : Wrapped i x (w.after j q a s)) (hserve : w.state.serve G.toBackend G.base64 q a s) :
    Wrapped i x w ∨ i = j ∧ x ∉ w.state.wraps ∧ x ∈ s.wraps := by
  obtain ⟨kid, dek, aad, h⟩ := h
  rcases World.asked_after.mp h with h | h
  · exact .inl ⟨kid, dek, aad, h⟩
  · cases h
    obtain ⟨-, hnew, rfl⟩ := Bucket.serve_wrap hserve
    exact .inr ⟨rfl, hnew, List.mem_cons_self⟩

variable {n : Bytes}

/-- A visible object or an open upload has this `bb-dek`. -/
def Bucket.Holds (s : Bucket) (n : Bytes) : Loc ⊕ Nat → Prop
  | .inl l => ∃ v, s.visible.lookup l = some v ∧ storedDEK v.metadata = n
  | .inr u => ∃ up, s.uploads.lookup u = some up ∧ storedDEK up.metadata = n

theorem Bucket.uses_iff : s.Uses n ↔ ∃ b, s.Holds n b := (Sum.exists (p := s.Holds n)).symm

/-- What a request gives a `bb-dek` to. -/
def Req.holder (s : Bucket) : Req → Loc ⊕ Nat
  | .put l .. => .inl l
  | .copy _ dst .. => .inl dst
  | _ => .inr s.clock

/-- A holder was one before, was given the key by the request, or is an upload that was completed. -/
theorem holds_effect (he : s.Effect G.toBackend G.base64 q s') {b : Loc ⊕ Nat} (h : s'.Holds n b) :
    s.Holds n b ∨ (∃ md, q.metadata = some md ∧ storedDEK md = n ∧ b = q.holder s) ∨
      ∃ l u parts c, q = .complete l u parts c ∧ b = .inl l ∧ s.Holds n (.inr u) ∧ s'.uploads.lookup u = none := by
  cases b with
  | inl l =>
    obtain ⟨v, hv, hn⟩ := h
    rcases he.visible hv with hold | hpub
    · exact .inl ⟨v, hold, hn⟩
    · cases hpub with
      | put hc hv' | copy hsrc hv' => subst hv'; exact .inr (.inl ⟨_, rfl, hn, rfl⟩)
      | finish hup hbs hc hv' =>
        subst hv'
        exact .inr (.inr ⟨l, _, _, _, rfl, rfl, ⟨_, (Bucket.uploadAt_eq.mp hup).1, hn⟩, AList.lookup_erase ..⟩)
  | inr u =>
    obtain ⟨up, hup, hn⟩ := h
    rcases he.uploads hup with ⟨up₀, hup₀, -, hmd, -⟩ | ⟨l, md, hd, rfl, rfl, rfl, -⟩
    · exact .inl ⟨up₀, hup₀, by rw [hmd, hn]⟩
    · exact .inr (.inl ⟨md, rfl, hn, rfl⟩)

/-- A name that is in use after a step was in use before, or is given by the request. -/
theorem uses_effect (he : s.Effect G.toBackend G.base64 q s') (h : s'.Uses n) :
    s.Uses n ∨ ∃ md, q.metadata = some md ∧ storedDEK md = n := by
  obtain ⟨b, hb⟩ := Bucket.uses_iff.mp h
  rcases holds_effect he hb with hold | ⟨md, hmd, hn, -⟩ | ⟨-, u, -, -, -, -, hold, -⟩
  · exact .inl (Bucket.uses_iff.mpr ⟨b, hold⟩)
  · exact .inr ⟨md, hmd, hn⟩
  · exact .inl (Bucket.uses_iff.mpr ⟨.inr u, hold⟩)

theorem wrapMay_metadata {md : Metadata} (h : wrapMay E job i w q) (hq : q.metadata = some md) :
    FreshName E i (storedDEK md) w := by
  cases q with
  | put l body md' hd c | copy src dst md' hd e | createUpload l md' hd => cases hq; exact h
  | _ => simp [Req.metadata] at hq

theorem used_after (hserve : w.state.serve G.toBackend G.base64 q a s) (hmay : wrapMay G.base64 job i w q)
    (h : Used n (w.after i q a s)) : Used n w ∨ FreshName G.base64 i n w := by
  rcases World.ever_after.mp h with h | h
  · exact .inl h
  · rcases uses_effect (Bucket.serve_effect hserve) h with h | ⟨md, hmd, rfl⟩
    · exact .inl (.inl h)
    · exact .inr (wrapMay_metadata hmay hmd)

theorem uses_drift (hs : s.Drift s') (h : s'.Uses n) : s.Uses n := by
  cases hs with
  | tick t ht => exact h
  | abort u =>
    rcases h with h | ⟨u', up, hup, hn⟩
    · exact .inl h
    · have hup : (s.uploads.erase u).lookup u' = some up := hup
      rw [Bucket.lookup_erase_ite] at hup
      obtain ⟨_, hup⟩ := Option.ite_none_left_eq_some.mp hup
      exact .inr ⟨u', up, hup, hn⟩

theorem used_moved (hs : w.state.Drift s) : Used n (w.moved s) ↔ Used n w := by
  constructor
  · intro h
    rcases World.ever_moved.mp h with h | h
    · exact h
    · exact .inl (uses_drift hs h)
  · exact fun h => World.ever_moved.mpr (.inl h)

@[simp] theorem wrapped_moved : Wrapped i x (w.moved s) ↔ Wrapped i x w := by simp [Wrapped]

theorem Bucket.Drawn.step (h : s.Drawn G.base64 n) (he : s.Effect G.toBackend G.base64 q s') : s'.Drawn G.base64 n := by
  obtain ⟨x, hx, hn⟩ := h
  exact ⟨x, he.wraps_stay hx, hn⟩

theorem FreshName.drawn (hw : WrapInv E w) (h : FreshName E i n w) : w.state.Drawn E n := by
  obtain ⟨x, hx, hn, -⟩ := h
  exact ⟨x, hw.drawn i x hx, hn⟩

theorem SidecarName.drawn (hw : WrapInv E w) (h : SidecarName E job i n w) : w.state.Drawn E n := by
  unfold SidecarName at h
  split at h
  · exact hw.used n h.1 h.2
  · exact FreshName.drawn hw h

theorem wrapRules_sound : Sound (onWraps G job lets) := by
  refine Sound.over uploadRules_sound ?_ ?_
  · intro i w q a s _ _ _ hI hmay hserve
    have he := Bucket.serve_effect hserve
    refine ⟨fun j x hx => ?_, fun j k x hj hk => ?_, fun n hn hne => ?_, fun l n b hb => ?_⟩
    · rcases wrapped_after hx hserve with hx | ⟨-, -, hx⟩
      · exact he.wraps_stay (hI.drawn j x hx)
      · exact hx
    · rcases wrapped_after hj hserve with hj | ⟨hji, hnew, -⟩
      · rcases wrapped_after hk hserve with hk | ⟨-, hnew, -⟩
        · exact hI.owner j k x hj hk
        · exact absurd (hI.drawn j x hj) hnew
      · rcases wrapped_after hk hserve with hk | ⟨hki, -, -⟩
        · exact absurd (hI.drawn k x hk) hnew
        · exact hji.trans hki.symm
    · rcases used_after hserve hmay hn with hn | hfresh
      · exact (hI.used n hn hne).step he
      · exact (hfresh.drawn hI).step he
    · rcases he.sidecar l n with hold | ⟨raw, rfl, rfl⟩ | ⟨-, rfl⟩
      · exact (hI.sidecars l n b (hold ▸ hb)).step he
      · exact (SidecarName.drawn hI hmay).step he
      · exact absurd ((AList.lookup_erase _ _).symm.trans hb) (by simp)
  · intro w s _ hI hs
    obtain ⟨l, u, he⟩ := Bucket.drift_effect G.toBackend G.base64 hs
    refine ⟨fun j x hx => ?_, fun j k x hj hk => ?_, fun n hn hne => ?_, fun l n b hb => ?_⟩
    · exact he.wraps_stay (hI.drawn j x (wrapped_moved.mp hx))
    · exact hI.owner j k x (wrapped_moved.mp hj) (wrapped_moved.mp hk)
    · exact (hI.used n ((used_moved hs).mp hn) hne).step he
    · rcases he.sidecar l n with hold | ⟨raw, hq, -⟩ | ⟨hq, -⟩
      · exact (hI.sidecars l n b (hold ▸ hb)).step he
      · simp at hq
      · simp at hq

/-! ## Every program holds to them -/

theorem fresh_others (hw : WrapInv G.base64 w) (h : FreshName G.base64 i n w) (hj : j ≠ i)
    (hserve : w.state.serve G.toBackend G.base64 q a s) (hmay : wrapMay G.base64 job j w q) :
    FreshName G.base64 i n (w.after j q a s) := by
  obtain ⟨x, hx, rfl, hne, hused⟩ := h
  refine ⟨x, hx.after j q a s, rfl, hne, fun hn => ?_⟩
  rcases used_after hserve hmay hn with hn | ⟨y, hy, he, -⟩
  · exact hused hn
  · obtain rfl := G.base64.encode_inj he
    exact hj (hw.owner j i x hy hx)

theorem FreshName.moved (h : FreshName E i n w) (hs : w.state.Drift s) : FreshName E i n (w.moved s) := by
  obtain ⟨x, hx, hn, hne, hused⟩ := h
  exact ⟨x, wrapped_moved.mpr hx, hn, hne, fun h => hused ((used_moved hs).mp h)⟩

theorem stable_fresh (n : Bytes) :
    Stable (onWraps G job lets) i (FreshName G.base64 i n) where
  moves j w w' hj hw hk hm := by
    obtain ⟨q, a, s, -, hmay, hserve, rfl⟩ := hm
    exact fresh_others hw.2 hk hj hserve hmay
  drifts w w' _ hk hd := by
    obtain ⟨s, hs, rfl⟩ := hd
    exact hk.moved hs

/-- A request that gives no name away leaves a name of one's own as it is. -/
theorem FreshName.after (h : FreshName G.base64 i n w) (hq : q.metadata = none)
    (hserve : w.state.serve G.toBackend G.base64 q a s) : FreshName G.base64 i n (w.after j q a s) := by
  obtain ⟨x, hx, hn, hne, hused⟩ := h
  refine ⟨x, hx.after j q a s, hn, hne, fun h => ?_⟩
  rcases World.ever_after.mp h with h | h
  · exact hused h
  · rcases uses_effect (Bucket.serve_effect hserve) h with h | ⟨md, hmd, -⟩
    · exact hused (.inl h)
    · exact absurd (hq.symm.trans hmd) (by simp)

/-- A request that gives no name away, and that a program may make which has the name `n`. -/
def Keeping (G : Site) (job : Nat → Job) (i : Nat) (n : Bytes) (q : Req) : Prop :=
  q.metadata = none ∧ ∀ w, FreshName G.base64 i n w → wrapMay G.base64 job i w q

theorem keeping_quiet (n : Bytes) : Quiet (Keeping G job i n) := by
  intro q hq
  refine ⟨?_, fun w _ => wrapRules_quiet G.base64 job i q hq w⟩
  cases q <;> first | rfl | exact absurd hq (by simp [Req.quiet, Req.reads])

/-- A program that makes only such requests still has the name. -/
theorem keeps_fresh {α : Type} {p : Call α} (h : p.Asks (Keeping G job i n)) :
    p.Keeps (onWraps G job lets) i (FreshName G.base64 i n)
      fun _ => FreshName G.base64 i n :=
  h.keeps (stable_fresh n) (fun _ w hq _ hk _ => hq.2 w hk)
    fun _ _ _ _ hq _ hk _ hserve => hk.after hq.1 hserve

theorem keeping_putSidecar (hj : (job i).isTag = false) (l : Loc) (n raw : Bytes) :
    Keeping G job i n (.putSidecar l n raw) := by
  refine ⟨rfl, fun w hk => ?_⟩
  unfold wrapMay SidecarName
  rw [hj]
  exact hk

theorem fresh_of_wrap (hsize : G.keys.Sized) (hw : WrapInv G.base64 w) {kid dek aad : Bytes}
    (hserve : w.state.serve G.toBackend G.base64 (.wrap kid dek aad) (.ok x) s) :
    FreshName G.base64 i (G.base64.encode x) (w.after i (.wrap kid dek aad) (.ok x) s) := by
  have he := Bucket.serve_effect hserve
  obtain ⟨⟨nonce, hx⟩, hnew, -⟩ := Bucket.serve_wrap hserve
  have hne : G.base64.encode x ≠ [] := by
    refine G.base64.encode_ne_nil ?_
    intro hnil
    have hlen := hsize _ _ _ _ _ hx
    rw [hnil] at hlen
    exact absurd hlen (by decide)
  refine ⟨x, ⟨_, _, _, World.asked_now _ _ _ _ _⟩, rfl, hne, fun hused => ?_⟩
  have hold : Used (G.base64.encode x) w := by
    rcases World.ever_after.mp hused with h | h
    · exact h
    · rcases uses_effect he h with h | ⟨md, hmd, -⟩
      · exact .inl h
      · simp [Req.metadata] at hmd
  obtain ⟨y, hy, hxy⟩ := hw.used _ hold hne
  rw [G.base64.encode_inj hxy] at hnew
  exact hnew hy

theorem wrapDEK_fresh (hsize : G.keys.Sized) (bucket key kid dek : Bytes) :
    (wrapDEK bucket key kid dek).Keeps (onWraps G job lets) i
      (fun _ => True) fun x w => FreshName G.base64 i (G.base64.encode x) w := by
  refine .bind needOk_asks.tame fun aad => ?_
  refine ask_keeps (fun _ _ _ _ => trivial) (fun x => stable_fresh _) ?_
  exact fun x w s hw _ _ hserve => fresh_of_wrap hsize hw.2 hserve

/-- The sidecar of an object is written under the object's own name. -/
theorem writeTagsBeforeObject_keeping (hj : (job i).isTag = false) (l : Loc) (bucket key : Bytes)
    (m : Meta) (dek : Bytes) (set : List Tag) :
    (writeTagsBeforeObject G l bucket key m dek set).Asks
      (Keeping G job i (G.base64.encode m.wrappedDEK)) := by
  unfold writeTagsBeforeObject
  split
  · exact .pure _
  · exact .bind need_asks fun raw => ask_asks (keeping_putSidecar hj _ _ raw)

theorem putObject_wraps (hsize : G.keys.Sized) (r : PutRequest) (hj : (job i).isTag = false) :
    (putObject G r).Tame (onWraps G job lets) i := by
  have hq := wrapRules_quiet G.base64 job i
  refine (clientMetadata_keeps _).bind fun md => .given fun hmd => ?_
  refine storedLoc_asks.tame.bind fun l => ?_
  refine need_asks.tame.bind fun kid => ?_
  refine (ask_tame (hq _ rfl)).bind fun dek => ?_
  refine (wrapDEK_fresh hsize _ _ _ _).bind fun wrapped => ?_
  refine .bind (keeps_fresh (writeTagsBeforeObject_keeping hj l _ _ (newMeta G kid wrapped none) dek _))
    (fun _ => ?_)
  refine (keeps_fresh (sealSegment_asks G (keeping_quiet _) dek _ _)).bind fun sealed => ?_
  refine .bind (ask_keeps (fun w _ hk _ => ?_) (fun _ => Stable.true) fun _ _ _ _ _ _ _ => trivial)
    (fun _ => Act.Tame.pure ())
  change FreshName G.base64 i (storedDEK _) w
  rw [storedDEK_merge hmd]
  exact hk

theorem createUpload_wraps (l : Loc) (md : Metadata) (hd : Headers) (hn : storedDEK md = n) :
    (ask (.createUpload l md hd)).Keeps (onWraps G job lets) i
      (FreshName G.base64 i n) fun _ _ => True := by
  subst hn
  exact ask_keeps (fun _ _ hk _ => hk) (fun _ => Stable.true) fun _ _ _ _ _ _ _ => trivial

theorem createMultipartUpload_wraps (hsize : G.keys.Sized) (r : CreateRequest) (hj : (job i).isTag = false) :
    (createMultipartUpload G r).Tame (onWraps G job lets) i := by
  have hq := wrapRules_quiet G.base64 job i
  refine (clientMetadata_keeps _).bind fun md => .given fun hmd => ?_
  refine storedLoc_asks.tame.bind fun l => ?_
  refine need_asks.tame.bind fun kid => ?_
  refine (ask_tame (hq _ rfl)).bind fun dek => ?_
  refine (wrapDEK_fresh hsize _ _ _ _).bind fun wrapped => ?_
  refine (keeps_fresh (ask_asks (keeping_quiet _ _ rfl))).bind fun id => ?_
  refine .bind
    (keeps_fresh (writeTagsBeforeObject_keeping hj l _ _ (newMeta G kid wrapped (some id)) dek _)) (fun _ => ?_)
  refine .bind (createUpload_wraps l _ _ (storedDEK_merge hmd _)) (fun u => ?_)
  exact ask_tame fun _ => trivial

theorem rewrap_fresh (hsize : G.keys.Sized) (r : CopyRequest) :
    (rewrap G r).Keeps (onWraps G job lets) i (fun _ => True)
      fun wrapped w => FreshName G.base64 i (G.base64.encode wrapped.1.wrappedDEK) w := by
  refine .bind (unwrapDEK_asks G _ _ _ _).tame fun dek => ?_
  refine (wrapDEK_fresh hsize _ _ _ dek).bind fun x => ?_
  exact .pure fun _ _ hk => hk

theorem nextVersion_wraps (r : CopyRequest) (next : Meta) (dek : Bytes) :
    (nextVersion G r next dek).Keeps (onWraps G job lets) i
      (FreshName G.base64 i (G.base64.encode next.wrappedDEK))
      fun version => FreshName G.base64 i (G.base64.encode version.1.wrappedDEK) := by
  unfold nextVersion
  cases r.source.info_meta.manifestID with
  | none => exact .pure fun _ _ hk => hk
  | some id =>
    refine (keeps_fresh (loadParts_asks G (keeping_quiet _) _ _ _)).bind fun parts => ?_
    refine (keeps_fresh (ask_asks (keeping_quiet _ _ rfl))).bind fun newId => ?_
    exact .pure fun _ _ hk => hk

theorem copyDo_wraps (hsize : G.keys.Sized) (hj : (job i).isTag = false) (r : CopyRequest) :
    (copyDo G r).Tame (onWraps G job lets) i := by
  have hq := wrapRules_quiet G.base64 job i
  refine require_asks.tame.bind fun _ => ?_
  refine require_asks.tame.bind fun _ => ?_
  refine needOk_asks.tame.bind fun _ => ?_
  refine (rewrap_fresh hsize r).bind fun wrapped => ?_
  have htags : (writeTags G r wrapped.1 wrapped.2).Asks (Keeping G job i (G.base64.encode wrapped.1.wrappedDEK)) :=
    .bind (copiedTags_asks G (keeping_quiet _) r _) fun set =>
      writeTagsBeforeObject_keeping hj _ _ _ _ _ set
  refine (keeps_fresh htags).bind fun _ => ?_
  have huser : ∀ e ∈ userMetadataOf r.dest.userMetadata, reserved e.1 = false :=
    fun _ he => userMetadataOf_not_reserved he
  split
  · have hcopy : (tryAsk (.copy r.source.loc r.dest.loc
          (mergeMetadata G.base64 (userMetadataOf r.dest.userMetadata) wrapped.1) r.dest.headers
          r.sourceIfMatch)).Keeps (onWraps G job lets) i
        (FreshName G.base64 i (G.base64.encode wrapped.1.wrappedDEK)) fun _ _ => True := by
      refine tryAsk_keeps (fun w _ hk _ => ?_) (fun _ => Stable.true) fun _ _ _ _ _ _ _ => trivial
      change FreshName G.base64 i (storedDEK _) w
      rw [storedDEK_merge huser]
      exact hk
    refine .bind hcopy fun a => ?_
    cases a with
    | ok _ => exact Act.Tame.pure _
    | error f => cases f <;> exact Act.Tame.throw _
  · refine (nextVersion_wraps r _ _).bind fun version => ?_
    refine (createUpload_wraps _ _ _ (storedDEK_merge huser _)).bind fun u => ?_
    have hpub : (publishUpload G r version.1 wrapped.2 version.2 u).Tame (onWraps G job lets) i :=
      (publishUpload_asks G hq r _ _ _ u (fun _ _ _ => trivial) (fun _ _ _ => trivial) fun _ _ => trivial).tame
    refine (orAbort_keeps (fun _ _ _ => trivial) hpub _ _).bind fun _ => ?_
    exact .bind (dropOld_asks _ _ _ fun _ _ => trivial).tame fun _ => Act.Tame.pure _

theorem encryptWrite_wraps (hsize : G.keys.Sized) (r : EncryptRequest) (l : Loc) (info : Info) (c : Cond)
    (hmd : ∀ e ∈ info.metadata, reserved e.1 = false) :
    (encryptWrite G r l info c).Tame (onWraps G job lets) i := by
  have hq := wrapRules_quiet G.base64 job i
  refine needOk_asks.tame.bind fun partSize => ?_
  refine (ask_tame (hq _ rfl)).bind fun dek => ?_
  refine (wrapDEK_fresh hsize _ _ _ _).bind fun wrapped => ?_
  refine (keeps_fresh (manifestFor_asks (keeping_quiet _) _)).bind fun id => ?_
  refine (keeps_fresh (readPlain_asks (keeping_quiet _) r info)).bind fun body => ?_
  refine .bind (createUpload_wraps l _ _ (storedDEK_merge hmd _)) (fun u => ?_)
  have hup := writeUpload_asks hq G r l u
    (newMeta G r.kid wrapped id) partSize.toNat dek body info c (fun _ _ _ => trivial) (fun _ _ _ => trivial)
    fun _ _ => trivial
  exact orAbort_keeps (fun _ _ _ => trivial) hup.tame l u

theorem findTagTarget_used (l : Loc) (bucket key : Bytes) :
    (findTagTarget G l bucket key).Keeps (onWraps G job lets) i
      (fun _ => True) fun target w => Used target.1 w ∧ target.1 ≠ [] := by
  have hused : ∀ n, Firm (onWraps G job lets) (Used n) := by
    refine fun n => ⟨fun i w w' _ hk hm => ?_, fun w w' _ hk hd => ?_⟩
    · obtain ⟨q, a, s, -, -, -, rfl⟩ := hm
      exact World.ever_after.mpr (.inl hk)
    · obtain ⟨s, -, rfl⟩ := hd
      exact World.ever_moved.mpr (.inl hk)
  have hhead : (ask (.head l)).Keeps (onWraps G job lets) i (fun _ => True)
      fun info w => Used (storedDEK info.metadata) w := by
    refine ask_keeps (fun _ _ _ _ => trivial) (fun info => (hused _).stable) ?_
    intro info w s _ _ _ hserve
    obtain ⟨rfl, v, hv, rfl⟩ := Bucket.serve_head hserve
    exact .inl (.inl ⟨l, v, hv, rfl⟩)
  refine .bind hhead fun info => ?_
  refine (parseMeta_keeps G _).bind fun m => .given fun hm => ?_
  refine ((unwrapDEK_asks G _ _ _ _).tame.frame (hused _)).bind fun dek => ?_
  exact .pure fun w _ hk => ⟨hk, (parse_ok hm).named⟩

theorem tagRequest_wraps (hj : (job i).isTag = true) (bucket key : Bytes) (op : TagOp) :
    (tagRequest G bucket key op).Tame (onWraps G job lets) i := by
  cases op with
  | put set =>
    refine storedLoc_asks.tame.bind fun l => ?_
    refine (findTagTarget_used l bucket key).bind fun target => ?_
    refine need_keeps.bind fun raw => .given fun _ => ?_
    refine ask_keeps (fun w _ hk _ => ?_) (fun _ => Stable.true) fun _ _ _ _ _ _ _ => trivial
    change SidecarName _ job i _ w
    unfold SidecarName
    rw [hj]
    exact hk
  | delete =>
    refine storedLoc_asks.tame.bind fun l => ?_
    refine (findTagTarget_used l bucket key).tame.bind fun target => ?_
    refine (tryAsk_tame fun _ => trivial).bind fun a => ?_
    cases a with
    | ok _ => exact .pure _
    | error f =>
      dsimp only
      split
      · exact .pure _
      · exact .throw _

theorem tagSession_wraps (hj : (job i).isTag = true) (bucket key : Bytes) (ops : List TagOp) :
    (tagSession G bucket key ops).Tame (onWraps G job lets) i := by
  induction ops with
  | nil => exact .pure _
  | cons op ops ih =>
    refine (Act.Tame.attempt (tagRequest_wraps hj bucket key op)).bind fun res => ?_
    cases res with
    | ok _ => exact .bind ih fun rest => .pure _
    | error e => exact ih

theorem wrap_starters (hsize : G.keys.Sized) :
    Starters (onWraps G job lets) fun _ _ _ => True := by
  intro i w p hw hstart
  obtain ⟨rfl, -⟩ := hstart
  have hq := wrapRules_quiet G.base64 job i
  refine ⟨fun _ => True, Stable.true, trivial, ?_⟩
  cases hj : job i with
  | put r => exact ended_keeps (putObject_wraps hsize r (by rw [hj]; rfl))
  | delete bucket key =>
    exact ended_keeps (deleteObject_asks G hq bucket key (fun _ _ _ => trivial) fun _ _ _ _ => trivial).tame
  | create r => exact ended_keeps (createMultipartUpload_wraps hsize r (by rw [hj]; rfl))
  | part r => exact ended_keeps (uploadPart_asks G hq r (fun _ _ _ _ => trivial) fun _ _ => trivial).tame
  | complete r =>
    exact ended_keeps (completeMultipartUpload_asks G hq r (fun _ _ _ _ => trivial) (fun _ _ _ _ => trivial)
      fun _ _ _ _ => trivial).tame
  | abort t => exact ended_keeps (abortMultipartUpload_asks G t fun _ _ _ => trivial).tame
  | copy r => exact ended_keeps (copyObject_tame hq (copyDo_wraps hsize (by rw [hj]; rfl)) r)
  | rotate r =>
    exact ended_keeps (rotateOne_keeps (fun _ _ => True) r
      ((tryAsk_tame (hq _ rfl)).imp fun _ _ _ _ _ _ => trivial)
      fun _ _ _ => copyDo_wraps hsize (by rw [hj]; rfl) _)
  | gc cfg => exact ended_keeps (gcRun_asks G hq cfg (fun _ _ _ => trivial) fun _ _ _ => trivial).tame
  | migrate r =>
    exact ended_keeps (migrateOne_tame hq r (fun _ _ _ => copyDo_wraps hsize (by rw [hj]; rfl) _)
      (fun _ => trivial) fun _ _ => trivial)
  | encrypt r =>
    exact ended_keeps (encryptOne_tame hq r
      (fun l info c hplain _ => encryptWrite_wraps hsize r l info c (judgePlain_none hplain)) fun _ => trivial)
  | tag bucket key ops => exact endedTags_keeps (tagSession_wraps (by rw [hj]; rfl) bucket key ops)
  | read p h => exact h.keeps hq

/-! ## Runs -/

/-- A state in which every `bb-dek` and every name of a sidecar comes from a wrapped key. -/
structure Bucket.Labelled (E : Base64) (s : Bucket) : Prop where
  uses : ∀ n, s.Uses n → n ≠ [] → s.Drawn E n
  sidecars : ∀ l n b, s.sidecars.lookup (l, n) = some b → s.Drawn E n

theorem wrapInv_init (h : s₀.Labelled E) : WrapInv E ⟨s₀, []⟩ where
  drawn := by intro i x hx; simp [Wrapped] at hx
  owner := by intro i j x hx; simp [Wrapped] at hx
  used := by
    intro n hn hne
    rcases hn with hn | ⟨x, hx, -⟩
    · exact h.uses n hn hne
    · exact absurd hx List.not_mem_nil
  sidecars := h.sidecars

/-- A deployment whose requests hold to the rules about uploads and about wrapped keys. -/
abbrev wrapSystem (G : Site) (job : Nat → Job) (lets : Lets) :
    System Bucket Req Answer Outcome :=
  system G job fun i w q => (lets i w q ∧ UploadInv job w ∧ uploadMay job i w q)
    ∧ (UploadInv job w ∧ WrapInv G.base64 w) ∧ wrapMay G.base64 job i w q

/-- **In a run, every request holds to the rules about wrapped keys.** -/
theorem reach_wraps (hsize : G.keys.Sized) (h₀ : s₀.Ranked) (hl : s₀.Labelled G.base64)
    (h : Reach (system G job lets) s₀ c) :
    Reach (wrapSystem G job lets) s₀ c :=
  Reach.under wrapRules_sound (wrap_starters hsize) ⟨uploadInv_init h₀, wrapInv_init hl⟩ (reach_uploads h₀ h)

/-- What a run ends in is a state that another run can start from. -/
theorem labelled_of_reach (hsize : G.keys.Sized) (h₀ : s₀.Ranked) (hl : s₀.Labelled G.base64)
    (h : Reach (system G job lets) s₀ c) :
    c.world.state.Ranked ∧ c.world.state.Labelled G.base64 := by
  have hinv := Reach.inv wrapRules_sound (wrap_starters hsize) ⟨uploadInv_init h₀, wrapInv_init hl⟩
    (reach_uploads h₀ h)
  exact ⟨⟨hinv.1.clock, hinv.1.ranks⟩, fun n hn => hinv.2.used n (.inl hn), hinv.2.sidecars⟩

end BlindBucket.Cloud
