import BlindBucket.Cloud.Rules

/-!
# The rules about manifests

What every program of a deployment holds to, so that a visible object always has its manifest. A
manifest id is drawn by one program, which opens one upload with it; the manifest is written before
the upload is completed, and deleted only once it is dead: no upload names it, and neither does the
visible object, so that nothing ever will again.
-/

namespace BlindBucket.Cloud

open BlindBucket.Stream ObjectMeta Service

namespace Bucket

variable (E : Base64) (s : Bucket) (l : Loc) (m : Manifest.ID)

/-- The visible object at `l` names the manifest `m`. -/
def Names : Prop :=
  ∃ v, s.visible.lookup l = some v ∧ namedManifest E v.metadata = some m

/-- An open upload of `l` names the manifest `m`. -/
def Opens : Prop :=
  ∃ u up, s.uploads.lookup u = some up ∧ up.loc = l ∧ namedManifest E up.metadata = some m

def HasManifest : Prop := (s.manifests.lookup (l, m)).isSome = true

/-- The upload that `m` was drawn for is no longer open at `l`. -/
def Settled : Prop := m ∈ s.named ∧ ¬ s.Opens E l m

/-- Nothing at `l` will ever name `m` again. -/
def Dead : Prop := s.Settled E l m ∧ ¬ s.Names E l m

/-- The upload `u` was opened with the manifest id `id`, or with none. -/
def Belongs (u : Nat) (id : Option Manifest.ID) : Prop :=
  (∀ m, id = some m → m ∈ s.named) ∧ u < s.clock
    ∧ ∀ up, s.uploads.lookup u = some up → namedManifest E up.metadata = id

/-- If the upload `u` can be completed at `l`, its manifest is there. -/
def Covered (u : Nat) (l : Loc) (id : Option Manifest.ID) : Prop :=
  ∀ up m, s.uploadAt l u = some up → id = some m → s.HasManifest l m

/-- While `m` is visible at `l`, nothing that landed there outranks `u`. -/
def Behind (u : Nat) : Prop :=
  s.Names E l m → ∀ r x, (l, r, x) ∈ s.landed → r < u

/-- What holds of the provider in between any two requests. -/
structure Sane : Prop where
  /-- **The visible object has its manifest.** -/
  stored : ∀ l m, s.Names E l m → s.HasManifest l m
  /-- A manifest that something refers to is one that an upload was opened with. -/
  visible_named : ∀ l m, s.Names E l m → m ∈ s.named
  open_named : ∀ l m, s.Opens E l m → m ∈ s.named
  kept_named : ∀ l m, s.HasManifest l m → m ∈ s.named
  /-- The id of every such manifest was drawn. -/
  minted : ∀ m, m ∈ s.named → m ∈ s.ids
  /-- An upload whose manifest is visible has been completed. -/
  apart : ∀ l m, s.Names E l m → ¬ s.Opens E l m
  /-- No two open uploads share a manifest. -/
  unique : ∀ u up u' up' m, s.uploads.lookup u = some up → s.uploads.lookup u' = some up' →
    namedManifest E up.metadata = some m → namedManifest E up'.metadata = some m → u = u'
  /-- Ranks are given out in order. -/
  clock : ∀ u up, s.uploads.lookup u = some up → u < s.clock
  ranks : ∀ l r x, (l, r, x) ∈ s.landed → r < s.clock

end Bucket

/-- Program `i` has drawn the manifest id `m`. -/
def Mine (i : Nat) (m : Manifest.ID) (w : CloudWorld) : Prop :=
  w.Asked ⟨i, .newID, .ok m⟩

variable {m : Manifest.ID}

theorem mine_moved {i : Nat} {w : CloudWorld} {s : Bucket} : Mine i m (w.moved s) ↔ Mine i m w := World.asked_moved

/-- The invariant of the rules. -/
structure ManifestInv (E : Base64) (w : CloudWorld) : Prop where
  sane : w.state.Sane E
  /-- What a program has drawn counts as drawn. -/
  mine : ∀ i m, Mine i m w → m ∈ w.state.ids
  /-- Nobody draws what another has drawn. -/
  owner : ∀ i j m, Mine i m w → Mine j m w → i = j
  /-- A token that was handed out names an upload and the manifest it was opened with. -/
  token : ∀ t, Issued w (.token t) → w.state.Belongs E t.uploadID (some t.manifestID)

def manifestMay (E : Base64) (i : Nat) (w : CloudWorld) : Req → Prop
  | .put _ _ md _ _ => namedManifest E md = none
  | .copy _ _ md _ _ => namedManifest E md = none
  | .createUpload _ md _ => ∀ m, namedManifest E md = some m → Mine i m w ∧ m ∉ w.state.named
  | .putManifest _ m _ => m ∈ w.state.named
  | .deleteManifest l m => w.state.Dead E l m
  | .complete l u _ _ => ∀ up m, w.state.uploadAt l u = some up → namedManifest E up.metadata = some m →
      w.state.HasManifest l m
  | .reply (.token t) => w.state.Belongs E t.uploadID (some t.manifestID)
  | _ => True

def manifestRules (E : Base64) : Rules Bucket Req Answer := ⟨ManifestInv E, manifestMay E⟩

abbrev onManifests (G : Site) (job : Nat → Job) (lets : Lets) :
    Regime Bucket Req Answer Outcome := ⟨system G job lets, manifestRules G.base64⟩

theorem manifestRules_quiet (E : Base64) (i : Nat) : Quiet fun q => ∀ w, (manifestRules E).may i w q := by
  intro q hq w
  cases q <;> trivial

/-! ## What one request preserves -/

namespace Bucket

variable {P : Backend} {E : Base64} {w : CloudWorld} {s s' : Bucket} {i : Nat} {q : Req}

variable {l : Loc} {u : Nat}

theorem Published.names {v : Version} (h : Published P w.state l v q s') (hmay : manifestMay E i w q)
    (hm : namedManifest E v.metadata = some m) :
    ∃ u up parts c bs, q = .complete l u parts c ∧ w.state.uploadAt l u = some up
      ∧ namedManifest E up.metadata = some m ∧ s' = w.state.finish l u (w.state.completed up bs) := by
  cases h with
  | put hc hv | copy hsrc hv =>
    rw [hv] at hm
    exact absurd ((show namedManifest E _ = none from hmay).symm.trans hm) (by simp)
  | finish hup hbs hc hv =>
    subst hv
    exact ⟨_, _, _, _, _, rfl, hup, hm, rfl⟩

/-- What the visible object names it named before, or it is an upload that was completed just now. -/
theorem Names.before (h : s'.Names E l m) (he : Effect P E w.state q s') (hmay : manifestMay E i w q) :
    w.state.Names E l m ∨ ∃ u up parts c bs, q = .complete l u parts c ∧ w.state.uploadAt l u = some up
      ∧ namedManifest E up.metadata = some m ∧ s' = w.state.finish l u (w.state.completed up bs) := by
  obtain ⟨v, hv, hm⟩ := h
  rcases he.visible hv with hold | hpub
  · exact .inl ⟨v, hold, hm⟩
  · exact .inr (hpub.names hmay hm)

/-- What an open upload names it named before, or it was opened just now. -/
theorem Opens.before (h : s'.Opens E l m) (he : Effect P E s q s') :
    s.Opens E l m ∨ ∃ md hd, q = .createUpload l md hd ∧ namedManifest E md = some m := by
  obtain ⟨u, up', hup', hl, hm⟩ := h
  rcases he.uploads hup' with ⟨up, hup, hloc, hmd, -⟩ | ⟨l', md, hd, hq, -, rfl, -⟩
  · exact .inl ⟨u, up, hup, hloc.trans hl, by rw [hmd]; exact hm⟩
  · subst hl
    exact .inr ⟨md, hd, hq, hm⟩

theorem opens_of_uploadAt {up : Upload} (hup : s.uploadAt l u = some up)
    (hm : namedManifest E up.metadata = some m) : s.Opens E l m := by
  obtain ⟨hup, hl⟩ := uploadAt_eq.mp hup
  exact ⟨u, up, hup, hl, hm⟩

/-- Once the upload of a manifest is settled, no other is opened with it. -/
theorem Settled.step (h : w.state.Settled E l m) (he : Effect P E w.state q s') (hmay : manifestMay E i w q) :
    s'.Settled E l m := by
  refine ⟨he.named_stays h.1, fun hopen => ?_⟩
  rcases hopen.before he with hold | ⟨md, hd, rfl, hm⟩
  · exact h.2 hold
  · exact (hmay m hm).2 h.1

theorem Dead.step (h : w.state.Dead E l m) (he : Effect P E w.state q s') (hmay : manifestMay E i w q) : s'.Dead E l m := by
  refine ⟨h.1.step he hmay, fun hnames => ?_⟩
  rcases hnames.before he hmay with hold | ⟨u, up, parts, c, bs, -, hup, hm, -⟩
  · exact h.2 hold
  · exact h.1.2 (opens_of_uploadAt hup hm)

theorem Belongs.step {id : Option Manifest.ID} (h : s.Belongs E u id) (he : Effect P E s q s') :
    s'.Belongs E u id := by
  obtain ⟨hnamed, hlt, hup⟩ := h
  refine ⟨fun m hm => he.named_stays (hnamed m hm), hlt.trans_le he.clock_le, ?_⟩
  intro up' hup'
  rcases he.uploads hup' with ⟨up, hold, -, hmd, -⟩ | ⟨l, md, hd, -, hu, -, -⟩
  · rw [← hmd]
    exact hup up hold
  · exact absurd hlt (by rw [hu]; exact Nat.lt_irrefl _)

/-- The manifest of an upload that can be completed is not deleted: it is not dead. -/
theorem Covered.step {id : Option Manifest.ID} (h : w.state.Covered u l id) (hb : w.state.Belongs E u id)
    (he : Effect P E w.state q s') (hmay : manifestMay E i w q) :
    s'.Covered u l id := by
  intro up' m hup' hid
  obtain ⟨hup', hl⟩ := uploadAt_eq.mp hup'
  rcases he.uploads hup' with ⟨up, hold, hloc, -, -⟩ | ⟨l', md, hd, -, hu, -, -⟩
  · have hup : w.state.uploadAt l u = some up := uploadAt_eq.mpr ⟨hold, hloc.trans hl⟩
    rcases he.manifest_stays (h up m hup hid) with hstay | rfl
    · exact hstay
    · have hopen := opens_of_uploadAt hup ((hb.2.2 up hold).trans hid)
      exact absurd hopen hmay.1.2
  · exact absurd hb.2.1 (by rw [hu]; exact Nat.lt_irrefl _)

/-- A write that lands takes the place of the visible object. -/
theorem Behind.step (h : w.state.Behind E l m u) (hset : w.state.Settled E l m) (he : Effect P E w.state q s')
    (hmay : manifestMay E i w q) :
    s'.Behind E l m u := by
  intro hnames r x hr
  have hold : w.state.Names E l m := by
    rcases hnames.before he hmay with hold | ⟨u, up, parts, c, bs, -, hup, hm, -⟩
    · exact hold
    · exact absurd (opens_of_uploadAt hup hm) hset.2
  rcases he.landed hr with hr | hlands
  · exact h hold r x hr
  · obtain ⟨v, hv, hm⟩ := hnames
    have hx := hlands.visible.symm.trans hv
    cases hlands with
    | gone => simp at hx
    | now hpub hclock =>
      -- what has just been published is an upload, and none that names `m` was open
      cases hx
      obtain ⟨u, up, parts, c, bs, -, hup, hm, -⟩ := hpub.names hmay hm
      exact absurd (opens_of_uploadAt hup hm) hset.2
    | upload hup hbs hc =>
      cases hx
      exact absurd (opens_of_uploadAt hup hm) hset.2

/-- **What holds in between any two requests is kept by all that the rules allow.** -/
theorem Sane.step (h : w.state.Sane E) (hmine : ∀ m, Mine i m w → m ∈ w.state.ids)
    (he : Effect P E w.state q s') (hmay : manifestMay E i w q) : s'.Sane E where
  stored := by
    intro l m hnames
    have hhas : w.state.HasManifest l m := by
      rcases hnames.before he hmay with hold | ⟨u, up, parts, c, bs, rfl, hup, hm, -⟩
      · exact h.stored l m hold
      · exact hmay up m hup hm
    rcases he.manifest_stays hhas with hstay | rfl
    · exact hstay
    · exact absurd hnames (Dead.step hmay he hmay).2
  visible_named := by
    intro l m hnames
    rcases hnames.before he hmay with hold | ⟨u, up, parts, c, bs, -, hup, hm, -⟩
    · exact he.named_stays (h.visible_named l m hold)
    · exact he.named_stays (h.open_named l m (opens_of_uploadAt hup hm))
  open_named := by
    intro l m hopen
    obtain ⟨u, up', hup', hl, hm⟩ := hopen
    rcases he.uploads hup' with ⟨up, hup, hloc, hmd, -⟩ | ⟨l', md, hd, -, -, rfl, rfl⟩
    · exact he.named_stays (h.open_named l m ⟨u, up, hup, hloc.trans hl, by rw [hmd]; exact hm⟩)
    · exact List.mem_append_left _ (Option.mem_toList.mpr hm)
  kept_named := by
    intro l m hhas
    rcases he.manifest_new hhas with hold | ⟨raw, rfl⟩
    · exact he.named_stays (h.kept_named l m hold)
    · exact he.named_stays hmay
  minted := by
    intro m hm
    rcases he.named_new hm with hold | ⟨l, md, hd, rfl, hmd⟩
    · exact he.ids_stay (h.minted m hold)
    · exact he.ids_stay (hmine m (hmay m hmd).1)
  apart := by
    intro l m hnames hopen
    rcases hnames.before he hmay with hold | ⟨u, up, parts, c, bs, rfl, hup, hm, rfl⟩
    · rcases hopen.before he with hopen | ⟨md, hd, rfl, hm⟩
      · exact h.apart l m hold hopen
      · exact (hmay m hm).2 (h.visible_named l m hold)
    · -- the upload that was completed was the only one that named `m`, and it is gone
      obtain ⟨u', up', hup', -, hm'⟩ := hopen
      rw [Bucket.finish, lookup_erase_ite] at hup'
      split at hup'
      · simp at hup'
      next hne =>
        exact hne (h.unique u' up' u up m hup' (uploadAt_eq.mp hup).1 hm' hm)
  unique := by
    intro u₁ up₁ u₂ up₂ m h₁ h₂ hm₁ hm₂
    rcases he.uploads h₁ with ⟨old₁, ho₁, hl₁, hmd₁, -⟩ | ⟨l, md, hd, rfl, hu₁, rfl, -⟩
    · rcases he.uploads h₂ with ⟨old₂, ho₂, -, hmd₂, -⟩ | ⟨l, md, hd, rfl, hu₂, rfl, -⟩
      · exact h.unique u₁ old₁ u₂ old₂ m ho₁ ho₂ (by rw [hmd₁]; exact hm₁) (by rw [hmd₂]; exact hm₂)
      · have hnew := (hmay m hm₂).2
        exact absurd (h.open_named _ m ⟨u₁, old₁, ho₁, rfl, by rw [hmd₁]; exact hm₁⟩) hnew
    · rcases he.uploads h₂ with ⟨old₂, ho₂, -, hmd₂, -⟩ | ⟨l, md, hd, hq, hu₂, -, -⟩
      · have hnew := (hmay m hm₁).2
        exact absurd (h.open_named _ m ⟨u₂, old₂, ho₂, rfl, by rw [hmd₂]; exact hm₂⟩) hnew
      · exact hu₁.trans hu₂.symm
  clock := fun _ _ hup => he.uploads_below h.clock hup
  ranks := fun _ _ _ hr => he.ranks_below h.clock h.ranks hr

end Bucket

/-! ## What programs may know -/

section

variable {G : Site} {job : Nat → Job} {lets : Lets}

variable {i j : Nat} {w : CloudWorld} {q : Req} {a : Answer q} {s : Bucket}

theorem mine_after (h : Mine j m (w.after i q a s))
    (hserve : w.state.serve G.toBackend G.base64 q a s) :
    Mine j m w ∨ j = i ∧ m ∉ w.state.ids ∧ m ∈ s.ids := by
  rcases World.asked_after.mp h with h | h
  · exact .inl h
  · cases h
    obtain ⟨hnew, rfl⟩ := Bucket.serve_newID hserve
    exact .inr ⟨rfl, hnew, List.mem_cons_self⟩

theorem manifestRules_sound : Sound (onManifests G job lets) where
  moves i w w' hw hm := by
    obtain ⟨q, a, s, -, hmay, hserve, rfl⟩ := hm
    have he := Bucket.serve_effect hserve
    refine ⟨hw.sane.step (hw.mine i) he hmay, ?_, ?_, ?_⟩
    · intro j m hj
      rcases mine_after hj hserve with hj | ⟨-, -, hm⟩
      · exact he.ids_stay (hw.mine j m hj)
      · exact hm
    · intro j k m hj hk
      rcases mine_after hj hserve with hj' | ⟨hji, hnew, -⟩
      · rcases mine_after hk hserve with hk' | ⟨-, hnew, -⟩
        · exact hw.owner j k m hj' hk'
        · exact absurd (hw.mine j m hj') hnew
      · rcases mine_after hk hserve with hk' | ⟨hki, -, -⟩
        · exact absurd (hw.mine k m hk') hnew
        · exact hji.trans hki.symm
    · intro t ht
      obtain ⟨j, ht⟩ := ht
      rcases World.asked_after.mp ht with ht | ht
      · exact (hw.token t ⟨j, ht⟩).step he
      · cases ht
        exact Bucket.Belongs.step hmay he
  drifts w w' hw hd := by
    obtain ⟨s, hs, rfl⟩ := hd
    obtain ⟨l, u, he⟩ := Bucket.drift_effect G.toBackend G.base64 hs
    refine ⟨hw.sane.step (hw.mine 0) he trivial, ?_, ?_, ?_⟩
    · exact fun i m hi => he.ids_stay (hw.mine i m (mine_moved.mp hi))
    · exact fun i j m hi hj => hw.owner i j m (mine_moved.mp hi) (mine_moved.mp hj)
    · exact fun t ht => (hw.token t (issued_moved.mp ht)).step he

theorem firm_named (m : Manifest.ID) : Firm (onManifests G job lets) fun w => m ∈ w.state.named :=
  firm_state (fun _ _ _ => trivial) fun _ _ _ _ _ h he _ => he.named_stays h

theorem firm_settled (l : Loc) (m : Manifest.ID) :
    Firm (onManifests G job lets) fun w => w.state.Settled G.base64 l m :=
  firm_state (F := fun s => s.Settled G.base64 l m) (fun _ _ _ => trivial)
    fun _ _ _ _ _ h he hmay => h.step he hmay

theorem firm_dead (l : Loc) (m : Manifest.ID) :
    Firm (onManifests G job lets) fun w => w.state.Dead G.base64 l m :=
  firm_state (F := fun s => s.Dead G.base64 l m) (fun _ _ _ => trivial)
    fun _ _ _ _ _ h he hmay => h.step he hmay

theorem firm_belongs (u : Nat) (id : Option Manifest.ID) :
    Firm (onManifests G job lets) fun w => w.state.Belongs G.base64 u id :=
  firm_state (F := fun s => s.Belongs G.base64 u id) (fun _ _ _ => trivial)
    fun _ _ _ _ _ h he _ => h.step he

theorem firm_covered (u : Nat) (l : Loc) (id : Option Manifest.ID) :
    Firm (onManifests G job lets) fun w =>
      w.state.Belongs G.base64 u id ∧ w.state.Covered u l id :=
  firm_state (F := fun s => s.Belongs G.base64 u id ∧ s.Covered u l id) (fun _ _ _ => trivial)
    fun _ _ _ _ _ h he hmay => ⟨h.1.step he, h.2.step h.1 he hmay⟩

theorem firm_behind (l : Loc) (m : Manifest.ID) (u : Nat) : Firm (onManifests G job lets) fun w =>
      w.state.Settled G.base64 l m ∧ w.state.Behind G.base64 l m u :=
  firm_state (F := fun s => s.Settled G.base64 l m ∧ s.Behind G.base64 l m u) (fun _ _ _ => trivial)
    fun _ _ _ _ _ h he hmay => ⟨h.1.step he hmay, h.2.step h.1 he hmay⟩

/-- An id that program `i` has drawn and not used. -/
def Unused (i : Nat) (m : Manifest.ID) (w : CloudWorld) : Prop := Mine i m w ∧ m ∉ w.state.named

theorem mine_moves (h : Mine i m w) (j : Nat) (q : Req)
    (a : Answer q) (s : Bucket) : Mine i m (w.after j q a s) :=
  World.Asked.after h

theorem stable_unused (i : Nat) (m : Manifest.ID) :
    Stable (onManifests G job lets) i (Unused i m) where
  moves j w w' hj hw hk hm := by
    obtain ⟨q, a, s, -, hmay, hserve, rfl⟩ := hm
    refine ⟨mine_moves hk.1 j q a s, fun hnamed => ?_⟩
    rcases (Bucket.serve_effect hserve).named_new hnamed with hold | ⟨l, md, hd, rfl, hmd⟩
    · exact hk.2 hold
    · exact hj (hw.owner j i m (hmay m hmd).1 hk.1)
  drifts w w' hw hk hd := by
    obtain ⟨s, hs, rfl⟩ := hd
    obtain ⟨l, u, he⟩ := Bucket.drift_effect G.toBackend G.base64 hs
    refine ⟨mine_moved.mpr hk.1, fun hnamed => ?_⟩
    rcases he.named_new hnamed with hold | ⟨l, md, hd, hq, -⟩
    · exact hk.2 hold
    · simp at hq

theorem Unused.after (h : Unused i m w)
    (hserve : w.state.serve G.toBackend G.base64 q a s) (hq : ∀ l md hd, q ≠ .createUpload l md hd) :
    Unused i m (w.after j q a s) := by
  refine ⟨mine_moves h.1 j q a s, fun hnamed => ?_⟩
  rcases (Bucket.serve_effect hserve).named_new hnamed with hold | ⟨l, md, hd, he, -⟩
  · exact h.2 hold
  · exact hq l md hd he

end

end BlindBucket.Cloud
