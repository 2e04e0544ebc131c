import BlindBucket.Cloud.Provider

/-!
# What a request can do

`Effect` says once what serving a request can change. Everything that is proved about runs of
programs against a provider goes by its cases, and by the lemmas on what an answer tells.
-/

namespace BlindBucket.Cloud

open BlindBucket.Stream ObjectMeta List Option

namespace Bucket

variable {P : Backend} {E : Base64} {s s' : Bucket}

/-! ## Tables -/

variable {K V : Type} {f : Fault} {e raw dek b : Bytes} {v : Version} {c : Cond} {u : Nat} {up up' : Upload}
  {md : Metadata} {hd : Headers} {r : Unit} {m : Manifest.ID} {x : Option Version}

theorem lookup_insert_ite [DecidableEq K] (t : Table K V) (a a' : K) (b : V) :
    (t.insert a b).lookup a' = if a' = a then some b else t.lookup a' := by
  by_cases h : a' = a
  · rw [if_pos h, h, AList.lookup_insert]
  · rw [if_neg h, AList.lookup_insert_ne h]

theorem lookup_erase_ite [DecidableEq K] (t : Table K V) (a a' : K) :
    (t.erase a).lookup a' = if a' = a then none else t.lookup a' := by
  by_cases h : a' = a
  · rw [if_pos h, h, AList.lookup_erase]
  · rw [if_neg h, AList.lookup_erase_ne h]

theorem lookup_of_erase [DecidableEq K] {t : Table K V} {a a' : K} {b : V}
    (h : (t.erase a).lookup a' = some b) : t.lookup a' = some b := by
  rw [lookup_erase_ite] at h
  exact (ite_none_left_eq_some.mp h).2

theorem mem_entries_iff [DecidableEq K] {t : Table K V} {a : K} {b : V} :
    (⟨a, b⟩ : Sigma fun _ : K => V) ∈ t.entries ↔ t.lookup a = some b :=
  AList.mem_lookup_iff.symm

/-! ## The effects -/

/-- What serving a request can do to the provider. Time may pass with any of them. -/
inductive Effect (P : Backend) (E : Base64) (s : Bucket) : Req → Bucket → Prop where
  | wait (q : Req) {t : Nat} (ht : s.now ≤ t) : Effect P E s q { s with now := t }
  | put {l : Loc} {body : Bytes} {md : Metadata} {hd : Headers} {c : Cond} (hc : s.admits P l c = .ok ()) :
      Effect P E s (.put l body md hd c) (s.write l ⟨⟨[body], false⟩, md, hd, s.now, []⟩)
  | copy {src dst : Loc} {md : Metadata} {hd : Headers} {ifMatch : Bytes} {v : Version}
      (hv : s.source P src ifMatch = .ok v) :
      Effect P E s (.copy src dst md hd ifMatch)
        (s.write dst ⟨⟨[v.stored.bytes], false⟩, md, hd, s.now, []⟩)
  | delete (l : Loc) : Effect P E s (.delete l) (s.remove l)
  | createUpload (l : Loc) (md : Metadata) (hd : Headers) :
      Effect P E s (.createUpload l md hd) (s.openUpload E l md hd)
  | uploadPart {l : Loc} {u n : Nat} {b : Bytes} {up : Upload}
      (hup : s.uploadAt l u = some up) : Effect P E s (.uploadPart l u n b) (s.fill u n up b)
  | uploadPartCopy {src dst : Loc} {u n : Nat} {range : Option (Nat × Nat)} {ifMatch : Bytes}
      {v : Version} {up : Upload} (hv : s.source P src ifMatch = .ok v)
      (hup : s.uploadAt dst u = some up) :
      Effect P E s (.uploadPartCopy src dst u n range ifMatch)
        (s.fill u n up (slice v.stored.bytes range))
  | finish {l : Loc} {u : Nat} {parts : List (Nat × Bytes)} {c : Cond} {up : Upload}
      {bs : List Bytes} (hup : s.uploadAt l u = some up)
      (hbs : assemble P up 0 parts = some bs) (hc : s.admits P l c = .ok ()) :
      Effect P E s (.complete l u parts c) (s.finish l u (s.completed up bs))
  | discard {l : Loc} {u : Nat} {parts : List (Nat × Bytes)} {c : Cond} {up : Upload}
      (hup : s.uploadAt l u = some up) (hc : s.admits P l c = .ok ())
      (hout : s.outranked l u = true) (hd : P.discards = true) :
      Effect P E s (.complete l u parts c) (s.close u)
  | abort (l : Loc) (u : Nat) : Effect P E s (.abort l u) (s.close u)
  | putManifest (l : Loc) (id : Manifest.ID) (raw : Bytes) :
      Effect P E s (.putManifest l id raw) (s.keepManifest l id raw)
  | deleteManifest (l : Loc) (id : Manifest.ID) : Effect P E s (.deleteManifest l id) (s.dropManifest l id)
  | putSidecar (l : Loc) (dek raw : Bytes) : Effect P E s (.putSidecar l dek raw) (s.keepSidecar l dek raw)
  | deleteSidecar (l : Loc) (dek : Bytes) : Effect P E s (.deleteSidecar l dek) (s.dropSidecar l dek)
  | newID {id : Manifest.ID} (h : id ∉ s.ids) : Effect P E s .newID { s with ids := id :: s.ids }
  | newDEK {dek : Bytes} (h : dek ∉ s.deks) (hlen : dek.length = keySize) :
      Effect P E s .newDEK { s with deks := dek :: s.deks }
  | newSalt {salt : Salt} (h : salt ∉ s.salts) : Effect P E s .newSalt { s with salts := salt :: s.salts }
  | wrap {kid dek aad nonce w : Bytes} (hw : P.keys.wrap kid dek aad nonce = some w)
      (h : w ∉ s.wraps) : Effect P E s (.wrap kid dek aad) { s with wraps := w :: s.wraps }

theorem Effect.same (q : Req) : Effect P E s q s := .wait q le_rfl

theorem draw_cases {α : Type} [DecidableEq α] (x : Option α) (drawn : List α) (f : α → Bucket) :
    s.draw x drawn f = (.error .other, s)
      ∨ ∃ a, x = some a ∧ a ∉ drawn ∧ s.draw x drawn f = (.ok a, f a) := by
  unfold draw
  cases x with
  | none => exact .inl rfl
  | some a =>
    by_cases h : a ∈ drawn
    · exact .inl (by simp [h])
    · exact .inr ⟨a, rfl, h, by simp [h]⟩

theorem draw_ok {α : Type} [DecidableEq α] {x : Option α} {drawn : List α} {g : α → Bucket} {a : α}
    (h : s.draw x drawn g = (.ok a, s')) : x = some a ∧ a ∉ drawn ∧ s' = g a := by
  rcases draw_cases x drawn g with hd | ⟨b, hx, hnew, hd⟩
  · rw [hd] at h
    simp at h
  · rw [hd] at h
    obtain ⟨ha, hs⟩ := Prod.mk.inj h
    cases ha
    exact ⟨hx, hnew, hs.symm⟩

theorem fillPart_cases (P : Backend) (s : Bucket) (l : Loc) (u n : Nat) (b : Bytes) :
    s.fillPart P l u n b = (.error .noSuchUpload, s)
      ∨ ∃ up, s.uploadAt l u = some up ∧ s.fillPart P l u n b = (.ok (P.partETag b), s.fill u n up b) := by
  unfold fillPart
  cases h : s.uploadAt l u with
  | none => exact .inl rfl
  | some up => exact .inr ⟨up, rfl, rfl⟩

theorem completeUpload_cases (P : Backend) (s : Bucket) (ch : Choice) (l : Loc) (u : Nat)
    (parts : List (Nat × Bytes)) (c : Cond) :
    (∃ f, s.completeUpload P ch l u parts c = (.error f, s))
      ∨ ∃ up bs, s.uploadAt l u = some up ∧ assemble P up 0 parts = some bs ∧ s.admits P l c = .ok ()
        ∧ (s.outranked l u = true ∧ P.discards = true
            ∧ s.completeUpload P ch l u parts c = (.ok (P.etag ⟨bs, true⟩), s.close u)
          ∨ s.completeUpload P ch l u parts c
            = (.ok (P.etag ⟨bs, true⟩), s.finish l u (s.completed up bs))) := by
  unfold completeUpload
  cases hup : s.uploadAt l u with
  | none => exact .inl ⟨_, rfl⟩
  | some up =>
    dsimp only
    cases hbs : assemble P up 0 parts with
    | none => exact .inl ⟨.badRequest, by cases s.admits P l c <;> rfl⟩
    | some bs =>
      cases hc : s.admits P l c with
      | error f => exact .inl ⟨f, rfl⟩
      | ok _ =>
        refine .inr ⟨up, bs, rfl, hbs, rfl, ?_⟩
        dsimp only
        by_cases hd : s.outranked l u = true ∧ P.discards = true ∧ ch.discard = true
        · rw [if_pos hd]
          exact .inl ⟨hd.1, hd.2.1, rfl⟩
        · rw [if_neg hd]
          exact .inr rfl

theorem perform_effect (P : Backend) (E : Base64) (s : Bucket) (ch : Choice) (q : Req) :
    Effect P E s q (s.perform P E ch q).2 := by
  cases q with
  | put l body md hd c =>
    dsimp only [perform]
    cases hc : s.admits P l c with
    | error f => exact .same _
    | ok _ => exact .put hc
  | copy src dst md hd ifMatch =>
    dsimp only [perform]
    cases hv : s.source P src ifMatch with
    | error f => exact .same _
    | ok v => exact .copy hv
  | delete l => exact .delete l
  | createUpload l md hd => exact .createUpload l md hd
  | uploadPart l u n b =>
    dsimp only [perform]
    rcases fillPart_cases P s l u n b with h | ⟨up, hup, h⟩
    · rw [h]
      exact .same _
    · rw [h]
      exact .uploadPart hup
  | uploadPartCopy src dst u n range ifMatch =>
    dsimp only [perform]
    cases hv : s.source P src ifMatch with
    | error f => exact .same _
    | ok v =>
      rcases fillPart_cases P s dst u n (slice v.stored.bytes range) with h | ⟨up, hup, h⟩
      · dsimp only
        rw [h]
        exact .same _
      · dsimp only
        rw [h]
        exact .uploadPartCopy hv hup
  | complete l u parts c =>
    dsimp only [perform]
    rcases completeUpload_cases P s ch l u parts c with ⟨f, h⟩ | ⟨up, bs, hup, hbs, hc, hd | h⟩
    · rw [h]
      exact .same _
    · rw [hd.2.2]
      exact .discard hup hc hd.1 hd.2.1
    · rw [h]
      exact .finish hup hbs hc
  | abort l u =>
    dsimp only [perform]
    cases hup : s.uploadAt l u with
    | none => exact .same _
    | some up => exact .abort l u
  | putManifest l id raw => exact .putManifest l id raw
  | deleteManifest l id => exact .deleteManifest l id
  | putSidecar l dek raw => exact .putSidecar l dek raw
  | deleteSidecar l dek => exact .deleteSidecar l dek
  | newID =>
    dsimp only [perform]
    rcases draw_cases (sized Manifest.idSize ch.random) s.ids
      (fun id => { s with ids := id :: s.ids }) with h | ⟨id, -, hid, h⟩
    · rw [h]
      exact .same _
    · rw [h]
      exact .newID hid
  | newDEK =>
    dsimp only [perform]
    rcases draw_cases (if ch.random.length = keySize then some ch.random else none) s.deks
      (fun dek => { s with deks := dek :: s.deks }) with h | ⟨dek, hdek, hnew, h⟩
    · rw [h]
      exact .same _
    · rw [h]
      refine .newDEK hnew ?_
      obtain ⟨hlen, hdek⟩ := ite_none_right_eq_some.mp hdek
      rw [← some.inj hdek]
      exact hlen
  | newSalt =>
    dsimp only [perform]
    rcases draw_cases (sized saltSize ch.random) s.salts
      (fun salt => { s with salts := salt :: s.salts }) with h | ⟨salt, -, hsalt, h⟩
    · rw [h]
      exact .same _
    · rw [h]
      exact .newSalt hsalt
  | wrap kid dek aad =>
    dsimp only [perform]
    rcases draw_cases (P.keys.wrap kid dek aad ch.random) s.wraps
      (fun w => { s with wraps := w :: s.wraps }) with h | ⟨w, hw, hnew, h⟩
    · rw [h]
      exact .same _
    · rw [h]
      exact .wrap hw hnew
  | head l =>
    dsimp only [perform]
    cases s.visible.lookup l <;> exact .same _
  | get l ifMatch range =>
    dsimp only [perform]
    cases s.source P l ifMatch <;> exact .same _
  | listParts l u =>
    dsimp only [perform]
    cases s.uploadAt l u <;> exact .same _
  | getManifest l id =>
    dsimp only [perform]
    cases s.manifests.lookup (l, id) <;> exact .same _
  | getSidecar l dek | headSidecar l dek =>
    dsimp only [perform]
    cases s.sidecars.lookup (l, dek) <;> exact .same _
  | listUploads | listManifests | listSidecars | now | reply => exact .same _

variable {q : Req}

/-- **What serving a request does**, faults included. -/
theorem serve_effect {a : Answer q} (h : s.serve P E q a s') : Effect P E s q s' := by
  obtain ⟨ch, h | ⟨-, -, rfl | rfl⟩⟩ := h
  · have he := perform_effect P E s ch q
    rw [h] at he
    exact he
  · exact .same q
  · exact perform_effect P E s ch q

/-- What the provider does on its own is what an abort can do. -/
theorem drift_effect (P : Backend) (E : Base64) (h : s.Drift s') : ∃ l u, Effect P E s (.abort l u) s' := by
  cases h with
  | abort u => exact ⟨⟨[], []⟩, u, .abort _ u⟩
  | tick t ht => exact ⟨⟨[], []⟩, 0, .wait _ ht⟩

theorem serve_ok {r : q.Result} (h : s.serve P E q (.ok r) s') : ∃ ch, s.perform P E ch q = (.ok r, s') := by
  obtain ⟨ch, h | ⟨-, ha, -⟩⟩ := h
  · exact ⟨ch, h⟩
  · simp at ha

theorem serve_error (hf : f ≠ .other) (h : s.serve P E q (.error f) s') :
    ∃ ch, s.perform P E ch q = (.error f, s') := by
  obtain ⟨ch, h | ⟨-, ha, -⟩⟩ := h
  · exact ⟨ch, h⟩
  · exact absurd (Except.error.inj ha) hf

/-! ## What an answer tells -/

theorem perform_error {ch : Choice} (h : s.perform P E ch q = (.error f, s')) : s' = s := by
  have hdraw : ∀ {α : Type} [DecidableEq α] {x : Option α} {drawn : List α} {g : α → Bucket},
      s.draw x drawn g = (.error f, s') → s' = s := by
    intro α _ x drawn g h
    rcases draw_cases x drawn g with hd | ⟨a, -, -, hd⟩
    · rw [hd] at h
      exact (Prod.mk.inj h).2.symm
    · rw [hd] at h
      simp at h
  have hfill : ∀ {l u n b}, s.fillPart P l u n b = (.error f, s') → s' = s := by
    intro l u n b h
    unfold fillPart at h
    split at h
    · exact (Prod.mk.inj h).2.symm
    · simp at h
  cases q with
  | newID | newDEK | newSalt | wrap => exact hdraw h
  | uploadPart l u n b => exact hfill h
  | uploadPartCopy src dst u n range e =>
    dsimp only [perform] at h
    split at h
    · exact (Prod.mk.inj h).2.symm
    · exact hfill h
  | complete l u parts c =>
    dsimp only [perform] at h
    rcases completeUpload_cases P s ch l u parts c with ⟨f', hf⟩ | ⟨up, bs, hup, hbs, hc, hd | hk⟩
    · rw [hf] at h
      exact (Prod.mk.inj h).2.symm
    · rw [hd.2.2] at h
      simp at h
    · rw [hk] at h
      simp at h
  | delete | createUpload | putManifest | deleteManifest | putSidecar | deleteSidecar | listUploads
  | listManifests | listSidecars | now | reply => exact absurd (Prod.mk.inj h).1 (by simp)
  | _ =>
    dsimp only [perform] at h
    split at h
    · exact (Prod.mk.inj h).2.symm
    · simp at h

/-- On a provider that does not fail, an error means that nothing was done. -/
theorem serve_refused (hP : P.faults = false) (h : s.serve P E q (.error f) s') : s' = s := by
  obtain ⟨ch, h | ⟨hfault, -⟩⟩ := h
  · exact perform_error h
  · exact absurd (hfault.symm.trans hP) (by simp)

variable {l : Loc}

theorem serve_head {info : Info} (h : s.serve P E (.head l) (.ok info) s') :
    s' = s ∧ ∃ v, s.visible.lookup l = some v ∧ info = infoOf P v := by
  obtain ⟨ch, h⟩ := serve_ok h
  dsimp only [perform] at h
  cases hv : s.visible.lookup l with
  | none =>
    rw [hv] at h
    simp at h
  | some v =>
    rw [hv] at h
    obtain ⟨hi, hs⟩ := Prod.mk.inj h
    exact ⟨hs.symm, v, rfl, (Except.ok.inj hi).symm⟩

theorem serve_head_none (hf : f.isNotFound = true) (h : s.serve P E (.head l) (.error f) s') :
    s' = s ∧ s.visible.lookup l = none := by
  have hne : f ≠ .other := by
    rintro rfl
    exact absurd hf (by decide)
  obtain ⟨ch, h⟩ := serve_error hne h
  dsimp only [perform] at h
  cases hv : s.visible.lookup l with
  | none =>
    rw [hv] at h
    exact ⟨(Prod.mk.inj h).2.symm, rfl⟩
  | some v =>
    rw [hv] at h
    simp at h

theorem source_ok (h : s.source P l e = .ok v) : s.visible.lookup l = some v ∧ (e ≠ [] → P.etag v.stored = e) := by
  unfold source at h
  cases hv : s.visible.lookup l with
  | none =>
    rw [hv] at h
    simp at h
  | some v' =>
    rw [hv] at h
    obtain ⟨hcond, h⟩ := else_ok h
    cases h
    refine ⟨rfl, fun he => ?_⟩
    by_contra hne
    exact hcond ⟨he, Ne.symm hne⟩

theorem admits_ok (h : s.admits P l c = .ok ()) :
    (c.ifMatch ≠ [] → ∃ v, s.visible.lookup l = some v ∧ P.etag v.stored = c.ifMatch)
      ∧ (c.ifNoneMatch ≠ [] → s.visible.lookup l = none) := by
  unfold admits at h
  cases hv : s.visible.lookup l with
  | none =>
    rw [hv] at h
    obtain ⟨hm, h⟩ := else_ok h
    exact ⟨fun h' => absurd h' hm, fun _ => rfl⟩
  | some v =>
    rw [hv] at h
    obtain ⟨hn, h⟩ := else_ok h
    obtain ⟨hm, h⟩ := else_ok h
    refine ⟨fun h' => ⟨v, rfl, ?_⟩, fun h' => absurd h' hn⟩
    by_contra hne
    exact hm ⟨h', Ne.symm hne⟩

theorem uploadAt_eq : s.uploadAt l u = some up ↔ s.uploads.lookup u = some up ∧ up.loc = l := by
  unfold uploadAt
  cases h : s.uploads.lookup u with
  | none => simp
  | some up' =>
    dsimp only
    by_cases hl : up'.loc = l
    · rw [if_pos hl]
      constructor
      · rintro h'
        obtain rfl := some.inj h'
        exact ⟨rfl, hl⟩
      · rintro ⟨h', -⟩
        exact h'
    · rw [if_neg hl]
      constructor
      · intro h'
        simp at h'
      · rintro ⟨h', hl'⟩
        obtain rfl := some.inj h'
        exact absurd hl' hl

theorem serve_listUploads {us : List Nat} (h : s.serve P E (.listUploads l) (.ok us) s') :
    s' = s ∧ ∀ u up, s.uploads.lookup u = some up → up.loc = l → u ∈ us := by
  obtain ⟨ch, h⟩ := serve_ok h
  obtain ⟨hu, hs⟩ := Prod.mk.inj h
  cases hu
  refine ⟨hs.symm, fun u up hup hl => ?_⟩
  refine mem_map.mpr ⟨⟨u, up⟩, mem_filter.mpr ⟨mem_entries_iff.mpr hup, ?_⟩, rfl⟩
  simp [hl]

theorem serve_listManifests {bucket : Bytes} {es : List (Loc × Manifest.ID × Nat)}
    (h : s.serve P E (.listManifests bucket) (.ok es) s') :
    s' = s ∧ ∀ l id t, (l, id, t) ∈ es → ∃ b, s.manifests.lookup (l, id) = some b ∧ b.lastModified = t := by
  obtain ⟨ch, h⟩ := serve_ok h
  obtain ⟨hu, hs⟩ := Prod.mk.inj h
  cases hu
  refine ⟨hs.symm, fun l id t hm => ?_⟩
  obtain ⟨⟨⟨l', id'⟩, b⟩, hq, he⟩ := mem_map.mp hm
  cases he
  exact ⟨b, mem_entries_iff.mp (mem_filter.mp hq).1, rfl⟩

theorem serve_newID {id : Manifest.ID} (h : s.serve P E .newID (.ok id) s') :
    id ∉ s.ids ∧ s' = { s with ids := id :: s.ids } := by
  obtain ⟨ch, h⟩ := serve_ok h
  exact (draw_ok h).2

theorem serve_createUpload (h : s.serve P E (.createUpload l md hd) (.ok u) s') :
    u = s.clock ∧ s' = s.openUpload E l md hd := by
  obtain ⟨ch, h⟩ := serve_ok h
  obtain ⟨hu, hs⟩ := Prod.mk.inj h
  exact ⟨(Except.ok.inj hu).symm, hs.symm⟩

theorem serve_copy {src dst : Loc} {r : Bytes} (h : s.serve P E (.copy src dst md hd e) (.ok r) s') :
    ∃ v, s.source P src e = .ok v
      ∧ s' = s.write dst ⟨⟨[v.stored.bytes], false⟩, md, hd, s.now, []⟩ := by
  obtain ⟨ch, h⟩ := serve_ok h
  dsimp only [perform] at h
  cases hv : s.source P src e with
  | error f =>
    rw [hv] at h
    simp at h
  | ok v =>
    rw [hv] at h
    exact ⟨v, rfl, (Prod.mk.inj h).2.symm⟩

theorem serve_delete (h : s.serve P E (.delete l) (.ok r) s') : s' = s.remove l := by
  obtain ⟨ch, h⟩ := serve_ok h
  exact (Prod.mk.inj h).2.symm

theorem serve_putManifest {id : Manifest.ID} (h : s.serve P E (.putManifest l id raw) (.ok r) s') :
    s' = s.keepManifest l id raw := by
  obtain ⟨ch, h⟩ := serve_ok h
  exact (Prod.mk.inj h).2.symm

theorem serve_wrap {kid aad w : Bytes} (h : s.serve P E (.wrap kid dek aad) (.ok w) s') :
    (∃ nonce, P.keys.wrap kid dek aad nonce = some w) ∧ w ∉ s.wraps ∧ s' = { s with wraps := w :: s.wraps } := by
  obtain ⟨ch, h⟩ := serve_ok h
  obtain ⟨hw, hnew, hs⟩ := draw_ok h
  exact ⟨⟨_, hw⟩, hnew, hs⟩

theorem serve_putSidecar (h : s.serve P E (.putSidecar l dek raw) (.ok r) s') : s' = s.keepSidecar l dek raw := by
  obtain ⟨ch, h⟩ := serve_ok h
  exact (Prod.mk.inj h).2.symm

theorem serve_deleteSidecar (h : s.serve P E (.deleteSidecar l dek) (.ok r) s') : s' = s.dropSidecar l dek := by
  obtain ⟨ch, h⟩ := serve_ok h
  exact (Prod.mk.inj h).2.symm

theorem serve_deleteSidecar_ok (hP : P.faults = false) : ¬ s.serve P E (.deleteSidecar l dek) (.error f) s' := by
  intro h
  obtain ⟨ch, h | ⟨hfault, -⟩⟩ := h
  · exact absurd (Prod.mk.inj h).1 (by simp)
  · exact absurd (hfault.symm.trans hP) (by simp)

theorem serve_getSidecar (h : s.serve P E (.getSidecar l dek) (.ok raw) s') :
    s' = s ∧ ∃ b, s.sidecars.lookup (l, dek) = some b ∧ b.raw = raw := by
  obtain ⟨ch, h⟩ := serve_ok h
  dsimp only [perform] at h
  cases hb : s.sidecars.lookup (l, dek) with
  | none =>
    rw [hb] at h
    simp at h
  | some b =>
    rw [hb] at h
    obtain ⟨hr, hs⟩ := Prod.mk.inj h
    exact ⟨hs.symm, b, rfl, Except.ok.inj hr⟩

theorem serve_getSidecar_none (hf : f.isNotFound = true) (h : s.serve P E (.getSidecar l dek) (.error f) s') :
    s' = s ∧ s.sidecars.lookup (l, dek) = none := by
  have hother : f ≠ .other := by
    intro he
    rw [he] at hf
    exact absurd hf (by decide)
  obtain ⟨ch, h⟩ := serve_error hother h
  dsimp only [perform] at h
  cases hb : s.sidecars.lookup (l, dek) with
  | none =>
    rw [hb] at h
    exact ⟨(Prod.mk.inj h).2.symm, rfl⟩
  | some b =>
    rw [hb] at h
    simp at h

/-- A completion that is acknowledged was kept, or discarded for a write that outranks it. -/
theorem serve_complete {parts : List (Nat × Bytes)} (h : s.serve P E (.complete l u parts c) (.ok e) s') :
    ∃ up bs, s.uploadAt l u = some up ∧ assemble P up 0 parts = some bs ∧ s.admits P l c = .ok ()
      ∧ e = P.etag ⟨bs, true⟩
      ∧ (s.outranked l u = true ∧ P.discards = true ∧ s' = s.close u
        ∨ s' = s.finish l u (s.completed up bs)) := by
  obtain ⟨ch, h⟩ := serve_ok h
  dsimp only [perform] at h
  rcases completeUpload_cases P s ch l u parts c with ⟨f, hf⟩ | ⟨up, bs, hup, hbs, hc, hd | hk⟩
  · rw [hf] at h
    simp at h
  · rw [hd.2.2] at h
    obtain ⟨he, hs⟩ := Prod.mk.inj h
    exact ⟨up, bs, hup, hbs, hc, (Except.ok.inj he).symm, .inl ⟨hd.1, hd.2.1, hs.symm⟩⟩
  · rw [hk] at h
    obtain ⟨he, hs⟩ := Prod.mk.inj h
    exact ⟨up, bs, hup, hbs, hc, (Except.ok.inj he).symm, .inr hs.symm⟩

theorem mem_assemble {previous : Nat} {parts : List (Nat × Bytes)} {bs : List Bytes}
    (h : assemble P up previous parts = some bs) (hb : b ∈ bs) :
    ∃ n, up.parts.lookup n = some b := by
  induction parts generalizing previous bs with
  | nil =>
    cases h
    simp at hb
  | cons p rest ih =>
    obtain ⟨n, e⟩ := p
    unfold assemble at h
    cases hn : up.parts.lookup n with
    | none =>
      rw [hn] at h
      simp at h
    | some b₀ =>
      rw [hn] at h
      obtain ⟨_, h⟩ := ite_none_right_eq_some.mp h
      obtain ⟨bs', hbs', rfl⟩ := map_eq_some_iff.mp h
      rcases mem_cons.mp hb with rfl | hb
      · exact ⟨n, hn⟩
      · exact ih hbs' hb

/-! ## What an effect leaves alone -/

/-- The ways in which a version becomes visible at `l`. -/
inductive Published (P : Backend) (s : Bucket) (l : Loc) (v : Version) : Req → Bucket → Prop where
  | put {body : Bytes} {md : Metadata} {hd : Headers} {c : Cond} (hc : s.admits P l c = .ok ())
      (hv : v = ⟨⟨[body], false⟩, md, hd, s.now, []⟩) :
      Published P s l v (.put l body md hd c) (s.write l v)
  | copy {src : Loc} {md : Metadata} {hd : Headers} {ifMatch : Bytes} {v₀ : Version}
      (hv₀ : s.source P src ifMatch = .ok v₀) (hv : v = ⟨⟨[v₀.stored.bytes], false⟩, md, hd, s.now, []⟩) :
      Published P s l v (.copy src l md hd ifMatch) (s.write l v)
  | finish {u : Nat} {parts : List (Nat × Bytes)} {c : Cond} {up : Upload}
      {bs : List Bytes} (hup : s.uploadAt l u = some up)
      (hbs : assemble P up 0 parts = some bs) (hc : s.admits P l c = .ok ())
      (hv : v = s.completed up bs) :
      Published P s l v (.complete l u parts c) (s.finish l u v)

/-- How a write lands: as the newest, or as an upload that is completed. -/
inductive Lands (P : Backend) (s : Bucket) (l : Loc) : Nat → Option Version → Req → Bucket → Prop where
  | now {v : Version} {q : Req} {s' : Bucket} (h : Published P s l v q s') (hclock : s.clock < s'.clock) :
      Lands P s l s.clock (some v) q s'
  | gone : Lands P s l s.clock none (.delete l) (s.remove l)
  | upload {u : Nat} {parts : List (Nat × Bytes)} {c : Cond} {up : Upload}
      {bs : List Bytes} (hup : s.uploadAt l u = some up)
      (hbs : assemble P up 0 parts = some bs) (hc : s.admits P l c = .ok ()) :
      Lands P s l u (some (s.completed up bs)) (.complete l u parts c)
        (s.finish l u (s.completed up bs))

theorem Published.visible (h : Published P s l v q s') : s'.visible.lookup l = some v := by
  cases h with
  | put | copy | finish => exact AList.lookup_insert _

theorem Lands.visible {r : Nat} (h : Lands P s l r x q s') : s'.visible.lookup l = x := by
  cases h with
  | now hpub hclock => exact hpub.visible
  | gone => exact AList.lookup_erase _ _
  | upload hup hbs hc => exact AList.lookup_insert _

section Effects

variable (h : Effect P E s q s')

include h

theorem Effect.visible (hv : s'.visible.lookup l = some v) :
    s.visible.lookup l = some v ∨ Published P s l v q s' := by
  cases h with
  | put hc =>
    rw [write, lookup_insert_ite] at hv
    split at hv
    next hl =>
      subst hl
      cases hv
      exact .inr (.put hc rfl)
    · exact .inl hv
  | copy hsrc =>
    rw [write, lookup_insert_ite] at hv
    split at hv
    next hl =>
      subst hl
      cases hv
      exact .inr (.copy hsrc rfl)
    · exact .inl hv
  | delete l' => exact .inl (lookup_of_erase hv)
  | finish hup hbs hc =>
    rw [Bucket.finish, lookup_insert_ite] at hv
    split at hv
    next hl =>
      subst hl
      cases hv
      exact .inr (.finish hup hbs hc rfl)
    · exact .inl hv
  | _ => exact .inl hv

theorem Effect.visible_gone (hv : s'.visible.lookup l = none) : s.visible.lookup l = none ∨ q = .delete l := by
  have hinsert : ∀ {l' : Loc} {v : Version}, (s.visible.insert l' v).lookup l = none → s.visible.lookup l = none := by
    intro l' v hl
    rw [lookup_insert_ite] at hl
    split at hl
    · simp at hl
    · exact hl
  cases h with
  | put | copy | finish => exact .inl (hinsert hv)
  | delete l' =>
    rw [remove, lookup_erase_ite] at hv
    split at hv
    next hl =>
      exact .inr (by rw [hl])
    · exact .inl hv
  | _ => exact .inl hv

theorem Effect.uploads (hup' : s'.uploads.lookup u = some up') :
    (∃ up, s.uploads.lookup u = some up ∧ up.loc = up'.loc ∧ up.metadata = up'.metadata ∧ up.headers = up'.headers)
      ∨ ∃ l md hd, q = .createUpload l md hd ∧ u = s.clock ∧ up' = ⟨l, md, hd, ∅⟩
        ∧ s' = s.openUpload E l md hd := by
  have hfill : ∀ {l : Loc} {u₀ n : Nat} {up₀ : Upload} {b : Bytes},
      s.uploadAt l u₀ = some up₀ → (s.fill u₀ n up₀ b).uploads.lookup u = some up' →
      ∃ up, s.uploads.lookup u = some up ∧ up.loc = up'.loc ∧ up.metadata = up'.metadata
        ∧ up.headers = up'.headers := by
    intro l u₀ n up₀ b hat hl
    rw [fill, lookup_insert_ite] at hl
    split at hl
    next hu =>
      subst hu
      cases hl
      exact ⟨up₀, (uploadAt_eq.mp hat).1, rfl, rfl, rfl⟩
    · exact ⟨up', hl, rfl, rfl, rfl⟩
  cases h with
  | createUpload l md hd =>
    rw [openUpload, lookup_insert_ite] at hup'
    split at hup'
    next hu =>
      exact .inr ⟨l, md, hd, rfl, hu, (some.inj hup').symm, rfl⟩
    · exact .inl ⟨up', hup', rfl, rfl, rfl⟩
  | uploadPart hat | uploadPartCopy hv hat => exact .inl (hfill hat hup')
  | finish | discard | abort => exact .inl ⟨up', lookup_of_erase hup', rfl, rfl, rfl⟩
  | _ => exact .inl ⟨up', hup', rfl, rfl, rfl⟩

theorem Effect.parts {n : Nat} (hup' : s'.uploads.lookup u = some up')
    (hb : up'.parts.lookup n = some b) :
    (∃ up, s.uploads.lookup u = some up ∧ up.parts.lookup n = some b)
      ∨ (∃ l, q = .uploadPart l u n b)
      ∨ ∃ src l range e v, q = .uploadPartCopy src l u n range e ∧ s.source P src e = .ok v
        ∧ b = slice v.stored.bytes range := by
  -- a part that is filled in is the new one, or was there
  have hfill : ∀ {l : Loc} {u₀ n₀ : Nat} {up₀ : Upload} {b₀ : Bytes},
      s.uploadAt l u₀ = some up₀ → (s.fill u₀ n₀ up₀ b₀).uploads.lookup u = some up' →
      (∃ up, s.uploads.lookup u = some up ∧ up.parts.lookup n = some b) ∨ u = u₀ ∧ n = n₀ ∧ b = b₀ := by
    intro l u₀ n₀ up₀ b₀ hat hl
    rw [fill, lookup_insert_ite] at hl
    split at hl
    next hu =>
      cases hl
      rw [lookup_insert_ite] at hb
      split at hb
      next hn =>
        exact .inr ⟨hu, hn, (some.inj hb).symm⟩
      · exact .inl ⟨up₀, by rw [hu]; exact (uploadAt_eq.mp hat).1, hb⟩
    · exact .inl ⟨up', hl, hb⟩
  cases h with
  | createUpload l md hd =>
    rw [openUpload, lookup_insert_ite] at hup'
    split at hup'
    · obtain rfl := some.inj hup'
      simp at hb
    · exact .inl ⟨up', hup', hb⟩
  | uploadPart hat =>
    rcases hfill hat hup' with hold | ⟨rfl, rfl, rfl⟩
    · exact .inl hold
    · exact .inr (.inl ⟨_, rfl⟩)
  | uploadPartCopy hv hat =>
    rcases hfill hat hup' with hold | ⟨rfl, rfl, rfl⟩
    · exact .inl hold
    · exact .inr (.inr ⟨_, _, _, _, _, rfl, hv, rfl⟩)
  | finish | discard | abort => exact .inl ⟨up', lookup_of_erase hup', hb⟩
  | _ => exact .inl ⟨up', hup', hb⟩

theorem Effect.manifest_stays (hm : (s.manifests.lookup (l, m)).isSome = true) :
    (s'.manifests.lookup (l, m)).isSome = true ∨ q = .deleteManifest l m := by
  cases h with
  | putManifest l' m' raw =>
    rw [keepManifest, lookup_insert_ite]
    split
    · exact .inl rfl
    · exact .inl hm
  | deleteManifest l' m' =>
    rw [dropManifest, lookup_erase_ite]
    split
    next he =>
      cases he
      exact .inr rfl
    · exact .inl hm
  | _ => exact .inl hm

theorem Effect.manifest_new (hm : (s'.manifests.lookup (l, m)).isSome = true) :
    (s.manifests.lookup (l, m)).isSome = true ∨ ∃ raw, q = .putManifest l m raw := by
  cases h with
  | putManifest l' m' raw =>
    rw [keepManifest, lookup_insert_ite] at hm
    split at hm
    next he =>
      cases he
      exact .inr ⟨raw, rfl⟩
    · exact .inl hm
  | deleteManifest l' m' =>
    rw [dropManifest, lookup_erase_ite] at hm
    split at hm
    · simp at hm
    · exact .inl hm
  | _ => exact .inl hm

theorem Effect.named_stays (hm : m ∈ s.named) : m ∈ s'.named := by
  cases h with
  | createUpload l md hd => exact mem_append_right _ hm
  | _ => exact hm

theorem Effect.named_new (hm : m ∈ s'.named) :
    m ∈ s.named ∨ ∃ l md hd, q = .createUpload l md hd ∧ namedManifest E md = some m := by
  cases h with
  | createUpload l md hd =>
    rcases mem_append.mp hm with hm | hm
    · exact .inr ⟨l, md, hd, rfl, mem_toList.mp hm⟩
    · exact .inl hm
  | _ => exact .inl hm

theorem Effect.ids_stay (hm : m ∈ s.ids) : m ∈ s'.ids := by
  cases h with
  | newID hid => exact mem_cons_of_mem _ hm
  | _ => exact hm

theorem Effect.wraps_stay {x : Bytes} (hx : x ∈ s.wraps) : x ∈ s'.wraps := by
  cases h with
  | wrap hw hnew => exact mem_cons_of_mem _ hx
  | _ => exact hx

theorem Effect.sidecar (l : Loc) (n : Bytes) :
    s'.sidecars.lookup (l, n) = s.sidecars.lookup (l, n)
      ∨ (∃ raw, q = .putSidecar l n raw ∧ s' = s.keepSidecar l n raw)
      ∨ q = .deleteSidecar l n ∧ s' = s.dropSidecar l n := by
  cases h with
  | putSidecar l' n' raw =>
    by_cases he : (l, n) = (l', n')
    · cases he
      exact .inr (.inl ⟨raw, rfl, rfl⟩)
    · exact .inl (AList.lookup_insert_ne he)
  | deleteSidecar l' n' =>
    by_cases he : (l, n) = (l', n')
    · cases he
      exact .inr (.inr ⟨rfl, rfl⟩)
    · exact .inl (AList.lookup_erase_ne he)
  | _ => exact .inl rfl

theorem Effect.clock_le : s.clock ≤ s'.clock := by
  cases h with
  | put | copy | delete | createUpload => exact Nat.le_succ _
  | _ => exact le_rfl

theorem Effect.landed {r : Nat} (hr : (l, r, x) ∈ s'.landed) :
    (l, r, x) ∈ s.landed ∨ Lands P s l r x q s' := by
  cases h with
  | put hc =>
    refine (mem_cons.mp hr).symm.imp_right ?_
    rintro ⟨⟩
    exact .now (.put hc rfl) (Nat.lt_succ_self _)
  | copy hv =>
    refine (mem_cons.mp hr).symm.imp_right ?_
    rintro ⟨⟩
    exact .now (.copy hv rfl) (Nat.lt_succ_self _)
  | delete l' =>
    refine (mem_cons.mp hr).symm.imp_right ?_
    rintro ⟨⟩
    exact .gone
  | finish hup hbs hc =>
    refine (mem_cons.mp hr).symm.imp_right ?_
    rintro ⟨⟩
    exact .upload hup hbs hc
  | _ => exact .inl hr

theorem Effect.uploads_below (hs : ∀ u up, s.uploads.lookup u = some up → u < s.clock)
    (hup : s'.uploads.lookup u = some up) : u < s'.clock := by
  rcases h.uploads hup with ⟨up, hup, -⟩ | ⟨l, md, hd, -, rfl, -, rfl⟩
  · exact Nat.lt_of_lt_of_le (hs u up hup) h.clock_le
  · exact Nat.lt_succ_self _

theorem Effect.ranks_below (hu : ∀ u up, s.uploads.lookup u = some up → u < s.clock)
    (hs : ∀ l r x, (l, r, x) ∈ s.landed → r < s.clock) {r : Nat} (hr : (l, r, x) ∈ s'.landed) : r < s'.clock := by
  rcases h.landed hr with hr | hlands
  · exact Nat.lt_of_lt_of_le (hs l r x hr) h.clock_le
  · cases hlands with
    | now hpub hclock => exact hclock
    | gone => exact Nat.lt_succ_self _
    | upload hup hbs hc => exact Nat.lt_of_lt_of_le (hu r _ (uploadAt_eq.mp hup).1) h.clock_le

end Effects

end Bucket

end BlindBucket.Cloud
