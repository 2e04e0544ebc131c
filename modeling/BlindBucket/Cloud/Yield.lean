import BlindBucket.Cloud.Uploads

/-!
# Background work yields to clients

A rotation, a migration and an encryption publish through an upload and under a condition, and only
after they have seen that no other upload of the key is open. So what they publish ranks below every
upload that a client has open, and no completion is ever discarded for it.
-/

namespace BlindBucket.Cloud

open BlindBucket.Stream ObjectMeta Service

/-- A command that runs beside clients, under conditions. -/
def Job.background : Job → Bool
  | .rotate r => !r.allowUnconditional
  | .migrate r => !r.allowUnconditional
  | .encrypt r => !r.allowUnconditional
  | _ => false

theorem Job.background_isCreate {j : Job} (h : j.background = true) : j.isCreate = false := by
  cases j with
  | create r => simp [Job.background] at h
  | _ => rfl

/-- No open upload of `l` was created before `u`. -/
def Bucket.Oldest (s : Bucket) (l : Loc) (u : Nat) : Prop :=
  u < s.clock ∧ ∀ u' up, s.uploads.lookup u' = some up → up.loc = l → u ≤ u'

variable (job : Nat → Job)

def yieldMay (i : Nat) (w : CloudWorld) (q : Req) : Prop :=
  (job i).background = true →
    match q with
    | .put .. => False
    | .copy .. => False
    | .complete l u _ c =>
      Opened i u l w ∧ w.state.Oldest l u ∧ (c.ifMatch ≠ [] ∨ c.ifNoneMatch ≠ [])
    | _ => True

/-- What background work has landed at a key ranks below the open uploads of that key. -/
def Below (w : CloudWorld) : Prop :=
  ∀ i l r x, (l, r, x) ∈ w.state.landed → Opened i r l w → (job i).background = true →
    ∀ u up, w.state.uploads.lookup u = some up → up.loc = l → r < u

/-- The rules about background work, on top of those about uploads. -/
def yieldRules : Rules Bucket Req Answer := (uploadRules job).over (Below job) (yieldMay job)

theorem yieldRules_quiet (i : Nat) : Quiet fun q => ∀ w, (yieldRules job).may i w q := by
  intro q hq w _
  cases q <;> trivial

variable {job} {G : Site} {lets : Lets} {i : Nat}

/-- The system whose requests hold to the rules about uploads. -/
abbrev uploadSystem (G : Site) (job : Nat → Job) (lets : Lets) :
    System Bucket Req Answer Outcome :=
  system G job fun i w q => lets i w q ∧ UploadInv job w ∧ uploadMay job i w q

abbrev onYield (G : Site) (job : Nat → Job) (lets : Lets) :
    Regime Bucket Req Answer Outcome := ⟨uploadSystem G job lets, yieldRules job⟩

variable {s : Bucket} {q : Req} {l : Loc} {u : Nat} {w : CloudWorld}

theorem Bucket.Oldest.step {P : Backend} {E : Base64} {s' : Bucket} (h : s.Oldest l u) (he : s.Effect P E q s') :
    s'.Oldest l u := by
  refine ⟨h.1.trans_le he.clock_le, fun u' up' hup' hl => ?_⟩
  rcases he.uploads hup' with ⟨up, hup, hloc, -⟩ | ⟨_, _, _, -, rfl, -⟩
  · exact h.2 u' up hup (hloc.trans hl)
  · exact h.1.le

/-- What stays open when the oldest upload is completed is younger. -/
theorem Bucket.Oldest.lt_finish (h : s.Oldest l u) {v : Version} {u' : Nat} {up : Upload}
    (hu : (s.finish l u v).uploads.lookup u' = some up) (hl : up.loc = l) : u < u' := by
  change (s.uploads.erase u).lookup u' = some up at hu
  rw [Bucket.lookup_erase_ite] at hu
  obtain ⟨hne, hu⟩ := Option.ite_none_left_eq_some.mp hu
  exact Nat.lt_of_le_of_ne (h.2 u' up hu hl) (Ne.symm hne)

/-- **Background work publishes through uploads of its own.** What a request of it lands is a delete, or
the completion of an upload that it opened and that ranks below all that stay open. -/
theorem yields_lands {P : Backend} {E : Base64} {s' : Bucket} (hb : (job i).background = true)
    (hmay : yieldMay job i w q) (he : w.state.Effect P E q s') {r : Nat} {x : Option Version}
    (hr : (l, r, x) ∈ s'.landed) :
    (l, r, x) ∈ w.state.landed ∨ q = .delete l ∧ x = none
      ∨ Opened i r l w ∧ ∀ u up, s'.uploads.lookup u = some up → up.loc = l → r < u := by
  rcases he.landed hr with hr | hlands
  · exact .inl hr
  · cases hlands with
    | now hpub hclock =>
      cases hpub with
      | put hc hv | copy hsrc hv => exact absurd (hmay hb) (fun h => h)
      | finish hup hbs hc hv => exact absurd hclock (Nat.lt_irrefl _)
    | gone => exact .inr (.inl ⟨rfl, rfl⟩)
    | upload hat hbs hc =>
      obtain ⟨hopen, hold, -⟩ := hmay hb
      exact .inr (.inr ⟨hopen, fun u up hu hl => hold.lt_finish hu hl⟩)

/-- An upload that is neither the program's own nor handed to a client is not background work's. -/
theorem opener_of_complete (hw : UploadInv job w) {j : Nat} (hi : Opened i u l w) (hb : (job i).background = true)
    (hmay : (∃ l', Opened j u l' w) ∨ Handed u w) : j = i := by
  rcases hmay with ⟨l', hj⟩ | hh
  · exact hw.owner j i u l' l hj hi
  · obtain ⟨k, l', hk, hc⟩ := hw.handed u hh
    rw [hw.owner k i u l' l hk hi, Job.background_isCreate hb] at hc
    simp at hc

theorem below_moves {a : Answer q} (hw : UploadInv job w) (hup : uploadMay job i w q) (hI : Below job w)
    (hmay : yieldMay job i w q) (hserve : w.state.serve G.toBackend G.base64 q a s) : Below job (w.after i q a s) := by
  intro j l r x hr hopen hb u up hu hl
  have he := Bucket.serve_effect hserve
  have hopened : Opened j r l w := by
    obtain ⟨md, hd, ho⟩ := hopen
    rcases openedWith_after ho hserve with ho | ⟨-, rfl, rfl⟩
    · exact ⟨md, hd, ho⟩
    · exact absurd (hw.ranks l _ x hr) (Nat.lt_irrefl _)
  rcases he.landed hr with hr | hlands
  · rcases he.uploads hu with ⟨up₀, hu₀, hloc, -⟩ | ⟨_, _, _, -, rfl, -⟩
    · exact hI j l r x hr hopened hb u up₀ hu₀ (hloc.trans hl)
    · exact hw.ranks l r x hr
  · cases hlands with
    | now hpub hclock | gone => exact absurd (hw.bound j _ l hopened) (Nat.lt_irrefl _)
    | upload hat hbs hc =>
      -- the upload is completed by the program that opened it, which saw no older one
      obtain rfl := opener_of_complete hw hopened hb hup
      exact (hmay hb).2.1.lt_finish hu hl

theorem yieldRules_sound : Sound (onYield G job lets) := by
  refine Sound.over uploadRules_sound ?_ ?_
  · intro i w q a s hw _ hup hI hmay hserve
    exact below_moves hw hup hI hmay hserve
  · intro w s hw hI hs j l r x hr hopen hb u up hu hl
    obtain ⟨l', u', he⟩ := Bucket.drift_effect G.toBackend G.base64 hs
    rcases he.landed hr with hr | hlands
    · rcases he.uploads hu with ⟨up₀, hu₀, hloc, -⟩ | ⟨_, _, _, hq, -⟩
      · exact hI j l r x hr (opened_moved.mp hopen) hb u up₀ hu₀ (hloc.trans hl)
      · simp at hq
    · cases hlands with
      | now hpub hclock => cases hpub

/-! ## Every program holds to them -/

theorem firm_oldest (u : Nat) (l : Loc) : Firm (onYield G job lets) fun w => w.state.Oldest l u :=
  firm_state (F := fun s => s.Oldest l u) (fun _ _ _ _ => trivial) fun _ _ _ _ _ h he _ => h.step he

theorem yieldIf_keeps (u : Nat) (l : Loc) :
    (yieldIf true l u).Keeps (onYield G job lets) i (Opened i u l)
      fun _ w => Opened i u l w ∧ w.state.Oldest l u := by
  have hlist : (ask (.listUploads l)).Keeps (onYield G job lets) i (Opened i u l)
      fun others w => (others.all fun x => x == u) = true → Opened i u l w ∧ w.state.Oldest l u := by
    refine ask_keeps (fun _ _ _ _ _ => trivial) (fun others => ?_) ?_
    · exact (Firm.imp fun _ => (firm_opened i u l).and (firm_oldest u l)).stable
    · intro others w s hw hk _ hserve hall
      refine ⟨hk.after i _ _ s, ?_⟩
      obtain ⟨rfl, hus⟩ := Bucket.serve_listUploads hserve
      refine ⟨hw.1.bound i u l hk, fun u' up hup hl => ?_⟩
      have hsame := List.all_eq_true.mp hall u' (hus u' up hup hl)
      exact Nat.le_of_eq (beq_iff_eq.mp hsame).symm
  refine .bind hlist fun others => ?_
  exact require_keeps.imp fun _ _ _ hk => hk.2 hk.1

theorem publishUpload_yields (r : CopyRequest) (next : Meta) (dek : Bytes)
    (layout : Option (List Part)) (u : Nat) (hy : r.yieldToUploads = true)
    (hc : r.destIfMatch ≠ [] ∨ r.destIfNoneMatch ≠ []) :
    (publishUpload G r next dek layout u).Keeps (onYield G job lets) i
      (Opened i u r.dest.loc) fun _ _ => True := by
  have ho : Firm (onYield G job lets) _ := firm_opened i u r.dest.loc
  refine .bind (((copyParts_asks r u layout fun _ _ _ _ => trivial).tame.mapErr _).frame ho)
    (fun completed => ?_)
  refine .bind ((writeNextManifest_asks G r next dek layout fun _ _ _ _ => trivial).tame.frame ho)
    (fun _ => ?_)
  rw [hy]
  refine (yieldIf_keeps u r.dest.loc).bind fun _ => ?_
  refine .bind (.mapErr (ask_keeps ?_ (fun _ => Stable.true) ?_) _)
    (fun _ => .pure fun _ _ _ => trivial)
  · exact fun w _ hk _ _ => ⟨hk.1, hk.2, hc⟩
  · exact fun _ _ _ _ _ _ _ => trivial

theorem copyDo_yields (r : CopyRequest) (hy : r.yieldToUploads = true)
    (hc : r.destIfMatch ≠ [] ∨ r.destIfNoneMatch ≠ []) :
    (copyDo G r).Tame (onYield G job lets) i := by
  have hq := yieldRules_quiet job i
  refine require_asks.tame.bind fun _ => ?_
  refine require_asks.tame.bind fun _ => ?_
  refine needOk_asks.tame.bind fun _ => ?_
  refine (rewrap_asks G hq r).tame.bind fun wrapped => ?_
  refine (writeTags_asks G hq r (fun _ _ _ _ => trivial) _ _).tame.bind fun _ => ?_
  split
  · -- a copy in one request is not conditional
    rename_i hsmall
    rcases hc with hc | hc
    · exact absurd hsmall.2.1 hc
    · exact absurd hsmall.2.2.1 hc
  · refine (nextVersion_asks G hq r _ _).tame.bind fun version => ?_
    refine (createUpload_opens _ _ _ fun _ _ => trivial).bind fun u => ?_
    refine .bind (orAbort_keeps (fun _ _ _ _ => trivial)
      (publishUpload_yields r _ _ _ u hy hc) _ _) (fun _ => ?_)
    exact .bind (dropOld_asks _ _ _ fun _ _ _ => trivial).tame fun _ => Act.Tame.pure _

theorem encryptWrite_yields (r : EncryptRequest) (l : Loc) (info : Info) (c : Cond)
    (hallow : r.allowUnconditional = false) (hc : c.ifMatch ≠ [] ∨ c.ifNoneMatch ≠ []) :
    (encryptWrite G r l info c).Tame (onYield G job lets) i := by
  have hq := yieldRules_quiet job i
  refine needOk_asks.tame.bind fun partSize => ?_
  refine (ask_tame (hq _ rfl)).bind fun dek => ?_
  refine (wrapDEK_asks hq _ _ _ _).tame.bind fun wrapped => ?_
  refine (manifestFor_asks hq _).tame.bind fun id => ?_
  refine (readPlain_asks hq r info).tame.bind fun body => ?_
  refine (createUpload_opens l _ _ fun _ _ => trivial).bind fun u => ?_
  have ho : Firm (onYield G job lets) _ := firm_opened i u l
  refine orAbort_keeps (fun _ _ _ _ => trivial) ?_ l u
  refine .bind ((uploadBody_asks G hq (fun _ _ _ _ => trivial) _ _ dek body _).tame.frame ho)
    (fun parts => ?_)
  refine ((checkDigest_asks r info _).tame.frame ho).bind fun _ => ?_
  refine ((writeLayout_asks G l _ _ dek fun _ _ _ _ => trivial).tame.frame ho).bind fun _ => ?_
  rw [hallow]
  refine (yieldIf_keeps u l).bind fun _ => ?_
  refine .bind (.mapErr (ask_keeps ?_ (fun _ => Stable.true) ?_) _)
    (fun _ => .pure fun _ _ _ => trivial)
  · exact fun w _ hk _ _ => ⟨hk.1, hk.2, hc⟩
  · exact fun _ _ _ _ _ _ _ => trivial

theorem writeBack_yields (r : RotateRequest) (hallow : r.allowUnconditional = false) (info : Info)
    (m : Meta) (hetag : info.etag ≠ []) :
    (writeBack G r info m).Tame (onYield G job lets) i := by
  refine copyDo_yields _ rfl (.inl ?_)
  rw [hallow]
  exact hetag

theorem copyToEncrypted_yields (r : MigrateRequest) (hallow : r.allowUnconditional = false)
    (stored : Bytes) (info : Info) (m : Meta) :
    (copyToEncrypted G r stored info m).Tame (onYield G job lets) i := by
  refine copyDo_yields _ rfl (.inr ?_)
  rw [hallow]
  simp [GoText.ascii]

theorem yield_starters : Starters (onYield G job lets) fun _ _ _ => True := by
  rintro i w p hw ⟨rfl, -⟩
  have hq := yieldRules_quiet job i
  refine ⟨fun _ => True, Stable.true, trivial, ?_⟩
  by_cases hb : (job i).background = true
  · cases hj : job i with
    | rotate r =>
      rw [hj] at hb
      have hallow : r.allowUnconditional = false := by simpa [Job.background] using hb
      refine ended_keeps (rotateOne_keeps (fun info _ => info.etag ≠ []) r ?_ ?_)
      · exact head_etag _ (hq _ rfl)
      · intro info m _
        exact .weaken (.given (writeBack_yields r hallow info m))
          fun _ _ hk => ⟨hk, trivial⟩
    | migrate r =>
      rw [hj] at hb
      have hallow : r.allowUnconditional = false := by simpa [Job.background] using hb
      exact ended_keeps (migrateOne_tame hq r (copyToEncrypted_yields r hallow) (fun _ _ => trivial)
        fun _ _ _ => trivial)
    | encrypt r =>
      rw [hj] at hb
      have hallow : r.allowUnconditional = false := by simpa [Job.background] using hb
      exact ended_keeps (encryptOne_tame hq r
        (fun l info c _ hc => encryptWrite_yields r l info c hallow (hc hallow)) fun _ _ => trivial)
    | _ =>
      rw [hj] at hb
      simp [Job.background] at hb
  · exact Prog.Keeps.free fun w q hbg => absurd hbg hb

section Runs

variable {s₀ : Bucket} {c : CloudConf}

theorem yieldInv_init (h₀ : s₀.Ranked) : (yieldRules job).inv ⟨s₀, []⟩ := by
  refine ⟨uploadInv_init h₀, ?_⟩
  rintro i l r x - ⟨md, hd, ho⟩
  simp [OpenedWith] at ho

/-- **What background work has landed ranks below every open upload**, in all that can be reached. -/
theorem below_of_reach (h₀ : s₀.Ranked) (h : Reach (system G job lets) s₀ c) : Below job c.world :=
  (Reach.inv yieldRules_sound yield_starters (yieldInv_init h₀) (reach_uploads h₀ h)).2

/-- A request that is about to be served holds to the rules. -/
theorem yieldMay_of_reach (h₀ : s₀.Ranked) (h : Reach (system G job lets) s₀ c) {next : Answer q → Prog Req Answer Outcome}
    (hi : c.threads i = .running (.ask q next)) (hlets : lets i c.world q) : yieldMay job i c.world q := by
  have hinv := Reach.inv uploadRules_sound upload_starters (uploadInv_init h₀) h
  have hup := h.may uploadRules_sound upload_starters (uploadInv_init h₀) hi hlets
  exact (reach_uploads h₀ h).may yieldRules_sound yield_starters (yieldInv_init h₀) hi ⟨hlets, hinv, hup⟩

end Runs

end BlindBucket.Cloud
