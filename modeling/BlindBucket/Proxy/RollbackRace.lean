import BlindBucket.Proxy.Freshness

/-!
# Concurrent uploads and reads of one key

A `PutObject` writes to the provider and then records the salt of what it wrote; a
`GetObject` reads from the provider and then checks the salt of what it read. Between the
two steps of one request any other request may take its own, so the index and the visible
object can disagree although the provider is honest.

The rollback error stays away from a run in which no upload starts while another request
stands between its two steps, and no read starts while the index contradicts the visible
object. A step that breaks this rule always has a continuation, made of well-behaved steps
only, in which a read is refused.
-/

namespace BlindBucket

open BlindBucket.Stream BlindBucket.Freshness List Option

/-- One key: what the provider shows, what the index knows, and the requests that stand
between their two steps. An object is known by the salt of its segment. -/
structure Race where
  visible : Option Salt
  index : Local
  /-- Uploads that have written and not recorded. -/
  writing : List Salt
  /-- Reads that have read and not checked. -/
  reading : List Salt
  /-- What reads were answered: the rollback error, or none. -/
  answers : List (Option Msg)
  /-- The tags of all segments written so far. -/
  used : List Tag

inductive RaceAct where
  | putWrite (salt : Salt)
  | putRecord (salt : Salt) (t : Clock)
  | getRead
  | getCheck (salt : Salt) (t : Clock)

variable (D : Digests) (H : Sha256) (bucket key : Bytes)

/-- One step, if it is possible. A new segment has a new salt, and tags do not collide. -/
def Race.step (s : Race) : RaceAct → Option Race
  | .putWrite salt =>
    if segmentTag H salt ∈ s.used then none
    else some { s with
      visible := some salt
      writing := salt :: s.writing
      used := segmentTag H salt :: s.used }
  | .putRecord salt t =>
    if salt ∈ s.writing then
      (recordFreshness D H (some s.index) bucket key (saltsOf salt) t).map fun index =>
        { s with index := index, writing := s.writing.erase salt }
    else none
  | .getRead =>
    match s.visible with
    -- no object, no check
    | none => some s
    | some salt => some { s with reading := salt :: s.reading }
  | .getCheck salt t =>
    if salt ∈ s.reading then
      let checked := checkFreshness D H (some s.index) bucket key (saltsOf salt) t
      checked.2.map fun index =>
        { s with
          index := index
          reading := s.reading.erase salt
          answers := checked.1 :: s.answers }
    else none

/-- The index does not contradict the visible object. -/
def Race.InStep (s : Race) : Prop :=
  ∀ salt, s.visible = some salt → Agrees (s.index.known D bucket key) (segmentTag H salt)

/-- An upload writes while no other request stands between its two steps; a read reads while
no upload does, or while the index does not contradict the visible object. -/
def Race.Calm (s : Race) : RaceAct → Prop
  | .putWrite _ => s.writing = [] ∧ s.reading = []
  | .getRead => s.writing = [] ∨ s.InStep D H bucket key
  | .putRecord _ _ | .getCheck _ _ => True

inductive CalmRun : Race → Race → Prop
  | refl (s : Race) : CalmRun s s
  | step {s s' s'' : Race} {a : RaceAct} (hcalm : s.Calm D H bucket key a)
      (hstep : s.step D H bucket key a = some s') (hrun : CalmRun s' s'') : CalmRun s s''

/-- No read was answered with the rollback error. -/
def Race.Quiet (s : Race) : Prop := ∀ a ∈ s.answers, a = none

/-- Nothing is under way, and the index does not contradict the visible object. -/
structure Race.Start (s : Race) : Prop where
  opened : s.index.closed = false
  writing : s.writing = []
  reading : s.reading = []
  answers : s.answers = []
  inStep : s.InStep D H bucket key
  used : ∀ salt, s.visible = some salt → segmentTag H salt ∈ s.used

/-! ## What a step does -/

variable {D H bucket key}

variable {s s' : Race} {t : Clock}

theorem putWrite_ok {salt : Salt} (h : s.step D H bucket key (.putWrite salt) = some s') :
    segmentTag H salt ∉ s.used ∧ s' = { s with
      visible := some salt, writing := salt :: s.writing, used := segmentTag H salt :: s.used } := by
  obtain ⟨hfresh, h⟩ := ite_none_left_eq_some.mp h
  exact ⟨hfresh, (some.inj h).symm⟩

theorem putRecord_mem {salt : Salt} (h : s.step D H bucket key (.putRecord salt t) = some s') :
    salt ∈ s.writing := by
  obtain ⟨_, h⟩ := ite_none_right_eq_some.mp h
  assumption

theorem putRecord_eq {salt : Salt} (t : Clock) (hopen : s.index.closed = false) (hin : salt ∈ s.writing) :
    s.step D H bucket key (.putRecord salt t) = some { s with
      index := s.index.push D ⟨name D bucket key, segmentTag H salt, kindPresent, t.record⟩ t
      writing := s.writing.erase salt } := by
  rw [Race.step, if_pos hin, recordFreshness_spec hopen bucket key (tagFromSalts_saltsOf salt) t]
  rfl

theorem getRead_ok (h : s.step D H bucket key .getRead = some s') : (s.visible = none ∧ s' = s) ∨
      ∃ salt, s.visible = some salt ∧ s' = { s with reading := salt :: s.reading } := by
  rw [Race.step] at h
  split at h
  next hv =>
    exact .inl ⟨hv, (some.inj h).symm⟩
  next salt hv =>
    exact .inr ⟨salt, hv, (some.inj h).symm⟩

theorem getCheck_mem {salt : Salt} (h : s.step D H bucket key (.getCheck salt t) = some s') :
    salt ∈ s.reading := by
  obtain ⟨_, h⟩ := ite_none_right_eq_some.mp h
  assumption

theorem getCheck_eq (D : Digests) (H : Sha256) (bucket key : Bytes) {salt : Salt} (t : Clock)
    (hopen : s.index.closed = false) (hin : salt ∈ s.reading) :
    ∃ index answer, s.step D H bucket key (.getCheck salt t) = some { s with
        index := index, reading := s.reading.erase salt, answers := answer :: s.answers } ∧
      (answer = none ↔ Agrees (s.index.known D bucket key) (segmentTag H salt)) ∧
      (index = s.index ∨ s.index.known D bucket key = none ∧
        index = s.index.push D ⟨name D bucket key, segmentTag H salt, kindPresent, t.record⟩ t) := by
  obtain ⟨hanswer, hindex⟩ := checkFreshness_spec hopen bucket key
    (tagFromSalts_saltsOf salt) t
  cases hk : s.index.known D bucket key with
  | none =>
    rw [hk] at hindex
    refine ⟨_, _, ?_, hk ▸ hanswer, .inr ⟨rfl, rfl⟩⟩
    rw [Race.step, if_pos hin]
    dsimp only
    rw [hindex]
    rfl
  | some e =>
    rw [hk] at hindex
    refine ⟨_, _, ?_, hk ▸ hanswer, .inl rfl⟩
    rw [Race.step, if_pos hin]
    dsimp only
    rw [hindex]
    rfl

/-! ## Calm runs -/

/-- What holds along calm runs. At most one upload has not recorded yet, and then it wrote the
visible object; every read that has not checked yet has read the visible object, and its
check will pass. -/
structure Race.Inv (D : Digests) (H : Sha256) (bucket key : Bytes) (s : Race) : Prop where
  opened : s.index.closed = false
  writing : s.writing = [] ∨ ∃ salt, s.writing = [salt] ∧ s.visible = some salt
  reading : ∀ salt ∈ s.reading, s.visible = some salt ∧
    Agrees (s.index.known D bucket key) (segmentTag H salt)
  inStep : s.writing = [] → s.InStep D H bucket key
  quiet : s.Quiet
  used : ∀ salt, s.visible = some salt → segmentTag H salt ∈ s.used

theorem inv_start (h : s.Start D H bucket key) : s.Inv D H bucket key where
  opened := h.opened
  writing := .inl h.writing
  reading := by
    intro salt hin
    rw [h.reading] at hin
    simp at hin
  inStep := fun _ => h.inStep
  quiet := by
    intro a ha
    rw [h.answers] at ha
    simp at ha
  used := h.used

/-- A record of the visible object makes every pending check pass. -/
theorem agrees_push {index : Local} (salt : Salt) (t : Clock) :
    Agrees ((index.push D ⟨name D bucket key, segmentTag H salt, kindPresent, t.record⟩ t).known D
      bucket key) (segmentTag H salt) := by
  rw [known_push]
  exact agrees_present _ _

theorem inv_step {a : RaceAct} (hi : s.Inv D H bucket key) (hcalm : s.Calm D H bucket key a)
    (h : s.step D H bucket key a = some s') :
    s'.Inv D H bucket key := by
  cases a with
  | putWrite salt =>
    obtain ⟨-, rfl⟩ := putWrite_ok h
    obtain ⟨hw, hr⟩ := hcalm
    refine ⟨hi.opened, .inr ⟨salt, ?_, rfl⟩, ?_, ?_, hi.quiet, ?_⟩
    · rw [hw]
    · intro r hin
      rw [show s.reading = [] from hr] at hin
      simp at hin
    · intro hnil
      simp at hnil
    · intro v hv
      cases hv
      exact mem_cons_self ..
  | putRecord salt t =>
    have hin := putRecord_mem h
    rw [putRecord_eq t hi.opened hin] at h
    cases h
    -- the upload that records is the one that wrote the visible object
    rcases hi.writing with hnil | ⟨w, hw, hv⟩
    · rw [hnil] at hin
      simp at hin
    · rw [hw, mem_singleton] at hin
      subst hin
      refine ⟨(push_closed _ t).trans hi.opened, .inl ?_, ?_, ?_, hi.quiet, hi.used⟩
      · rw [hw, erase_cons_head]
      · intro r hr
        have hvr := (hi.reading r hr).1
        rw [hv] at hvr
        cases hvr
        exact ⟨hv, agrees_push salt t⟩
      · intro _ v hvv
        rw [show s.visible = some v from hvv] at hv
        cases hv
        exact agrees_push salt t
  | getRead =>
    rcases getRead_ok h with ⟨-, rfl⟩ | ⟨salt, hv, rfl⟩
    · exact hi
    · have hagree : Agrees (s.index.known D bucket key) (segmentTag H salt) := by
        rcases hcalm with hw | hs
        · exact hi.inStep hw salt hv
        · exact hs salt hv
      refine ⟨hi.opened, hi.writing, ?_, hi.inStep, hi.quiet, hi.used⟩
      intro r hr
      rcases mem_cons.mp hr with rfl | hr
      · exact ⟨hv, hagree⟩
      · exact hi.reading r hr
  | getCheck salt t =>
    have hin := getCheck_mem h
    obtain ⟨hv, hagree⟩ := hi.reading salt hin
    obtain ⟨index, answer, heq, hanswer, hindex⟩ :=
      getCheck_eq D H bucket key t hi.opened hin
    rw [heq] at h
    cases h
    -- whatever the check did, the index still agrees with the visible object
    have hstill : index.closed = false ∧ (∀ r, s.visible = some r →
        Agrees (s.index.known D bucket key) (segmentTag H r) →
        Agrees (index.known D bucket key) (segmentTag H r)) := by
      rcases hindex with rfl | ⟨-, rfl⟩
      · exact ⟨hi.opened, fun _ _ h => h⟩
      · refine ⟨(push_closed _ t).trans hi.opened, ?_⟩
        intro r hr _
        rw [hv] at hr
        cases hr
        exact agrees_push salt t
    refine ⟨hstill.1, hi.writing, ?_, ?_, ?_, hi.used⟩
    · intro r hr
      obtain ⟨hvr, har⟩ := hi.reading r (mem_of_mem_erase hr)
      exact ⟨hvr, hstill.2 r hvr har⟩
    · intro hw r hr
      exact hstill.2 r hr (hi.inStep hw r hr)
    · intro x hx
      rcases mem_cons.mp hx with rfl | hx
      · exact hanswer.mpr hagree
      · exact hi.quiet x hx

theorem inv_run (hrun : CalmRun D H bucket key s s') (hi : s.Inv D H bucket key) :
    s'.Inv D H bucket key := by
  induction hrun with
  | refl s => exact hi
  | step hcalm hstep _ ih => exact ih (inv_step hi hcalm hstep)

/-! ## Steps that break the rule -/

/-- A calm run ends with a read that is refused. -/
def Race.Refuses (D : Digests) (H : Sha256) (bucket key : Bytes) (s : Race) : Prop :=
  ∃ s', CalmRun D H bucket key s s' ∧ ¬ s'.Quiet

theorem Race.Refuses.step {s s' : Race} {a : RaceAct} (hcalm : s.Calm D H bucket key a)
    (hstep : s.step D H bucket key a = some s') (h : s'.Refuses D H bucket key) :
    s.Refuses D H bucket key := by
  obtain ⟨s'', hrun, hnot⟩ := h
  exact ⟨s'', .step hcalm hstep hrun, hnot⟩

theorem refuses_reading (salt : Salt) (hopen : s.index.closed = false) (hin : salt ∈ s.reading)
    (hnot : ¬ Agrees (s.index.known D bucket key) (segmentTag H salt)) :
    s.Refuses D H bucket key := by
  obtain ⟨index, answer, heq, hanswer, -⟩ := getCheck_eq D H bucket key someClock hopen hin
  refine ⟨_, .step (a := .getCheck salt someClock) trivial heq (.refl _), ?_⟩
  intro hquiet
  exact hnot (hanswer.mp (hquiet answer mem_cons_self))

theorem not_agrees_push {index : Local} {salt salt' : Salt} (t : Clock) (hne : segmentTag H salt ≠ segmentTag H salt') :
    ¬ Agrees ((index.push D ⟨name D bucket key, segmentTag H salt, kindPresent, t.record⟩ t).known D
      bucket key) (segmentTag H salt') := by
  rw [known_push, agrees_some]
  intro h
  exact hne h.2

/-- An upload that starts while another has not recorded: the other records last. -/
theorem refuses_overlapping_uploads (salt w : Salt) (hopen : s.index.closed = false) (hvisible : s.visible = some salt)
    (hwriting : s.writing = [salt, w]) (hne : segmentTag H w ≠ segmentTag H salt) : s.Refuses D H bucket key := by
  have hfirst : salt ∈ s.writing := by rw [hwriting]; simp
  refine Race.Refuses.step (a := .putRecord salt someClock) trivial
    (putRecord_eq someClock hopen hfirst) ?_
  have hrest : s.writing.erase salt = [w] := by rw [hwriting, erase_cons_head]
  rw [hrest]
  refine Race.Refuses.step (a := .putRecord w someClock) trivial
    (putRecord_eq someClock ((push_closed _ _).trans hopen) (mem_singleton_self w)) ?_
  rw [erase_cons_head]
  -- a read alone now sees the object of the first upload, and the index knows the second
  refine Race.Refuses.step (a := .getRead) (.inl rfl) (by rw [Race.step, hvisible]) ?_
  exact refuses_reading salt ((push_closed _ _).trans ((push_closed _ _).trans hopen))
    mem_cons_self (not_agrees_push someClock hne)

/-- An upload that starts while a read has not checked: the upload records first. -/
theorem refuses_overtaken_read (salt r : Salt) (hopen : s.index.closed = false) (hwriting : salt ∈ s.writing)
    (hreading : r ∈ s.reading) (hne : segmentTag H salt ≠ segmentTag H r) : s.Refuses D H bucket key := by
  refine Race.Refuses.step (a := .putRecord salt someClock) trivial
    (putRecord_eq someClock hopen hwriting) ?_
  exact refuses_reading r ((push_closed _ _).trans hopen) hreading (not_agrees_push someClock hne)

theorem refuses_of_not_calm {a : RaceAct} (hi : s.Inv D H bucket key)
    (hstep : s.step D H bucket key a = some s') (hnot : ¬ s.Calm D H bucket key a) :
    s'.Refuses D H bucket key := by
  cases a with
  | putWrite salt =>
    obtain ⟨hfresh, rfl⟩ := putWrite_ok hstep
    have hother : ∀ v, s.visible = some v → segmentTag H v ≠ segmentTag H salt := by
      intro v hv heq
      exact hfresh (heq ▸ hi.used v hv)
    rcases hi.writing with hw | ⟨w, hw, hv⟩
    · -- some read is between its two steps
      have hr : s.reading ≠ [] := fun hr => hnot ⟨hw, hr⟩
      obtain ⟨r, hr⟩ := exists_mem_of_ne_nil _ hr
      exact refuses_overtaken_read salt r hi.opened mem_cons_self hr
        (hother r (hi.reading r hr).1).symm
    · exact refuses_overlapping_uploads salt w hi.opened rfl (by rw [hw]) (hother w hv)
  | getRead =>
    rcases getRead_ok hstep with ⟨hv, -⟩ | ⟨salt, hv, rfl⟩
    · refine absurd (.inr ?_) hnot
      intro v hv'
      rw [hv] at hv'
      simp at hv'
    · refine refuses_reading salt hi.opened mem_cons_self ?_
      intro hagree
      refine hnot (.inr ?_)
      intro v hv'
      rw [hv] at hv'
      cases hv'
      exact hagree
  | putRecord salt t | getCheck salt t => exact absurd trivial hnot

/-- **When concurrent requests cause a false rollback.**

After any calm run, a step keeps every calm continuation free of rollback errors if and only
if it is calm itself. -/
theorem no_false_rollback_iff {s₀ s s' : Race} {a : RaceAct} (hstart : s₀.Start D H bucket key)
    (hrun : CalmRun D H bucket key s₀ s) (hstep : s.step D H bucket key a = some s') :
    (∀ s'', CalmRun D H bucket key s' s'' → s''.Quiet) ↔ s.Calm D H bucket key a := by
  have hi := inv_run hrun (inv_start hstart)
  constructor
  · intro hall
    by_contra hnot
    obtain ⟨s'', hrun'', hloud⟩ := refuses_of_not_calm hi hstep hnot
    exact hloud (hall s'' hrun'')
  · intro hcalm s'' hrun''
    exact (inv_run hrun'' (inv_step hi hcalm hstep)).quiet

/-! ## Two uploads and a read -/

def Race.run (D : Digests) (H : Sha256) (bucket key : Bytes) (s : Race) (acts : List RaceAct) :
    Option Race := acts.foldlM (fun s a => s.step D H bucket key a) s

/-- A hash to compute with: the end of the message, backwards. -/
def backHash : Sha256 where
  sum := fun b => (b.reverse ++ replicate 32 0).take 32
  sum_length := by
    intro b
    rw [length_take, length_append, length_replicate]
    omega

def saltOf (b : UInt8) : Salt := ⟨replicate saltSize b, length_replicate⟩

def emptyRace : Race := ⟨none, padIndex, [], [], [], []⟩

theorem emptyRace_start (bucket key : Bytes) : emptyRace.Start padDigests backHash bucket key where
  opened := rfl
  writing := rfl
  reading := rfl
  answers := rfl
  inStep := fun salt h => absurd h (by simp [emptyRace])
  used := fun salt h => absurd h (by simp [emptyRace])

/-- One upload alone: no calm continuation ends in a rollback error. -/
theorem no_false_rollback_one_upload :
    ∃ s', emptyRace.step padDigests backHash [0x62] [0x6B] (.putWrite (saltOf 1)) = some s' ∧
      ∀ s'', CalmRun padDigests backHash [0x62] [0x6B] s' s'' → s''.Quiet :=
  ⟨_, rfl, (no_false_rollback_iff (a := .putWrite (saltOf 1)) (emptyRace_start _ _) (.refl _)
    rfl).mpr ⟨rfl, rfl⟩⟩

/-- Two uploads overlap, and the one that wrote first records last: the object of the other is
visible, and a read that runs alone afterwards is refused. -/
theorem false_rollback_two_uploads : emptyRace.Start padDigests backHash [0x62] [0x6B] ∧
      (emptyRace.run padDigests backHash [0x62] [0x6B]
        [.putWrite (saltOf 1), .putWrite (saltOf 2), .putRecord (saltOf 2) someClock,
          .putRecord (saltOf 1) someClock, .getRead, .getCheck (saltOf 2) someClock]).map Race.answers
        = some [some staleMsg] :=
  ⟨emptyRace_start _ _, by decide +kernel⟩

end BlindBucket
