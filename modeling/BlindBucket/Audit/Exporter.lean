import Mathlib.Logic.Function.Basic

/-!
# The asynchronous exporter

`AsyncExporter` of `internal/audit/export.go`, as the atomic steps of its goroutines: the calls of `Export`, the worker
and `Close` with its deadline. An entry is named by the call that passed it. A call looks whether the exporter is closed
and then queues its entry, and between the two the worker may look at the queue for the last time.
-/

namespace BlindBucket.Audit

open List

inductive Call where
  | fresh
  /-- It has found the exporter open and has not queued its entry yet. -/
  | passed
  | returned
deriving DecidableEq

/-- Where the worker is, with the batch in its hands. `draining` tells that it has seen the exporter closed. -/
inductive Worker (ι : Type) where
  | waiting
  | filling (draining : Bool) (batch : List ι)
  | judging (batch : List ι)
  | delivering (draining : Bool) (batch : List ι)
  | returned
deriving DecidableEq

def Worker.batch {ι : Type} : Worker ι → List ι
  | filling _ batch | judging batch | delivering _ batch => batch
  | waiting | returned => []

/-- What the exporter was made with: whether its destination can send batches, and whether there is an `onError`. -/
structure ExporterConfig where
  queueSize : Nat
  sender : Bool
  onError : Bool

structure AsyncExporter (ι : Type) where
  call : ι → Call := fun _ => .fresh
  queue : List ι := []
  worker : Worker ι := .waiting
  done : Bool := false
  cancelled : Bool := false
  closed : Bool := false
  /-- The entries that a successful send was made of. -/
  sent : List ι := []
  /-- The entries that `failed` was called for. -/
  failed : List ι := []
  /-- The entries that were queued after the worker had returned. -/
  late : List ι := []

/-- One step. `deliver` says how a send ends. -/
inductive ExportStep (ι : Type) where
  | check (i : ι)
  | enqueue (i : ι)
  | receive
  | seeDone
  | fill
  | filled
  | judge
  | deliver (ok : Bool)
  | close
  | deadline
  | closeReturns

def maxBatch : Nat := 512

namespace AsyncExporter

variable {ι : Type} [DecidableEq ι]

/-- How the entries of `batch` end. -/
def settle (a : AsyncExporter ι) (ok : Bool) (batch : List ι) : AsyncExporter ι :=
  if ok then { a with sent := a.sent ++ batch } else { a with failed := a.failed ++ batch }

/-- Where the worker goes once a batch is delivered. -/
def next (draining : Bool) : Worker ι := if draining then .filling true [] else .waiting

/-- What a step does, where it can be taken. -/
def step (cfg : ExporterConfig) (a : AsyncExporter ι) : ExportStep ι → Option (AsyncExporter ι)
  | .check i =>
    if a.call i ≠ .fresh then none
    else if a.done then some { a.settle false [i] with call := Function.update a.call i .returned }
    else some { a with call := Function.update a.call i .passed }
  | .enqueue i =>
    if a.call i ≠ .passed then none
    else if a.queue.length < cfg.queueSize then
      some { a with
        call := Function.update a.call i .returned
        queue := a.queue ++ [i]
        late := if a.worker = .returned then a.late ++ [i] else a.late }
    else some { a.settle false [i] with call := Function.update a.call i .returned }
  | .receive =>
    match a.worker, a.queue with
    | .waiting, i :: queue => some { a with worker := .filling false [i], queue }
    | _, _ => none
  | .seeDone => if a.worker = .waiting ∧ a.done then some { a with worker := .filling true [] } else none
  | .fill =>
    match a.worker, a.queue with
    | .filling draining batch, i :: queue =>
      if batch.length < maxBatch then some { a with worker := .filling draining (batch ++ [i]), queue } else none
    | _, _ => none
  | .filled =>
    match a.worker with
    | .filling draining batch =>
      if batch.length < maxBatch ∧ a.queue ≠ [] then none
      else if draining = false then some { a with worker := .delivering false batch }
      else if batch = [] then some { a with worker := .returned }
      else some { a with worker := .judging batch }
    | _ => none
  | .judge =>
    match a.worker with
    | .judging batch =>
      if a.cancelled then some { a.settle false batch with worker := .filling true [] }
      else some { a with worker := .delivering true batch }
    | _ => none
  | .deliver ok =>
    match a.worker with
    | .delivering draining [] => some { a with worker := next draining }
    | .delivering draining (i :: batch) =>
      if cfg.sender then some { a.settle ok (i :: batch) with worker := next draining }
      else if a.cancelled then some { a.settle false (i :: batch) with worker := next draining }
      else some { a.settle ok [i] with worker := .delivering draining batch }
    | _ => none
  | .close => if a.done then none else some { a with done := true }
  | .deadline => if a.done then some { a with cancelled := true } else none
  | .closeReturns =>
    if a.worker = .returned ∧ a.closed = false then some { a with closed := true, cancelled := true } else none

def run (cfg : ExporterConfig) (a : AsyncExporter ι) : List (ExportStep ι) → Option (AsyncExporter ι)
  | [] => some a
  | s :: rest => (a.step cfg s).bind fun a => run cfg a rest

/-- What `onError` was called for. -/
def reported (cfg : ExporterConfig) (a : AsyncExporter ι) : List ι := if cfg.onError then a.failed else []

/-- How often an entry is somewhere. -/
def places (a : AsyncExporter ι) (i : ι) : Nat :=
  a.queue.count i + a.worker.batch.count i + a.sent.count i + a.failed.count i

/-- What every step keeps: an entry whose call has returned is in one place, and in no other. -/
structure Inv (a : AsyncExporter ι) : Prop where
  places : ∀ i, a.places i = if a.call i = .returned then 1 else 0
  last : if a.worker = .returned then a.queue = a.late else a.late = []
  closed : a.closed = true → a.worker = .returned

variable {cfg : ExporterConfig} {a b : AsyncExporter ι} {s : ExportStep ι}

/-- A step moves an entry from one place to another, or it is the one with which its call returns. -/
theorem step_places (h : a.step cfg s = some b) (i : ι) :
    (b.places i = a.places i ∧ (b.call i = .returned ↔ a.call i = .returned)) ∨
      (b.places i = a.places i + 1 ∧ a.call i ≠ .returned ∧ b.call i = .returned) := by
  cases s with
  | check j | enqueue j =>
    obtain ⟨hj, h⟩ := Option.ite_none_left_eq_some.mp h
    split at h <;> cases h <;> by_cases hij : i = j <;> grind [places, settle]
  | receive | seeDone | fill | filled | close | deadline | closeReturns => grind [step, places, Worker.batch]
  | judge => grind [step, places, settle, Worker.batch]
  | deliver ok => grind [step, places, settle, Worker.batch, next]

theorem step_last (h : a.step cfg s = some b)
    (ha : if a.worker = .returned then a.queue = a.late else a.late = []) :
    if b.worker = .returned then b.queue = b.late else b.late = [] := by
  cases s with
  | _ => grind [step, settle, next, maxBatch]

theorem step_closed (h : a.step cfg s = some b) (ha : a.closed = true → a.worker = .returned) :
    b.closed = true → b.worker = .returned := by
  cases s with
  | _ => grind [step, settle, next]

theorem step_inv (ha : a.Inv) (h : a.step cfg s = some b) : b.Inv where
  places i := by
    have hi := ha.places i
    rcases step_places h i with ⟨hp, hc⟩ | ⟨hp, hca, hcb⟩
    · rw [hp, hi, if_congr hc rfl rfl]
    · rw [hp, hi, if_neg hca, if_pos hcb]
  last := step_last h ha.last
  closed := step_closed h ha.closed

theorem run_inv {steps : List (ExportStep ι)} (ha : a.Inv) (h : a.run cfg steps = some b) : b.Inv := by
  induction steps generalizing a with
  | nil =>
    cases h
    exact ha
  | cons s steps ih =>
    obtain ⟨a', hs, h⟩ := Option.bind_eq_some_iff.mp h
    exact ih (step_inv ha hs) h

theorem start_inv : ({} : AsyncExporter ι).Inv where
  places i := by simp [places, Worker.batch]
  last := by simp
  closed := by simp

/-- Once `Close` and the calls have returned, every entry is accounted for exactly once if and only if none was queued
after the worker had returned and there is an `onError` for those that failed. -/
theorem accounted_iff {steps : List (ExportStep ι)} (h : ({} : AsyncExporter ι).run cfg steps = some b)
    (hclosed : b.closed = true) (hcalls : ∀ i, b.call i ≠ .passed) :
    (∀ i, b.call i ≠ .fresh → b.sent.count i + (b.reported cfg).count i = 1) ↔
      b.late = [] ∧ (cfg.onError = true ∨ b.failed = []) := by
  obtain ⟨hplaces, hlast, hret⟩ := run_inv start_inv h
  rw [if_pos (hret hclosed)] at hlast
  have hall (i : ι) : b.late.count i + b.sent.count i + b.failed.count i = if b.call i = .fresh then 0 else 1 := by
    have hi := hplaces i
    rw [places, hret hclosed, hlast] at hi
    cases hcall : b.call i with
    | passed => exact absurd hcall (hcalls i)
    | _ => simpa [hcall, Worker.batch] using hi
  have hle (i : ι) : (b.reported cfg).count i ≤ b.failed.count i := by
    unfold reported
    split <;> simp
  constructor
  · intro hacc
    have hbal (i : ι) : b.late.count i + b.failed.count i = (b.reported cfg).count i := by
      have hsum := hall i
      have hi := hle i
      by_cases hfresh : b.call i = .fresh
      · rw [if_pos hfresh] at hsum
        omega
      · rw [if_neg hfresh, ← hacc i hfresh] at hsum
        omega
    refine ⟨eq_nil_iff_forall_not_mem.mpr fun i hi => ?_, ?_⟩
    · have hpos := count_pos_iff.mpr hi
      have := hbal i
      have := hle i
      omega
    · by_cases herr : cfg.onError = true
      · exact .inl herr
      · refine .inr (eq_nil_iff_forall_not_mem.mpr fun i hi => ?_)
        have hpos := count_pos_iff.mpr hi
        have := hbal i
        rw [reported, if_neg herr, count_nil] at this
        omega
  · rintro ⟨hlate, herr⟩ i hi
    have hsum := hall i
    rw [hlate, if_neg hi, count_nil, Nat.zero_add] at hsum
    rcases herr with herr | herr
    · rw [reported, if_pos herr, hsum]
    · rwa [show b.reported cfg = b.failed by simp [reported, herr]]

/-- One entry that is sent before the exporter is closed. -/
theorem accounted_iff_sent :
    ∃ b : AsyncExporter Nat, ({} : AsyncExporter Nat).run ⟨1, true, true⟩ [.check 0, .enqueue 0, .receive, .filled,
        .deliver true, .close, .seeDone, .filled, .closeReturns] = some b ∧ b.sent = [0] ∧ b.late = [] ∧
      ∀ i, b.call i ≠ .fresh → b.sent.count i + (b.reported ⟨1, true, true⟩).count i = 1 := by
  have hrun : ({} : AsyncExporter Nat).run ⟨1, true, true⟩ [.check 0, .enqueue 0, .receive, .filled, .deliver true,
    .close, .seeDone, .filled, .closeReturns] = some _ := rfl
  refine ⟨_, hrun, rfl, rfl, (accounted_iff hrun rfl fun i => ?_).mpr ⟨rfl, .inl rfl⟩⟩
  by_cases hi : i = 0
  · simp [settle, hi]
  · simp [settle, hi]

/-- The call finds the exporter open, the worker drains and returns, and then the entry is queued. -/
theorem entry_queued_too_late :
    ∃ b : AsyncExporter Nat, ({} : AsyncExporter Nat).run ⟨1, true, true⟩ [.check 0, .close, .seeDone, .filled,
        .enqueue 0, .closeReturns] = some b ∧
      b.closed = true ∧ b.call 0 = .returned ∧ b.sent = [] ∧ b.reported ⟨1, true, true⟩ = [] :=
  ⟨_, rfl, rfl, rfl, rfl, rfl⟩

end AsyncExporter

end BlindBucket.Audit
