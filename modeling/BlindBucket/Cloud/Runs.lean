import BlindBucket.Cloud.Jobs
import BlindBucket.Lib.Schedule
import BlindBucket.Verify.WholeRead

/-!
# Runs that are given

A run of a deployment can be given step by step: what starts, whose request is served next, and what
the step leaves open. Everything in it is computed, and what it ends in can be reached.
-/

namespace BlindBucket.Cloud

open BlindBucket.Stream ObjectMeta Service List

/-- A gateway has given this to a client. -/
def issued (w : CloudWorld) (r : Reply) : Bool :=
  w.trace.any fun e =>
    match e.1 with
    | some ⟨_, .reply r', .ok ()⟩ => r' == r
    | _ => false

variable {w : CloudWorld}

theorem issued_sound {r : Reply} (h : issued w r = true) : Issued w r := by
  obtain ⟨⟨e, s⟩, he, hr⟩ := any_eq_true.mp h
  dsimp only at hr
  split at hr
  next i r' =>
    rw [beq_iff_eq] at hr
    subst hr
    exact ⟨i, s, he⟩
  · simp at hr

/-- What a client presents was given to it. -/
def Job.presented (j : Job) (w : CloudWorld) : Bool :=
  match j with
  | .part r => issued w (.token r.token)
  | .complete r => issued w (.token r.token) && r.parts.all fun q =>
    match q.2 with
    | .sealed t => issued w (.part t)
    | .garbled => true
  | .abort t => issued w (.token t)
  | _ => true

theorem Job.presented_sound {j : Job} (h : j.presented w = true) : j.Presented w := by
  cases j with
  | part r | abort t => exact issued_sound h
  | complete r =>
    obtain ⟨htok, hparts⟩ := Bool.and_eq_true_iff.mp h
    refine ⟨issued_sound htok, fun n t ht => ?_⟩
    exact issued_sound (all_eq_true.mp hparts _ ht)
  | _ => trivial

/-- A run that is given step by step: what starts, and whose request is served next. -/
def runOf (G : Site) (job : Nat → Job) (s₀ : Bucket) (ms : List (Move Choice)) : CloudConf :=
  Conf.execAll (fun s q ch => s.perform G.toBackend G.base64 ch q)
    (fun s ch => { s with now := s.now + ch.elapsed })
    (fun i => (job i).program G) (fun i w => (job i).presented w) ⟨⟨s₀, []⟩, fun _ => .idle⟩ ms

theorem runOf_reach (G : Site) (job : Nat → Job) (s₀ : Bucket) (ms : List (Move Choice)) :
    Reach (system G job fun _ _ _ => True) s₀ (runOf G job s₀ ms) := by
  refine Reach.execAll ?_ ?_ ?_ (fun _ _ _ => trivial) Reach.init ms
  · exact fun s q ch => ⟨ch, .inl rfl⟩
  · exact fun s ch => .tick _ (Nat.le_add_right _ _)
  · exact fun i w h => ⟨rfl, Job.presented_sound h⟩

/-- All requests of the run meet a condition. -/
def runLets (G : Site) (job : Nat → Job) (lets : Lets)
    [∀ i w q, Decidable (lets i w q)] (s₀ : Bucket) (ms : List (Move Choice)) : Bool :=
  Conf.letsAll lets (fun s q ch => s.perform G.toBackend G.base64 ch q)
    (fun s ch => { s with now := s.now + ch.elapsed })
    (fun i => (job i).program G) (fun i w => (job i).presented w) ⟨⟨s₀, []⟩, fun _ => .idle⟩ ms

theorem runLets_reach (G : Site) (job : Nat → Job) (lets : Lets)
    [∀ i w q, Decidable (lets i w q)] {s₀ : Bucket} {ms : List (Move Choice)}
    (h : runLets G job lets s₀ ms = true) : Reach (system G job lets) s₀ (runOf G job s₀ ms) := by
  have himp : ∀ i w q, lets i w q → (system G job lets).lets i w q := fun _ _ _ hlet => hlet
  refine Reach.execLets ?_ ?_ ?_ himp Reach.init ms h
  · exact fun s q ch => ⟨ch, .inl rfl⟩
  · exact fun s ch => .tick _ (Nat.le_add_right _ _)
  · exact fun i w h => ⟨rfl, Job.presented_sound h⟩

def hasEnded (c : CloudConf) (i : Nat) : Bool :=
  match c.threads i with
  | .running (.done _) => true
  | _ => false

def nextReq (c : CloudConf) (i : Nat) : Option Req :=
  match c.threads i with
  | .running (.ask q _) => some q
  | _ => none

theorem nextReq_get {c : CloudConf} {i : Nat} (h : (nextReq c i).isSome = true) :
    ∃ next, c.threads i = .running (.ask ((nextReq c i).get h) next) := by
  have hsome := (Option.some_get h).symm
  generalize (nextReq c i).get h = q at hsome
  unfold nextReq at hsome
  split at hsome
  next q' next hrun =>
    cases hsome
    exact ⟨next, hrun⟩
  · simp at hsome

/-- A choice of `n` random bytes that are all `b`. -/
def Choice.bytes (n : Nat) (b : UInt8) : Choice := { random := replicate n b }

/-! ## A small deployment -/

/-- Two key-encryption keys. -/
def smallRing : Keys.Keyring where
  active := [75]
  keys := [⟨[75], ⟨replicate 32 0, rfl⟩, none⟩, ⟨[76], ⟨replicate 32 1, rfl⟩, none⟩]
  audit := none
  name := none
  freshness := none
  sorted := by decide
  valid := by decide

/-- Keys that are wrapped in clear, between the nonce and an empty tag. -/
def clearKeys : KeyProvider := .ring Aead.openAead_correct smallRing

/-- Tags that are sealed in clear. -/
def clearTags : TagBox :=
  .sealed Aead.openAead_correct (fun _ _ _ n => replicate n 0) (length_replicate (n := Tags.nonceSize) (a := 0))

/-- An entity tag that tells all contents and all parts apart. -/
def partsTag (s : Stored) : Bytes :=
  (if s.multipart then 1 else 0) :: s.parts.flatMap fun p => p.flatMap (fun b => [1, b]) ++ [0]

theorem partsTag_injective : Function.Injective partsTag := by
  have hpart : ∀ p p' rest rest' : Bytes, p.flatMap (fun b => [1, b]) ++ 0 :: rest
      = p'.flatMap (fun b => [1, b]) ++ 0 :: rest' → p = p' ∧ rest = rest' := by
    intro p
    induction p with
    | nil =>
      intro p' rest rest' h
      cases p' with
      | nil => exact ⟨rfl, (cons.inj h).2⟩
      | cons b p' => exact absurd (cons.inj h).1 (by simp)
    | cons b p ih =>
      intro p' rest rest' h
      cases p' with
      | nil => exact absurd (cons.inj h).1 (by simp)
      | cons b' p' =>
        simp only [flatMap_cons, cons_append, nil_append, cons.injEq] at h
        obtain ⟨-, rfl, h⟩ := h
        obtain ⟨rfl, hrest⟩ := ih p' rest rest' h
        exact ⟨rfl, hrest⟩
  have hparts : ∀ ps ps' : List Bytes, (ps.flatMap fun p => p.flatMap (fun b => [1, b]) ++ [0])
        = (ps'.flatMap fun p => p.flatMap (fun b => [1, b]) ++ [0]) → ps = ps' := by
    intro ps
    induction ps with
    | nil =>
      intro ps' h
      cases ps' with
      | nil => rfl
      | cons p ps' => simp at h
    | cons p ps ih =>
      intro ps' h
      cases ps' with
      | nil => simp at h
      | cons p' ps' =>
        simp only [flatMap_cons, append_assoc, cons_append, nil_append] at h
        obtain ⟨rfl, hrest⟩ := hpart p p' _ _ h
        rw [ih ps' hrest]
  rintro ⟨ps, m⟩ ⟨ps', m'⟩ h
  obtain ⟨hflag, htail⟩ := cons.inj h
  obtain rfl := hparts ps ps' htail
  cases m <;> cases m' <;> first | rfl | exact absurd hflag (by simp)

/-- A deployment with names in clear, on a provider that fails and discards. -/
def smallSite : Site where
  etag := partsTag
  etag_ne s := by simp [partsTag]
  partETag := id
  keys := clearKeys
  discards := true
  faults := true
  crypto := partCrypto
  hmac := zeroHmac
  base64 := ⟨id, some, rfl, fun _ => rfl⟩
  log2C := 12
  tags := clearTags
  storedKey _ key := some key
  activeKID _ := some [75]

/-- The same on a provider that does neither. -/
def steadySite : Site := { smallSite with discards := false, faults := false }

def Bucket.empty : Bucket := ⟨∅, ∅, ∅, ∅, [], 0, 0, [], [], [], [], []⟩

/-- An object is put: three bytes, without metadata or tags. -/
def steadyPut : CloudConf :=
  runOf steadySite (fun _ => .put ⟨[98], [107], [97, 98, 99], [], {}, {}, []⟩) Bucket.empty
    [.start 0, .ask 0 (.bytes 32 1), .ask 0 (.bytes 12 1), .ask 0 (.bytes 20 1), .ask 0 {}]

end BlindBucket.Cloud
