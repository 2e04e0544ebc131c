import BlindBucket.Cloud.Collect
import BlindBucket.Cloud.EncryptExisting

/-!
# Everything that runs

The programs of a deployment that may run at once, each any number of times: the requests of clients
at any number of gateways, the commands of operators, and whatever only reads.
-/

namespace BlindBucket.Cloud

open BlindBucket.Stream ObjectMeta Service

/-! ## Tags -/

/-- A change of the tags of an object. -/
inductive TagOp where
  | put (set : List Tag)
  | delete
deriving DecidableEq

/-- The version that a tag request acts on: the name of its sidecar, and its data key. -/
def findTagTarget (G : Site) (l : Loc) (bucket key : Bytes) : Call (Bytes × Bytes) := do
  let info ← ask (.head l)
  let m ← parseMeta G info.metadata
  let dek ← unwrapDEK G bucket key m.keyID m.wrappedDEK
  pure (storedDEK info.metadata, dek)

/-- `putObjectTagging`, once the set is known to be valid. -/
def putObjectTagging (G : Site) (bucket key : Bytes) (set : List Tag) : Call Unit := do
  let l ← storedLoc G bucket key
  let target ← findTagTarget G l bucket key
  putTags G l bucket key target.1 target.2 set

def deleteObjectTagging (G : Site) (bucket key : Bytes) : Call Unit := do
  let l ← storedLoc G bucket key
  let target ← findTagTarget G l bucket key
  match ← tryAsk (.deleteSidecar l target.1) with
  | .error f => if f.isNotFound then pure () else throw (.upstream f)
  | .ok _ => pure ()

/-- `getObjectTagging` of an object that the gateway wrote. -/
def getObjectTagging (G : Site) (bucket key : Bytes) : Call (List Tag) := do
  let l ← storedLoc G bucket key
  let target ← findTagTarget G l bucket key
  match ← tryAsk (.getSidecar l target.1) with
  | .error f => if f.isNotFound then pure [] else throw (.upstream f)
  | .ok raw => need (.internal "tag sidecar") (G.tags.openTags target.2 bucket key raw)

def tagRequest (G : Site) (bucket key : Bytes) : TagOp → Call Unit
  | .put set => putObjectTagging G bucket key set
  | .delete => deleteObjectTagging G bucket key

/-- A client that changes tags, one request after another: the changes that were acknowledged. -/
def tagSession (G : Site) (bucket key : Bytes) : List TagOp → Call (List TagOp)
  | [] => pure []
  | op :: ops => do
      match ← ((tagRequest G bucket key op).attempt : Call (Except OpErr Unit)) with
      | .ok _ => do
          let rest ← tagSession G bucket key ops
          pure (op :: rest)
      | .error _ => tagSession G bucket key ops

/-! ## Jobs -/

inductive Outcome where
  | done
  | failed (e : OpErr)
  | tagged (acked : List TagOp)
  | read (what : Bytes)
deriving DecidableEq

/-- A request that changes nothing. -/
def Req.reads : Req → Bool
  | .head _ | .get .. | .listParts .. | .listUploads _ | .getManifest .. | .listManifests _
  | .getSidecar .. | .headSidecar .. | .listSidecars _ | .now => true
  | _ => false

/-- A program that makes no other. -/
def ReadsOnly {α : Type} (p : Prog Req Answer α) : Prop := p.Asks fun q => q.reads = true

inductive Job where
  | put (r : PutRequest)
  | delete (bucket key : Bytes)
  | create (r : CreateRequest)
  | part (r : PartRequest)
  | complete (r : CompleteRequest)
  | abort (t : Token)
  | copy (r : CopyObjectRequest)
  | rotate (r : RotateRequest)
  | gc (cfg : GcConfig)
  | migrate (r : MigrateRequest)
  | encrypt (r : EncryptRequest)
  | tag (bucket key : Bytes) (ops : List TagOp)
  | read (p : Prog Req Answer Outcome) (h : ReadsOnly p)

/-- The program, whatever it returns. -/
def ended {α : Type} (p : Call α) : Prog Req Answer Outcome :=
  p.run >>= fun res =>
    match res with
    | .ok _ => .done .done
    | .error e => .done (.failed e)

/-- The program of a tag session. -/
def endedTags (p : Call (List TagOp)) : Prog Req Answer Outcome :=
  p.run >>= fun res =>
    match res with
    | .ok acked => .done (.tagged acked)
    | .error e => .done (.failed e)

variable (G : Site)

def Job.program : Job → Prog Req Answer Outcome
  | .put r => ended (putObject G r)
  | .delete bucket key => ended (deleteObject G bucket key)
  | .create r => ended (createMultipartUpload G r)
  | .part r => ended (uploadPart G r)
  | .complete r => ended (completeMultipartUpload G r)
  | .abort t => ended (abortMultipartUpload G t)
  | .copy r => ended (copyObject G r)
  | .rotate r => ended (rotateOne G r)
  | .gc cfg => ended (gcRun G cfg)
  | .migrate r => ended (migrateOne G r)
  | .encrypt r => ended (encryptOne G r)
  | .tag bucket key ops => endedTags (tagSession G bucket key ops)
  | .read p _ => p

abbrev CloudWorld := World Bucket Req Answer

abbrev CloudConf := Conf Bucket Req Answer Outcome

/-- A condition on the schedules: when the provider serves which request of which program. -/
abbrev Lets := Nat → CloudWorld → Req → Prop

/-- A gateway has given this to a client. -/
def Issued (w : CloudWorld) (r : Reply) : Prop :=
  ∃ i, w.Asked ⟨i, .reply r, .ok ()⟩

@[simp] theorem issued_moved {w : CloudWorld} {s : Bucket} {r : Reply} :
    Issued (w.moved s) r ↔ Issued w r := by simp [Issued]

/-- What a client presents was given to it: tokens and part tags cannot be forged. -/
def Job.Presented (w : CloudWorld) : Job → Prop
  | .part r => Issued w (.token r.token)
  | .complete r => Issued w (.token r.token) ∧ ∀ n t, (n, ClientTag.sealed t) ∈ r.parts → Issued w (.part t)
  | .abort t => Issued w (.token t)
  | _ => True

/-- A deployment and what runs in it. `job` says what each program is, and `lets` is a condition on
the schedules under consideration. -/
def system (job : Nat → Job) (lets : Lets) : System Bucket Req Answer Outcome where
  serve s q a s' := s.serve G.toBackend G.base64 q a s'
  drift s s' := s.Drift s'
  starts i w p := p = (job i).program G ∧ (job i).Presented w
  lets := lets

end BlindBucket.Cloud
