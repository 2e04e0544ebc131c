import BlindBucket.Cloud.Objects
import BlindBucket.Manifest.Codec

/-!
# Garbage collection

`blindbucket gc` removes the manifests and the tag sidecars that no visible version uses. It has no
keys: which object a manifest belongs to it reads from the manifest, and believes it only if it
hashes back to the place where the manifest lies. Here a place is given by the location itself, the
hash being taken as injective.
-/

namespace BlindBucket.Cloud

open BlindBucket.Stream ObjectMeta Service

/-- `gc.Config`. `order` is the order in which the keys that the listing showed are walked; it is
that of a map, and so it is not known. -/
structure GcConfig where
  bucket : Bytes
  keyPrefix : Bytes
  minAge : Nat
  disableMinAge : Bool
  dryRun : Bool
  order : List Loc

/-- `gc.Result`. -/
structure GcResult where
  manifestsSeen : Nat := 0
  keysScanned : Nat := 0
  keysSkipped : Nat := 0
  deleted : Nat := 0
  keptCurrent : Nat := 0
  keptTooYoung : Nat := 0
  keptUnreadable : Nat := 0
  errors : Nat := 0
  sidecarsSeen : Nat := 0
  sidecarsDeleted : Nat := 0
  sidecarsKeptCurrent : Nat := 0
  sidecarsKeptTooYoung : Nat := 0
  sidecarsKeptUnreadable : Nat := 0
deriving DecidableEq

/-- What is done about one entry that is not current. -/
inductive Fate where
  | tooYoung
  | dryRun
  | delete
deriving DecidableEq

variable (G : Site) (cfg : GcConfig)

def defaultMinAge : Nat := 8 * 24 * 60 * 60

/-- The minimum age that a run goes by. -/
def GcConfig.age : Nat := if cfg.minAge = 0 then defaultMinAge else cfg.minAge

/-- The clock is read when the entry is looked at. -/
def GcConfig.tooYoung (now modified : Nat) : Bool :=
  !cfg.disableMinAge && decide (now < modified + cfg.age)

/-- The clock is read only if there is a minimum age. -/
def gcNow : Call Nat := if cfg.disableMinAge then pure 0 else ask .now

def fateOf (modified : Nat) : Call Fate := do
  let now ← gcNow cfg
  pure (if cfg.tooYoung now modified then .tooYoung else if cfg.dryRun then .dryRun else .delete)

/-! ## Manifests -/

/-- The loop over the entries of a place, until one names the key that the place belongs to. -/
def resolveKey {α : Type} (q : α → Req) (names : ∀ x, (q x).Result → Bool) : List α → Call Bool
  | [] => pure false
  | x :: xs => do
      match ← tryAsk (q x) with
      | .error _ => resolveKey q names xs
      | .ok found => if names x found then pure true else resolveKey q names xs

/-- The key in a manifest that nobody has verified. -/
def peekKey (raw : Bytes) : Option Bytes := (Manifest.peekIdentity raw).toOption.map (·.2.1)

def resolveObjectKey (l : Loc) : List Manifest.ID → Call Bool :=
  resolveKey (.getManifest l) fun _ raw => peekKey (raw.take (2 ^ 20)) = some l.key

/-- The id of the manifest that the metadata of an object name. -/
def manifestIDOf (base64 : Bytes → Option Bytes) (md : Metadata) : Try (Option Manifest.ID) :=
  match md.find? fun q => GoText.equalFold q.1 metaManifestID with
  | none => .ok none
  | some q =>
    ((parseID base64 q.2).map some).mapError (aroundErr "the object's bb-mid %q does not parse: %w" [.bytes q.2])

theorem manifestIDOf_ok {E : Base64} {md : Metadata} {current : Option Manifest.ID}
    (h : manifestIDOf E.decode md = .ok current) : namedManifest E md = current := by
  unfold manifestIDOf at h
  rw [namedManifest, GoText.lookupFold]
  split at h
  next hfind =>
    cases h
    rw [hfind]
    rfl
  next q hfind =>
    rw [hfind]
    obtain ⟨id, hid, rfl⟩ := map_ok.mp (mapError_ok.mp h)
    have hne : q.2 ≠ [] := by
      intro he
      rw [he, parseID, E.decode_nil] at hid
      simp [Manifest.idSize] at hid
    rw [parseManifestID, if_neg hne, hid]
    rfl

/-- `none` if it could not be told, else the id that the visible object names. -/
def currentManifestID (l : Loc) : Call (Option (Option Manifest.ID)) := do
  pure (match ← tryAsk (.head l) with
    | .error f => if f.isNotFound then some none else none
    | .ok info => (manifestIDOf G.base64.decode info.metadata).toOption)

/-- What an entry counts as: in use, too young, or deleted. -/
structure Tally where
  kept : GcResult → GcResult
  tooYoung : GcResult → GcResult
  deleted : GcResult → GcResult

section

variable {α : Type} (t : Tally) (inUse : α → Bool) (drop : α → Req)

/-- The loop over the entries of a key; `drop` is the request that deletes one. -/
def collectLoop : List (α × Nat) → GcResult → Call GcResult
  | [], res => pure res
  | (x, modified) :: rest, res =>
    if inUse x then collectLoop rest (t.kept res)
    else do
      match ← fateOf cfg modified with
      | .tooYoung => collectLoop rest (t.tooYoung res)
      | .dryRun => collectLoop rest (t.deleted res)
      | .delete =>
        match ← tryAsk (drop x) with
        | .error _ => collectLoop rest { res with errors := res.errors + 1 }
        | .ok _ => collectLoop rest (t.deleted res)

end

/-- The loop of `collectKey`. -/
def collectEntries (l : Loc) (current : Option Manifest.ID) : List (Manifest.ID × Nat) → GcResult → Call GcResult :=
  collectLoop cfg
    { kept := fun res => { res with keptCurrent := res.keptCurrent + 1 }
      tooYoung := fun res => { res with keptTooYoung := res.keptTooYoung + 1 }
      deleted := fun res => { res with deleted := res.deleted + 1 } }
    (fun id => current = some id) (.deleteManifest l)

def collectKey (l : Loc) (entries : List (Manifest.ID × Nat)) (res : GcResult) : Call GcResult := do
  let resolved ← resolveObjectKey l (entries.map (·.1))
  if !resolved then pure { res with keptUnreadable := res.keptUnreadable + entries.length }
  else if !(cfg.keyPrefix.isPrefixOf l.key) then pure res
  else do
    let res := { res with keysScanned := res.keysScanned + 1 }
    match ← tryAsk (.listUploads l) with
    | .error _ => pure { res with errors := res.errors + 1 }
    | .ok us =>
      if us ≠ [] then pure { res with keysSkipped := res.keysSkipped + 1 }
      else do
        match ← currentManifestID G l with
        | none => pure { res with errors := res.errors + 1 }
        | some current => collectEntries cfg l current entries res

/-! ## Tag sidecars -/

/-- `tags.StoredKeyOf`: the metadata of a sidecar at `l` name the key that `l` belongs to. -/
def storedKeyOf (l : Loc) (md : Metadata) : Bool :=
  match md.find? fun q => GoText.equalFold q.1 keyMetadata with
  | none => false
  | some q => rawURL.decode q.2 = some l.key

def resolveSidecarKey (l : Loc) : List Bytes → Call Bool :=
  resolveKey (.headSidecar l) fun _ md => storedKeyOf l md

/-- The loop of `collectSidecars`. -/
def collectSidecarEntries (l : Loc) (current : Bytes) : List (Bytes × Nat) → GcResult → Call GcResult :=
  collectLoop cfg
    { kept := fun res => { res with sidecarsKeptCurrent := res.sidecarsKeptCurrent + 1 }
      tooYoung := fun res => { res with sidecarsKeptTooYoung := res.sidecarsKeptTooYoung + 1 }
      deleted := fun res => { res with sidecarsDeleted := res.sidecarsDeleted + 1 } }
    (fun dek => current = dek) (.deleteSidecar l)

def collectSidecars (l : Loc) (entries : List (Bytes × Nat)) (res : GcResult) : Call GcResult := do
  let resolved ← resolveSidecarKey l (entries.map (·.1))
  if !resolved then
    pure { res with sidecarsKeptUnreadable := res.sidecarsKeptUnreadable + entries.length }
  else if !(cfg.keyPrefix.isPrefixOf l.key) then pure res
  else do
    match ← tryAsk (.listUploads l) with
    | .error _ => pure { res with errors := res.errors + 1 }
    | .ok us =>
      if us ≠ [] then pure { res with keysSkipped := res.keysSkipped + 1 }
      else do
        match ← tryAsk (.head l) with
        | .error f =>
          if f.isNotFound then collectSidecarEntries cfg l [] entries res
          else pure { res with errors := res.errors + 1 }
        | .ok info => collectSidecarEntries cfg l (storedDEK info.metadata) entries res

/-! ## A pass -/

/-- The entries that a listing shows at `l`. -/
def entriesAt {α : Type} (l : Loc) (es : List (Loc × α × Nat)) : List (α × Nat) :=
  (es.filter fun q => q.1 = l).map (·.2)

def collectKeys (es : List (Loc × Manifest.ID × Nat)) : List Loc → GcResult → Call GcResult
  | [], res => pure res
  | l :: ls, res => do
      let res ← collectKey G cfg l (entriesAt l es) res
      collectKeys es ls res

def collectAllSidecars (es : List (Loc × Bytes × Nat)) : List Loc → GcResult → Call GcResult
  | [], res => pure res
  | l :: ls, res => do
      let res ← collectSidecars cfg l (entriesAt l es) res
      collectAllSidecars es ls res

/-- `gc.Run`. -/
def gcRun : Call GcResult := do
  let manifests ← ask (.listManifests cfg.bucket)
  let sidecars ← ask (.listSidecars cfg.bucket)
  let res ← collectKeys G cfg manifests cfg.order
    { manifestsSeen := manifests.length, sidecarsSeen := sidecars.length }
  collectAllSidecars cfg sidecars cfg.order res

end BlindBucket.Cloud
