import BlindBucket.Keys.File

/-!
# Changing the tenants of a keyring

The operations a command makes on an opened file: a tenant is opened, is added, gets buckets, is activated,
moves to another lock, is destroyed. Each but the first checks everything before it changes anything, so one
that is refused leaves the file as it was.
-/

namespace BlindBucket.Keys

open ByteIo GoText ObjectMeta

namespace File

variable (f : File)

def tenant (name : Bytes) : Option Tenant := f.tenants.find? fun t => t.name = name

/-- `KIDOwner`. For the default tenant it asks for a key's date, which a key may lack. -/
def kidOwner (kid : Bytes) : Option Bytes :=
  if (f.default.createdAt kid).isSome = true then some defaultTenant
  else
    match f.tenants.find? fun t => decide (kid ∈ t.kids) with
    | some t => some t.name
    | none => (f.tombstones.find? fun t => decide (kid ∈ t.kids)).map Tombstone.name

/-- The entries that are taken, with whose they are. -/
def taken : List (Bytes × Bytes) :=
  (f.tenants.flatMap fun t => t.buckets.map fun e => (e, t.name)) ++
    f.tombstones.flatMap fun t => t.buckets.map fun e => (e, t.name ++ ascii " (destroyed)")

/-- The loop of `checkEntries`. -/
def checkEntriesFrom (taken : List (Bytes × Bytes)) :
    List Bytes → List Bytes → Try Unit
  | _, [] => .ok ()
  | before, e :: rest =>
    if validBucketEntry e = false then
      .error (errorf ("keys: %q is neither a bucket name (3 to 63 of a-z 0-9 . -) " ++
        "nor a prefix of one ending in *") [.bytes e])
    else
      match taken.find? fun o => overlap o.1 e with
      | some o =>
        .error (errorf ("keys: %q overlaps %q, which is tenant %s's; " ++
          "a bucket belongs to one tenant and never leaves it") [.bytes e, .bytes o.1, .bytes o.2])
      | none =>
        match before.find? fun p => overlap p e with
        | some p => .error (errorf "keys: %q and %q overlap" [.bytes p, .bytes e])
        | none => checkEntriesFrom taken (before ++ [e]) rest

def checkEntries (entries : List Bytes) : Try Unit :=
  checkEntriesFrom f.taken [] entries

/-- The loop over the key ids of a new tenant. -/
def checkKIDs (f : File) : List Bytes → Try Unit
  | [] => .ok ()
  | kid :: rest =>
    match f.kidOwner kid with
    | some owner =>
      .error (errorf "keys: key id %q is %s's; key ids are unique across the keyring"
        [.bytes kid, .bytes owner])
    | none => f.checkKIDs rest

/-- What `AddTenant` checks. -/
def checkAdd (name : Bytes) (buckets : List Bytes) (ring : Keyring) : Try Unit := do
  validateTenantName name
  if (f.tenant name).isSome = true then .error (errorf "keys: tenant %q exists" [.bytes name])
  else if name ∈ f.tombstones.map Tombstone.name then
    .error (errorf "keys: %q is the name of a destroyed tenant, and stays its" [.bytes name])
  else if ring.name = none then .error (errorf "keys: tenant %q has no name key" [.bytes name])
  else if ring.kids = [] then .error (errorf "keys: tenant %q has no keys" [.bytes name])
  else
    f.checkKIDs ring.kids
    f.checkEntries buckets

end File

/-- The lock a section is to be sealed under, if it has a root key of its own. -/
def TenantLock.sealWith : TenantLock → Option TenantLock
  | .deployment => none
  | lock => some lock

/-- The tenant `AddTenant` makes. -/
def newTenant (name : Bytes) (buckets : List Bytes) (ring : Keyring) (lock : TenantLock) : Tenant where
  name := name
  buckets := buckets
  activeKID := []
  kids := ring.kids
  locks := [lock.record]
  ring := .ok { ring with active := [] }
  tenantSection := {}
  sealWith := lock.sealWith

namespace File

def addTenant (f : File) (name : Bytes) (buckets : List Bytes) (ring : Keyring)
    (lock : TenantLock) : Try File := do
  f.checkAdd name buckets ring
  .ok { f with tenants := f.tenants ++ [newTenant name buckets ring lock] }

/-- `live`. The date of the destruction is handed on as the instant it is rendered from. -/
def live (f : File) (name : Bytes) : Try Tenant :=
  if name = defaultTenant then
    .error (errorf
      "keys: the default tenant holds every bucket no tenant claims; it is not changed this way" [])
  else
    match f.tenant name with
    | some t => .ok t
    | none =>
      match f.tombstones.find? fun t => t.name = name with
      | some t => .error (errorf "keys: tenant %q was destroyed on %s" [.bytes name, .int t.destroyed])
      | none => .error (errorf "keys: no tenant %q" [.bytes name])

end File

/-- A change to the tenant of that name, which is a pointer in the source. -/
def modifyTenant (name : Bytes) (g : Tenant → Tenant) : List Tenant → List Tenant
  | [] => []
  | t :: rest => if t.name = name then g t :: rest else t :: modifyTenant name g rest

namespace File

variable (f : File) (name : Bytes)

/-- A change to one tenant of the file. -/
def modify (g : Tenant → Tenant) : File :=
  { f with tenants := modifyTenant name g f.tenants }

/-- What `Assign` checks. -/
def checkAssign (entries : List Bytes) : Try Unit := do
  let _ ← f.live name
  if entries = [] then .error (errorf "keys: no buckets to assign" [])
  else f.checkEntries entries

def assign (entries : List Bytes) : Try File := do
  f.checkAssign name entries
  .ok (f.modify name fun t => { t with buckets := t.buckets ++ entries })

/-- The key `Activate` means. -/
def keyToActivate (t : Tenant) (kid : Bytes) : Try Bytes :=
  if kid = [] then
    match t.kids with
    | [only] => .ok only
    | _ => .error (errorf "keys: tenant %q has %d keys; say which to activate" [.bytes t.name, .int t.kids.length])
  else .ok kid

/-- What `Activate` checks, and the key it makes active. -/
def checkActivate (name kid : Bytes) : Try Bytes := do
  let t ← f.live name
  match t.ring with
  | .error err => .error (aroundErr
      "keys: tenant %q did not open here (%w), and is activated only where it does" [.bytes name] err)
  | .ok _ =>
    let kid ← keyToActivate t kid
    if kid ∉ t.kids then .error (errorf "keys: tenant %q has no key %q" [.bytes name, .bytes kid])
    else if t.activeKID = kid then
      .error (errorf "keys: tenant %q is already active with %q; nothing would change"
        [.bytes name, .bytes kid])
    else .ok kid

def activate (name kid : Bytes) : Try File := do
  let kid ← f.checkActivate name kid
  .ok (f.modify name fun t => { t with activeKID := kid, ring := t.ring.map fun r => { r with active := kid } })

/-- What `Reseal` checks. -/
def checkReseal (lock : TenantLock) : Try Unit := do
  let t ← f.live name
  match t.ring with
  | .error err => .error (aroundErr "keys: tenant %q did not open (%w); a reseal needs its current lock"
      [.bytes name] err)
  | .ok _ =>
    if lock.record = t.lock then
      .error (errorf "keys: tenant %q is already sealed by that lock; nothing would change" [.bytes name])
    else .ok ()

def reseal (lock : TenantLock) : Try File := do
  f.checkReseal name lock
  .ok (f.modify name fun t => { t with locks := t.locks ++ [lock.record], sealWith := lock.sealWith })

/-- `Truncate(time.Second)` of an instant in nanoseconds. -/
def truncateSecond (time : Int) : Int := time - time % 1000000000

def tombstoneOf (t : Tenant) (time : Int) : Tombstone :=
  ⟨t.name, t.buckets, t.kids, t.locks, truncateSecond time⟩

def destroy (time : Int) : Try File := do
  let t ← f.live name
  .ok { f with
    tenants := f.tenants.eraseP fun x => x.name = name
    tombstones := f.tombstones ++ [tombstoneOf t time] }

end File

/-- `OpenTenant`: why the tenant is not open, and the file, which keeps the reason. -/
def File.openTenant (A : Aead wrapTagSize) (J : FileCodec) (f : File) (name : Bytes) (tenantRoot : TenantRoot) :
    Option Error × File :=
  match f.tenant name with
  | none => (some (errorf "keys: no tenant %q" [.bytes name]), f)
  | some t =>
    match t.ring with
    | .ok _ => (none, f)
    | .error err =>
      if t.lock.source = lockDeployment then (some err, f)
      else
        let ring := Keys.openTenant A J [] tenantRoot t.entry t.tenantSection
        (match ring with | .ok _ => none | .error err => some err, f.modify name fun t => { t with ring := ring })

/-- An operation on the tenants of a file. -/
inductive Op where
  | openTenant (A : Aead wrapTagSize) (J : FileCodec) (name : Bytes) (tenantRoot : TenantRoot)
  | addTenant (name : Bytes) (buckets : List Bytes) (ring : Keyring) (lock : TenantLock)
  | assign (name : Bytes) (entries : List Bytes)
  | activate (name kid : Bytes)
  | reseal (name : Bytes) (lock : TenantLock)
  | destroy (name : Bytes) (time : Int)

def File.apply (f : File) : Op → Try File
  | .openTenant A J name tenantRoot => .ok (f.openTenant A J name tenantRoot).2
  | .addTenant name buckets ring lock => f.addTenant name buckets ring lock
  | .assign name entries => f.assign name entries
  | .activate name kid => f.activate name kid
  | .reseal name lock => f.reseal name lock
  | .destroy name time => f.destroy name time

/-- The file after the operation, accepted or refused. -/
def File.after (f : File) (op : Op) : File :=
  match f.apply op with
  | .ok f' => f'
  | .error _ => f

def File.run (f : File) (ops : List Op) : File := ops.foldl File.after f

end BlindBucket.Keys
