import BlindBucket.Keys.Directory
import BlindBucket.Keys.Keyring
import Mathlib.Data.List.Sort

/-!
# Opening a keyring file

A keyring file holds the default tenant's keys under the deployment's root key. With tenants it is of
version 2 and holds a directory, sealed under that root key too, and a section for each live tenant, sealed
under the tenant's own lock. Opening it fails as a whole if the file breaks a rule; a tenant that does not
open only leaves its reason.

JSON and base64 are a parameter, and so is the public half of an audit key. Times are instants, and a key
without a date has none.
-/

namespace BlindBucket.Keys

open ByteIo GoText ObjectMeta

structure KDFParams where
  algorithm : Bytes
  salt : Bytes
  time : UInt32
  memoryKiB : UInt32
  parallelism : UInt8
deriving DecidableEq

def sourcePassphrase : Bytes := ascii "passphrase"
def sourceVaultTransit : Bytes := ascii "vault-transit"
def sourceAWSKMS : Bytes := ascii "awskms"
def lockDeployment : Bytes := ascii "deployment"

structure RootKeyRef where
  source : Bytes
  ciphertext : Bytes := []
  keyName : Bytes := []
  context : List (Bytes × Bytes) := []
deriving DecidableEq

def maxContextPairs : Nat := 16
def maxContextField : Nat := 256

/-- The loop of `validateContext`. -/
def validateContextFields : List (Bytes × Bytes) → Try Unit
  | [] => .ok ()
  | (k, v) :: rest =>
    if k = [] then .error (errorf "keys: encryption context has an empty key" [])
    else if maxContextField < k.length ∨ maxContextField < v.length then
      .error (errorf "keys: encryption context entry %q exceeds %d bytes" [.bytes k, .int maxContextField])
    else validateContextFields rest

def RootKeyRef.validateContext (r : RootKeyRef) : Try Unit :=
  if maxContextPairs < r.context.length then
    .error (errorf "keys: encryption context has %d entries, at most %d are allowed"
      [.int r.context.length, .int maxContextPairs])
  else validateContextFields r.context

def RootKeyRef.validate (r : RootKeyRef) : Try Unit :=
  if r.source = sourcePassphrase ∨ r.source = [] then .ok ()
  else if r.source = sourceVaultTransit ∨ r.source = sourceAWSKMS then
    if r.ciphertext = [] then
      .error (errorf "keys: a %s keyring carries no encrypted root key" [.bytes r.source])
    else r.validateContext
  else .error (errorf "keys: unsupported root-key source %q" [.bytes r.source])

structure KeyEntry where
  kid : Bytes
  created : Option Int
  wrapped : Bytes
deriving DecidableEq

structure AuditEntry where
  wrapped : Bytes
  publicKey : Bytes
deriving DecidableEq

/-- `keyringFile`. The entries of the name key and of the freshness key hold only the wrapped secret. -/
structure KeyringFile where
  version : Int
  activeKID : Bytes
  rootKey : RootKeyRef
  kdf : Option KDFParams
  keys : List KeyEntry
  audit : Option AuditEntry
  name : Option Bytes
  freshness : Option Bytes
deriving DecidableEq

structure TenantSection where
  name : Bytes := []
  rootKey : Option RootKeyRef := none
  kdf : Option KDFParams := none
  keys : List KeyEntry := []
  nameKey : Option Bytes := none
deriving DecidableEq

/-- What a file of version 2 adds. -/
structure FileV2 where
  generation : Nat
  directory : Bytes
  tenants : List TenantSection
deriving DecidableEq

/-- What a file of version 1 is searched for: a generation, a directory, and whether it has tenants. -/
structure Probe where
  generation : Nat
  directory : Bytes
  tenants : Bool
deriving DecidableEq

/-- JSON as the file uses it, base64, and the public key of an audit secret. -/
structure FileCodec where
  encode64 : Bytes → Bytes
  decode64 : Bytes → Try Bytes
  marshalFile : KeyringFile → Try Bytes
  marshalV2 : KeyringFile → FileV2 → Try Bytes
  unmarshalFile : Bytes → Try KeyringFile
  unmarshalProbe : Bytes → Try Probe
  unmarshalV2 : Bytes → Try FileV2
  marshalDirectory : Directory → Try Bytes
  unmarshalDirectory : Bytes → Try Directory
  auditPublic : Secret → Bytes

def keyringVersion : Int := 1
def keyringVersion2 : Int := 2

variable (A : Aead wrapTagSize) (J : FileCodec)

def parseKeyringFile (data : Bytes) : Try KeyringFile := do
  let file ← (J.unmarshalFile data).mapError (aroundErr "keys: keyring is not valid JSON: %w" [])
  if file.version ≠ keyringVersion ∧ file.version ≠ keyringVersion2 then
    .error (errorf "keys: keyring version %d, this build supports %d and %d"
      [.int file.version, .int keyringVersion, .int keyringVersion2])
  else if file.keys = [] then
    .error (errorf "keys: keyring contains no keys" [])
  else if file.version = keyringVersion then
    match J.unmarshalProbe data with
    | .error _ => .ok file
    | .ok v2 =>
      if v2.generation ≠ 0 ∨ v2.directory ≠ [] ∨ v2.tenants = true then
        .error (wrapf .keyringMalformed ("%w: it says version 1 and holds a directory, tenants or a " ++
          "generation, which only version 2 has; its version was changed") [])
      else .ok file
  else .ok file

/-! ## The default tenant -/

/-- A secret that was unwrapped, if it has the length of one: `AuditKeyFromSecret`, `NameKeyFromSecret` and
`FreshnessKeyFromSecret`, each with its own text. -/
def secretOf (format : String) (s : Bytes) : Try Secret :=
  if h : s.length = keySize then .ok ⟨s, h⟩ else .error (errorf format [.int s.length, .int keySize])

/-- Reads a wrapped secret, as `openName` and `openFreshness` do. -/
def openSecret (notBase64 wrongSize : String) (rootKey aad hint : Bytes)
    (entry : Bytes) : Try Secret := do
  let wrapped ← (J.decode64 entry).mapError (aroundErr notBase64 [])
  let secret ← (openKey A rootKey wrapped aad).mapError (aroundErr "%w (%s)" [.bytes hint])
  secretOf wrongSize secret

def openName (rootKey hint entry : Bytes) : Try Secret :=
  openSecret A J "keys: the name key is not valid base64: %w" "keys: name key is %d bytes, want %d"
    rootKey nameAAD hint entry

def openFreshness (rootKey hint entry : Bytes) : Try Secret :=
  openSecret A J "keys: the freshness key is not valid base64: %w" "keys: freshness key is %d bytes, want %d"
    rootKey freshnessAAD hint entry

/-- `openAudit`, which also checks the recorded public key. -/
def openAudit (rootKey hint : Bytes) (entry : AuditEntry) :
    Try Secret := do
  let audit ← openSecret A J "keys: the audit key is not valid base64: %w"
    "keys: audit secret is %d bytes, want %d" rootKey auditAAD hint entry.wrapped
  let recorded ← (J.decode64 entry.publicKey).mapError
    (aroundErr "keys: the audit public key is not valid base64: %w" [])
  if J.auditPublic audit ≠ recorded then
    .error (errorf ("keys: the audit public key in this keyring does not belong to its audit secret; " ++
      "the file has been modified") [])
  else .ok audit

/-- The loop of `openKeyring` over the keys. -/
def openKeys (A : Aead wrapTagSize) (J : FileCodec) (rootKey hint : Bytes) :
    Keyring → List KeyEntry → Try Keyring
  | ring, [] => .ok ring
  | ring, entry :: rest => do
      let aad ← kekAAD entry.kid
      let wrapped ← (J.decode64 entry.wrapped).mapError
        (aroundErr "keys: key %q is not valid base64: %w" [.bytes entry.kid])
      let kek ← (openKey A rootKey wrapped aad).mapError (aroundErr "%w (%s)" [.bytes hint])
      let ring ← ring.add entry.kid kek entry.created
      openKeys A J rootKey hint ring rest

/-- An optional entry of the file. -/
def openOptional {α : Type} (f : α → Try Secret) : Option α → Try (Option Secret)
  | none => .ok none
  | some entry => (f entry).map some

def openKeyring (file : KeyringFile) (rootKey hint : Bytes) :
    Try Keyring := do
  let ring ← openKeys A J rootKey hint newKeyring file.keys
  let ring ← (ring.setActive file.activeKID).mapError fun _ =>
    errorf "keys: active key id %q is not in the keyring" [.bytes file.activeKID]
  let audit ← openOptional (openAudit A J rootKey hint) file.audit
  let name ← openOptional (openName A J rootKey hint) file.name
  let freshness ← openOptional (openFreshness A J rootKey hint) file.freshness
  .ok { ring with audit := audit, name := name, freshness := freshness }

/-! ## Tenants -/

/-- How a section is sealed, by what it records; empty if it records something else. -/
def TenantSection.source (s : TenantSection) : Bytes :=
  match s.kdf, s.rootKey with
  | some _, none => sourcePassphrase
  | some _, some r => if r.source = sourcePassphrase then sourcePassphrase else []
  | none, none => lockDeployment
  | none, some r => if r.source = sourcePassphrase then [] else r.source

def TenantSection.matchesLock (s : TenantSection) (l : Lock) : Bool :=
  if s.source = [] ∨ s.source ≠ l.source then false
  else if s.source = sourcePassphrase then
    match s.kdf with
    | some k => k.salt == l.salt
    | none => false
  else if s.source = lockDeployment then true
  else
    match s.rootKey with
    | some r => r.keyName == l.keyName
    | none => false

/-- The fields are set together or not at all, by `DeploymentLock`, `ServiceLock` and `PassphraseLock`. -/
inductive TenantLock where
  | deployment
  /-- A root key of a key service. -/
  | service (rootKey : Secret) (ref : RootKeyRef)
      (backed : ref.source ≠ sourcePassphrase ∧ ref.source ≠ [] ∧ ref.validate = .ok ())
  /-- A root key stretched from a passphrase. -/
  | passphrase (rootKey : Secret) (kdf : KDFParams)

def TenantLock.record : TenantLock → Lock
  | .deployment => { source := lockDeployment }
  | .service _ ref _ => { source := ref.source, keyName := ref.keyName }
  | .passphrase _ kdf => { source := sourcePassphrase, salt := kdf.salt }

/-- `Tenant`. A tenant that did not open has no ring, and its reason instead. -/
structure Tenant where
  name : Bytes
  buckets : List Bytes
  activeKID : Bytes
  kids : List Bytes
  locks : List Lock
  ring : Try Keyring
  /-- As read. -/
  tenantSection : TenantSection
  /-- Set when the section is to be sealed under a new lock. -/
  sealWith : Option TenantLock

/-- `Tenant.Lock`; a tenant has one. -/
def Tenant.lock (t : Tenant) : Lock := t.locks.getLastD { source := [] }

structure File where
  default : Keyring
  generation : Nat
  tenants : List Tenant
  tombstones : List Tombstone

/-- `TenantRootFunc`, or nil. -/
abbrev TenantRoot := Option (Bytes → RootKeyRef → Option KDFParams → Try Bytes)

/-- The loop of `openSection` over the keys. -/
def openSectionKeys (A : Aead wrapTagSize) (J : FileCodec) (tenant rootKey : Bytes) :
    Keyring → List KeyEntry → Try Keyring
  | ring, [] => .ok ring
  | ring, e :: rest => do
      let aad ← tenantKEKAAD tenant e.kid
      let wrapped ← (J.decode64 e.wrapped).mapError fun _ =>
        errorf "keys: tenant %q: key %q is not valid base64" [.bytes tenant, .bytes e.kid]
      let kek ← (openKey A rootKey wrapped aad).mapError (aroundErr "keys: tenant %q: %w" [.bytes tenant])
      let ring ← ring.add e.kid kek e.created
      openSectionKeys A J tenant rootKey ring rest

def openSection (s : TenantSection) (active rootKey : Bytes) :
    Try Keyring := do
  if rootKey.length ≠ keySize then
    .error (errorf "keys: tenant %q: root key is %d bytes, want %d"
      [.bytes s.name, .int rootKey.length, .int keySize])
  else
    let ring ← openSectionKeys A J s.name rootKey newKeyring s.keys
    let aad ← tenantNameAAD s.name
    -- a section without a name key is refused before it is opened
    let wrapped ← (J.decode64 (s.nameKey.getD [])).mapError fun _ =>
      errorf "keys: tenant %q: the name key is not valid base64" [.bytes s.name]
    let secret ← (openKey A rootKey wrapped aad).mapError
      (aroundErr "keys: tenant %q: the name key: %w" [.bytes s.name])
    let name ← secretOf "keys: name key is %d bytes, want %d" secret
    .ok { ring with active := active, name := some name }

/-- What a tenant's root key is asked for with: the reference of its section, or that it is a passphrase. -/
def sectionRef (tenant : Bytes) (s : TenantSection) : Try RootKeyRef :=
  match s.rootKey with
  | none => .ok { source := sourcePassphrase }
  | some r => (r.validate.mapError (aroundErr "keys: tenant %q: %w" [.bytes tenant])).map fun _ => r

def openTenant (rootKey : Bytes) (tenantRoot : TenantRoot)
    (t : DirectoryTenant) (s : TenantSection) : Try Keyring :=
  if (t.locks.getLastD { source := [] }).source = lockDeployment then openSection A J s t.activeKID rootKey
  else
    match tenantRoot with
    | none => .error (errorf "keys: tenant %q: no root key for its lock" [.bytes t.name])
    | some root => do
        let ref ← sectionRef t.name s
        let key ← root t.name ref s.kdf
        openSection A J s t.activeKID key

/-! ## The file -/

/-- The section of a tenant; the zero value if there is none. -/
def sectionOf (sections : List TenantSection) (name : Bytes) : TenantSection :=
  (sections.find? fun s => s.name = name).getD {}

def checkSections : List Bytes → List TenantSection → Try Unit
  | _, [] => .ok ()
  | seen, s :: rest =>
    if s.name ∈ seen then
      .error (wrapf .keyringMalformed "%w: two sections for tenant %q" [.bytes s.name])
    else checkSections (s.name :: seen) rest

/-- `%v` of a list of strings. -/
def showStrings (l : List Bytes) : Bytes := ascii "[" ++ join 0x20 l ++ ascii "]"

/-- `slices.Sort`. -/
def sortStrings (l : List Bytes) : List Bytes := l.insertionSort (· ≤ ·)

/-- What the directory says of a tenant against its section. -/
def checkTenant (sections : List TenantSection) (t : DirectoryTenant) : Try Unit :=
  match sections.find? fun s => s.name = t.name with
  | none => .error (wrapf .keyringMalformed "%w: no section for tenant %q" [.bytes t.name])
  | some s =>
    let held := sortStrings (s.keys.map KeyEntry.kid)
    let want := sortStrings t.kids
    if held ≠ want then
      .error (wrapf .keyringMalformed "%w: tenant %q's section holds keys %v, the directory lists %v"
        [.bytes t.name, .bytes (showStrings held), .bytes (showStrings want)])
    else if s.nameKey = none then
      .error (wrapf .keyringMalformed "%w: tenant %q's section has no name key" [.bytes t.name])
    else if s.matchesLock (t.locks.getLastD { source := [] }) = false then
      .error (wrapf .keyringMalformed "%w: tenant %q's section is not sealed by its recorded lock"
        [.bytes t.name])
    else .ok ()

/-- The loop over the directory's tenants. -/
def checkTenants (sections : List TenantSection) : List DirectoryTenant → Try Unit
  | [] => .ok ()
  | t :: rest => do
      checkTenant sections t
      checkTenants sections rest

def readTenant (rootKey : Bytes) (tenantRoot : TenantRoot)
    (sections : List TenantSection) (d : DirectoryTenant) : Tenant where
  name := d.name
  buckets := d.buckets
  activeKID := d.activeKID
  kids := d.kids
  locks := d.locks
  ring := openTenant A J rootKey tenantRoot d (sectionOf sections d.name)
  tenantSection := sectionOf sections d.name
  sealWith := none

/-- The directory of a file of version 2. -/
def openDirectory (file : FileV2) (rootKey : Bytes)
    (defaultKIDs : List Bytes) : Try Directory := do
  if file.directory = [] then .error (wrapf .keyringMalformed "%w: no directory" [])
  else
    let wrapped ← (J.decode64 file.directory).mapError fun _ =>
      wrapf .keyringMalformed "%w: the directory is not valid base64" []
    let plain ← (openKey A rootKey wrapped aadDirectory).mapError
      (wrapErr .keyringMalformed "%w: the directory does not open: %w" [])
    let dir ← (J.unmarshalDirectory plain).mapError
      (wrapErr .keyringMalformed "%w: the directory is not valid JSON: %w" [])
    if dir.generation ≠ file.generation then
      .error (wrapf .keyringMalformed "%w: generation %d in the directory, %d in the file"
        [.int dir.generation, .int file.generation])
    else
      dir.validate defaultKIDs
      .ok dir

def openFile (data : Bytes) (base : KeyringFile)
    (rootKey : Bytes) (tenantRoot : TenantRoot) (hint : Bytes) : Try File := do
  let ring ← openKeyring A J base rootKey hint
  if base.version = keyringVersion then .ok ⟨ring, 0, [], []⟩
  else
    let file ← (J.unmarshalV2 data).mapError (aroundErr "keys: keyring is not valid JSON: %w" [])
    let dir ← openDirectory A J file rootKey ring.kids
    checkSections [] file.tenants
    if file.tenants.length ≠ dir.tenants.length then
      .error (wrapf .keyringMalformed "%w: %d tenants in the directory, %d sections"
        [.int dir.tenants.length, .int file.tenants.length])
    else
      checkTenants file.tenants dir.tenants
      .ok ⟨ring, dir.generation, dir.tenants.map (readTenant A J rootKey tenantRoot file.tenants), dir.tombstones⟩

/-- `OpenFile`. -/
def openKeyringFile (data rootKey : Bytes)
    (tenantRoot : TenantRoot) : Try File := do
  if rootKey.length ≠ keySize then
    .error (errorf "keys: root key is %d bytes, want %d" [.int rootKey.length, .int keySize])
  else
    let file ← parseKeyringFile J data
    openFile A J data file rootKey tenantRoot (ascii "the root key does not open this keyring")

def Tenant.entry (t : Tenant) : DirectoryTenant := ⟨t.name, t.buckets, t.kids, t.activeKID, t.locks⟩

def File.directory (f : File) : Directory := ⟨f.generation, f.tenants.map Tenant.entry, f.tombstones⟩

end BlindBucket.Keys
