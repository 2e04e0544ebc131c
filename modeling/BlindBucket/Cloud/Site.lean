import BlindBucket.Cloud.Provider
import BlindBucket.Lib.Service
import BlindBucket.Tags
import BlindBucket.Verify.Object

/-!
# A deployment

What the gateways and the commands of one deployment share: the configuration, the keys, the name
encryption and the sealing of tags. All of them are stateless; the only state is the provider's.
-/

namespace BlindBucket.Cloud

open BlindBucket.Stream ObjectMeta Service

abbrev Tag := Tags.Tag

/-- A tag set in the order in which it is encoded. -/
abbrev sortTags := Tags.sorted

/-- The sealing of tag sets: `tags.Seal` and `tags.Open`. -/
structure TagBox where
  sealTags : (dek bucket key : Bytes) → List Tag → Option Bytes
  openTags : (dek bucket key raw : Bytes) → Option (List Tag)
  open_seal : ∀ dek bucket key set raw, sealTags dek bucket key set = some raw →
    openTags dek bucket key raw = some (sortTags set)

/-- What package `tags` seals with a nonce. -/
def TagBox.sealed {A : Aead 16} (hA : A.Correct) (H : Keys.Hkdf) {nonce : Bytes}
    (hnonce : nonce.length = Tags.nonceSize) : TagBox where
  sealTags dek bucket key set := (Tags.sealWithNonce A H nonce dek bucket key set).toOption
  openTags dek bucket key raw := (Tags.openSealed A H dek bucket key raw).toOption
  open_seal _ _ _ _ _ h := toOption_some.mpr (Tags.openSealed_seal hA hnonce (toOption_some.mp h))

/-- The keys of a keyring, which wraps data keys with nonces of the right size. -/
def KeyProvider.ring {A : Aead Keys.wrapTagSize} (hA : A.Correct) (r : Keys.Keyring) : KeyProvider where
  wrap kid dek aad nonce :=
    if nonce.length = Keys.wrapNonceSize ∧ dek.length = Keys.keySize then (r.wrap A nonce kid dek aad).toOption
    else none
  unwrap kid wrapped aad := (r.unwrap A kid wrapped aad).toOption
  unwrap_wrap _ _ _ _ _ h := by
    obtain ⟨hlen, h⟩ := Option.ite_none_right_eq_some.mp h
    obtain ⟨kek, hkek, h⟩ := bind_ok (toOption_some.mp h)
    rw [Keys.Keyring.unwrap, hkek, ok_bind, Keys.openKey_sealKey hA hlen.1 h]
    rfl

/-- A deployment. -/
structure Site extends Backend where
  crypto : Crypto
  hmac : Hmac
  base64 : Base64
  log2C : Nat
  tags : TagBox
  /-- The key that a client's key is stored under, if it has one. -/
  storedKey : (bucket key : Bytes) → Option Bytes
  /-- The key id that new objects of a bucket are wrapped under. -/
  activeKID : (bucket : Bytes) → Option Bytes

inductive OpErr where
  /-- An error of the provider, wrapped or not. -/
  | upstream (f : Fault)
  /-- `objcopy.ErrPreconditionFailed`. -/
  | preconditionFailed
  /-- `objcopy.ErrUploadInProgress`. -/
  | uploadInProgress
  /-- `objcopy.ErrTagSidecar`. -/
  | tagSidecar
  | notEncrypted
  | sourceChanged
  | invalid (what : String)
  | internal (what : String)
deriving DecidableEq

abbrev Call (α : Type) := Act Req Answer OpErr α

/-- A request, and whatever it answers. -/
def tryAsk (q : Req) : Call (Answer q) := ExceptT.lift (Prog.call q)

/-- A request that has to succeed. -/
def ask (q : Req) : Call q.Result :=
  ExceptT.mk (Prog.call q >>= fun a => .done (a.mapError .upstream))

/-- A request whose failure is only logged. -/
def bestEffort (q : Req) : Call Unit := do
  let _ ← tryAsk q
  pure ()

/-- A value that has to be there. -/
def need {α : Type} (e : OpErr) : Option α → Call α
  | some a => pure a
  | none => throw e

/-- A computation that has to succeed. -/
def needOk {α ε : Type} (e : OpErr) : Except ε α → Call α
  | .ok a => pure a
  | .error _ => throw e

/-- A check that has to hold. -/
def require (e : OpErr) (b : Bool) : Call Unit := if b then pure () else throw e

variable (G : Site)

/-- `objectmeta.Parse` with the chunk size of the deployment. -/
def Site.parse (md : Metadata) : Try Meta := ObjectMeta.parse G.base64.decode md G.log2C

/-- `parseObjectMeta`, as a step of a request. -/
def parseMeta (md : Metadata) : Call Meta :=
  match G.parse md with
  | .ok m => pure m
  | .error e => if isSentinel .notEncrypted e then throw .notEncrypted else throw (.internal "object metadata")

def unwrapDEK (bucket key kid wrapped : Bytes) : Call Bytes := do
  let aad ← needOk (.invalid "associated data") (Keys.objectAAD kid bucket key)
  need (.internal "data key") (G.keys.unwrap kid wrapped aad)

/-- `Keys.Wrap` for an object of this bucket and key. -/
def wrapDEK (bucket key kid dek : Bytes) : Call Bytes := do
  let aad ← needOk (.invalid "associated data") (Keys.objectAAD kid bucket key)
  ask (.wrap kid dek aad)

/-- A client may not set what the gateway sets. -/
def clientMetadata (md : Metadata) : Call Metadata := do
  require (.invalid "metadata key uses the reserved prefix") (md.all fun e => !reserved e.1)
  pure md

/-- The place where a client's object is stored. -/
def Site.Stores (bucket key : Bytes) (l : Loc) : Prop :=
  G.storedKey bucket key = some l.key ∧ l.bucket = bucket

theorem Site.Stores.eq {G : Site} {bucket key : Bytes} {l l' : Loc} (h : G.Stores bucket key l)
    (h' : G.Stores bucket key l') : l = ⟨bucket, l'.key⟩ := by
  have hk := Option.some.inj (h.1.symm.trans h'.1)
  exact congrArg₂ Loc.mk h.2 hk

/-- `storedKey`, with the bucket. -/
def storedLoc (bucket key : Bytes) : Call Loc := do
  let stored ← need (.invalid "key") (G.storedKey bucket key)
  pure ⟨bucket, stored⟩

/-- The metadata of a new object of the deployment. -/
def newMeta (kid wrapped : Bytes) (id : Option Manifest.ID) : Meta :=
  ⟨Stream.version.toNat, kid, wrapped, G.log2C, false, id⟩

/-- `tags.Seal` and the `PUT` of the sidecar that is named after `dekName`. -/
def putTags (l : Loc) (bucket key dekName dek : Bytes) (set : List Tag) : Call Unit := do
  let sealedSet ← need (.internal "sealing the tag set") (G.tags.sealTags dek bucket key set)
  ask (.putSidecar l dekName sealedSet)

def writeTagsBeforeObject (l : Loc) (bucket key : Bytes) (m : Meta) (dek : Bytes)
    (set : List Tag) : Call Unit :=
  if set = [] then pure () else putTags G l bucket key (G.base64.encode m.wrappedDEK) dek set

/-- The wire form of a segment with a salt of its own. -/
def sealSegment (dek : Bytes) (p : SegmentParams) (plain : Bytes) : Call (Salt × Bytes) := do
  let salt ← ask .newSalt
  let header ← needOk (.internal "segment") (newHeaderWithSalt p salt)
  pure (salt, segmentBytes G.crypto dek header plain)

end BlindBucket.Cloud
