import BlindBucket.Cloud.Wraps

/-!
# What a client sees of an object

The metadata that a client set, the headers and the tags. The tags lie in a sidecar that is named
after `bb-dek`, so what is seen changes when a version lands, and when the sidecar of the visible
version is written or deleted. Here one object is acted on by rotations, by copies onto itself that
replace its metadata, and by clients that change its tags. Only copies and changes of tags change what
is seen, as long as nothing comes between what a program has read and what it does about it.
-/

namespace BlindBucket.Cloud

open BlindBucket.Stream ObjectMeta Service Option

/-! ## The view -/

/-- An object: the name that a client uses, and where it is stored. -/
structure Target (G : Site) where
  bucket : Bytes
  key : Bytes
  stored : Bytes
  stores : G.storedKey bucket key = some stored

def Target.loc {G : Site} (T : Target G) : Loc := ⟨T.bucket, T.stored⟩

structure View where
  metadata : Metadata
  headers : Headers
  tags : Except OpErr (List Tag)

variable (G : Site) (bucket key : Bytes)

/-- A request of a program that runs alone, on a provider that does not fail. -/
def Site.answer (s : Bucket) (q : Req) : Answer q × Bucket := s.perform G.toBackend G.base64 {} q

/-- What `GetObjectTagging` answers, as a set: in the order in which sets are encoded. -/
def tagsShown (s : Bucket) : Except OpErr (List Tag) :=
  ((getObjectTagging G bucket key).run.alone G.answer s).1.map sortTags

/-- The data key of a version with this metadata. -/
def dekOf (md : Metadata) : Except OpErr Bytes :=
  match G.parse md with
  | .error e => .error (if isSentinel .notEncrypted e then .notEncrypted else .internal "object metadata")
  | .ok m =>
    match Keys.objectAAD m.keyID bucket key with
    | .error _ => .error (.invalid "associated data")
    | .ok aad =>
      match G.keys.unwrap m.keyID m.wrappedDEK aad with
      | none => .error (.internal "data key")
      | some dek => .ok dek

/-- The tags of a version with this data key and this sidecar. -/
def tagsOf (sidecar : Option Blob) (dek : Bytes) : Except OpErr (List Tag) :=
  match sidecar with
  | none => .ok []
  | some b =>
    match G.tags.openTags dek bucket key b.raw with
    | none => .error (.internal "tag sidecar")
    | some set => .ok (sortTags set)

variable {G bucket key} {stored : Bytes} {s : Bucket}

variable {md : Metadata} {m : Meta} {v : Version} {dek : Bytes}

theorem parseMeta_ok (h : G.parse md = .ok m) : (parseMeta G md).run.alone G.answer s = (.ok m, s) := by
  unfold parseMeta
  rw [h]
  rfl

theorem unwrapDEK_alone {aad : Bytes} (haad : Keys.objectAAD m.keyID bucket key = .ok aad) :
    (unwrapDEK G bucket key m.keyID m.wrappedDEK).run.alone G.answer s
      = (match G.keys.unwrap m.keyID m.wrappedDEK aad with
        | none => .error (.internal "data key")
        | some dek => .ok dek, s) := by
  unfold unwrapDEK
  rw [haad]
  change (need _ (G.keys.unwrap m.keyID m.wrappedDEK aad)).run.alone G.answer s = _
  cases G.keys.unwrap m.keyID m.wrappedDEK aad <;> rfl

theorem findTagTarget_alone (bucket key : Bytes) {l : Loc} (hv : s.visible.lookup l = some v) :
    (findTagTarget G l bucket key).run.alone G.answer s
      = ((dekOf G bucket key v.metadata).map fun dek => (storedDEK v.metadata, dek), s) := by
  have hhead : (ask (.head l)).run.alone G.answer s = (.ok (Bucket.infoOf G.toBackend v), s) := by
    have ha : G.answer s (.head l) = (.ok (Bucket.infoOf G.toBackend v), s) := by
      dsimp only [Site.answer, Bucket.perform]
      rw [hv]
    change (Except.mapError OpErr.upstream (G.answer s (.head l)).1, (G.answer s (.head l)).2) = _
    rw [ha]
    rfl
  refine (Act.alone_bind_ok hhead).trans ?_
  unfold dekOf
  cases hp : G.parse v.metadata with
  | error e =>
    have hmeta : (parseMeta G v.metadata).run.alone G.answer s = (.error
        (if isSentinel .notEncrypted e then .notEncrypted else .internal "object metadata"), s) := by
      unfold parseMeta
      rw [hp]
      dsimp only
      split <;> rfl
    exact Act.alone_bind_error hmeta
  | ok m =>
    refine (Act.alone_bind_ok (parseMeta_ok hp)).trans ?_
    dsimp only
    cases haad : Keys.objectAAD m.keyID bucket key with
    | error e =>
      have hdek : (unwrapDEK G bucket key m.keyID m.wrappedDEK).run.alone G.answer s
          = (.error (.invalid "associated data"), s) := by
        unfold unwrapDEK
        rw [haad]
        rfl
      exact Act.alone_bind_error hdek
    | ok aad =>
      have hdek := unwrapDEK_alone (G := G) (s := s) haad
      dsimp only
      cases hun : G.keys.unwrap m.keyID m.wrappedDEK aad with
      | none =>
        rw [hun] at hdek
        exact Act.alone_bind_error hdek
      | some dek =>
        rw [hun] at hdek
        exact Act.alone_bind_ok hdek

/-- **What `GetObjectTagging` answers depends on the visible version and its sidecar.** -/
theorem tagsShown_eq (hst : G.storedKey bucket key = some stored) (hv : s.visible.lookup ⟨bucket, stored⟩ = some v) :
    tagsShown G bucket key s = (dekOf G bucket key v.metadata).bind
      (tagsOf G bucket key (s.sidecars.lookup (⟨bucket, stored⟩, storedDEK v.metadata))) := by
  have hloc : (storedLoc G bucket key).run.alone G.answer s = (.ok ⟨bucket, stored⟩, s) := by
    unfold storedLoc
    rw [hst]
    rfl
  have htarget := findTagTarget_alone (G := G) bucket key hv
  unfold tagsShown getObjectTagging
  rw [Act.alone_bind_ok hloc]
  cases hd : dekOf G bucket key v.metadata with
  | error e =>
    rw [hd] at htarget
    rw [Act.alone_bind_error htarget]
    rfl
  | ok dek =>
    rw [hd] at htarget
    rw [Act.alone_bind_ok htarget]
    have hget : (tryAsk (.getSidecar ⟨bucket, stored⟩ (storedDEK v.metadata))).run.alone G.answer s
        = (.ok (match s.sidecars.lookup (⟨bucket, stored⟩, storedDEK v.metadata) with
          | none => .error .notFound
          | some b => .ok b.raw), s) := by
      have ha : G.answer s (.getSidecar ⟨bucket, stored⟩ (storedDEK v.metadata))
          = (match s.sidecars.lookup (⟨bucket, stored⟩, storedDEK v.metadata) with
            | none => .error .notFound
            | some b => .ok b.raw, s) := by
        dsimp only [Site.answer, Bucket.perform]
        cases s.sidecars.lookup (⟨bucket, stored⟩, storedDEK v.metadata) <;> rfl
      change (Except.ok (G.answer s (.getSidecar _ _)).1, (G.answer s (.getSidecar _ _)).2) = _
      rw [ha]
    rw [Act.alone_bind_ok hget]
    cases s.sidecars.lookup (⟨bucket, stored⟩, storedDEK v.metadata) with
    | none => rfl
    | some b =>
      dsimp only [Except.bind, tagsOf]
      cases G.tags.openTags dek bucket key b.raw <;> rfl

variable (T : Target G)

def view (s : Bucket) : Option View :=
  (s.visible.lookup T.loc).map fun v =>
    ⟨userMetadataOf v.metadata, v.headers, tagsShown G T.bucket T.key s⟩

/-- What a client sees of a version with this metadata, these headers and this sidecar. -/
def viewOf (md : Metadata) (hd : Headers) (sidecar : Option Blob) : View :=
  ⟨userMetadataOf md, hd, (dekOf G T.bucket T.key md).bind (tagsOf G T.bucket T.key sidecar)⟩

variable {T}

theorem view_eq (s : Bucket) : view T s = (s.visible.lookup T.loc).map fun v =>
      viewOf T v.metadata v.headers (s.sidecars.lookup (T.loc, storedDEK v.metadata)) := by
  unfold view
  cases hv : s.visible.lookup T.loc with
  | none => rfl
  | some v =>
    rw [tagsShown_eq T.stores hv]
    rfl

theorem view_congr {s' : Bucket} (hv : s'.visible.lookup T.loc = s.visible.lookup T.loc) (hs : ∀ v, s.visible.lookup T.loc = some v →
      s'.sidecars.lookup (T.loc, storedDEK v.metadata) = s.sidecars.lookup (T.loc, storedDEK v.metadata)) :
    view T s' = view T s := by
  rw [view_eq, view_eq, hv]
  cases h : s.visible.lookup T.loc with
  | none => rfl
  | some v => rw [map_some, map_some, hs v h]

theorem view_visible (hv : s.visible.lookup T.loc = some v) : view T s = some (viewOf T v.metadata v.headers
      (s.sidecars.lookup (T.loc, storedDEK v.metadata))) := by
  rw [view_eq, hv, map_some]

/-! ## What a copy writes -/

/-- Metadata that the gateway reads back, with this data key. -/
structure Carries (T : Target G) (dek : Bytes) (m : Meta) : Prop where
  version : m.version = Stream.version.toNat
  kid : validateKID m.keyID = .ok ()
  size : m.wrappedDEK.length = wrappedDEKSize
  log2 : ValidLog2 m.log2ChunkSize
  unwraps : ∃ aad, Keys.objectAAD m.keyID T.bucket T.key = .ok aad
    ∧ G.keys.unwrap m.keyID m.wrappedDEK aad = some dek

theorem dekOf_of_parse (hm : G.parse md = .ok m) (h : ∃ aad, Keys.objectAAD m.keyID T.bucket T.key = .ok aad
      ∧ G.keys.unwrap m.keyID m.wrappedDEK aad = some dek) :
    dekOf G T.bucket T.key md = .ok dek := by
  obtain ⟨aad, haad, hun⟩ := h
  unfold dekOf
  rw [hm]
  dsimp only
  rw [haad]
  dsimp only
  rw [hun]

theorem Carries.dekOf (h : Carries T dek m) {client : Metadata} (hc : ∀ e ∈ client, reserved e.1 = false) :
    dekOf G T.bucket T.key (mergeMetadata G.base64 client m) = .ok dek :=
  dekOf_of_parse (parse_merge hc (.refl _) h.version h.kid h.size h.log2 G.log2C) h.unwraps

theorem viewOf_merge (h : Carries T dek m) (md : Metadata) (hd : Headers) {sidecar : Option Blob} {set : List Tag}
    (hs : tagsOf G T.bucket T.key sidecar dek = .ok (sortTags set)) :
    viewOf T (mergeMetadata G.base64 (userMetadataOf md) m) hd sidecar
      = ⟨userMetadataOf md, hd, .ok (sortTags set)⟩ := by
  unfold viewOf
  rw [h.dekOf fun e he => userMetadataOf_not_reserved he, userMetadataOf_merge]
  exact congrArg (View.mk _ _) hs

end BlindBucket.Cloud
