import BlindBucket.Cloud.Jobs

/-!
# Which requests a program makes

The programs that other programs are made of, and the requests that they make whatever they are
answered: most of them only read, draw at random and wrap keys.
-/

namespace BlindBucket.Cloud

open BlindBucket.Stream ObjectMeta Service

variable {C : Req → Prop}

/-! ## Single requests -/

variable {q : Req} {α : Type}

theorem tryAsk_asks (h : C q) : (tryAsk q).Asks C := ⟨h, fun _ => trivial⟩

theorem ask_asks (h : C q) : (ask q).Asks C := ⟨h, fun _ => trivial⟩

theorem bestEffort_asks (h : C q) : (bestEffort q).Asks C :=
  .bind (tryAsk_asks h) fun _ => .pure ()

theorem need_asks {e : OpErr} {x : Option α} : (need e x).Asks C := by
  cases x <;> trivial

theorem needOk_asks {ε : Type} {e : OpErr} {x : Except ε α} : (needOk e x).Asks C := by
  cases x <;> trivial

theorem require_asks {e : OpErr} {b : Bool} : (require e b).Asks C := by
  cases b <;> trivial

theorem parseMeta_asks (G : Site) (md : Metadata) : (parseMeta G md).Asks C := by
  unfold parseMeta
  split
  · trivial
  · split <;> trivial

theorem storedLoc_asks {G : Site} {bucket key : Bytes} : (storedLoc G bucket key).Asks C :=
  .bind need_asks fun _ => .pure _

theorem storedLoc_bind_asks (G : Site) (bucket key : Bytes) {f : Loc → Call α}
    (hf : ∀ l, G.Stores bucket key l → (f l).Asks C) : (storedLoc G bucket key >>= f).Asks C := by
  unfold storedLoc
  cases hk : G.storedKey bucket key with
  | none => exact trivial
  | some stored => exact hf ⟨bucket, stored⟩ ⟨hk, rfl⟩

theorem clientMetadata_asks (md : Metadata) : (clientMetadata md).Asks C :=
  .bind require_asks fun _ => .pure _

/-! ## Programs that read -/

/-- A request that reads, or draws at random, or wraps a key. -/
def Req.quiet : Req → Bool
  | .newID | .newDEK | .newSalt | .wrap .. => true
  | q => q.reads

/-- All such requests are in `C`. -/
def Quiet (C : Req → Prop) : Prop := ∀ q : Req, q.quiet = true → C q

section

variable (G : Site) (hq : Quiet C)

theorem unwrapDEK_asks (bucket key kid wrapped : Bytes) : (unwrapDEK G bucket key kid wrapped).Asks C :=
  .bind needOk_asks fun _ => need_asks

include hq

theorem wrapDEK_asks (bucket key kid dek : Bytes) : (wrapDEK bucket key kid dek).Asks C :=
  .bind needOk_asks fun _ => ask_asks (hq _ rfl)

theorem sealSegment_asks (dek : Bytes) (p : SegmentParams) (plain : Bytes) :
    (sealSegment G dek p plain).Asks C :=
  .bind (ask_asks (hq _ rfl)) fun _ =>
    .bind needOk_asks fun _ => .pure _

theorem rewrap_asks (r : CopyRequest) : (rewrap G r).Asks C :=
  .bind (unwrapDEK_asks G _ _ _ _) fun _ =>
    .bind (wrapDEK_asks hq _ _ _ _) fun _ => .pure _

theorem sourceTags_asks (src : Source) (dek : Bytes) : (sourceTags G src dek).Asks C := by
  unfold sourceTags
  split
  · exact .pure _
  · refine (tryAsk_asks (hq _ rfl)).bind fun a => ?_
    cases a with
    | error f =>
      dsimp only
      split
      · exact .pure _
      · exact .throw _
    | ok raw => exact need_asks

theorem copiedTags_asks (r : CopyRequest) (dek : Bytes) : (copiedTags G r dek).Asks C := by
  unfold copiedTags
  cases r.tagMode with
  | carry => exact sourceTags_asks G hq _ _
  | replace set => exact .pure _

theorem fillSaltsFromHeaders_asks (src : Source) (ps : List Part) (offset : Int) :
    (fillSaltsFromHeaders src offset ps).Asks C := by
  induction ps generalizing offset with
  | nil => exact .pure _
  | cons p ps ih =>
    refine needOk_asks.bind fun _ => ?_
    refine (ask_asks (hq _ rfl)).bind fun _ => ?_
    refine require_asks.bind fun _ => ?_
    refine need_asks.bind fun _ => ?_
    exact .bind (ih _) fun _ => .pure _

theorem loadParts_asks (src : Source) (id : Manifest.ID) (dek : Bytes) : (loadParts G src id dek).Asks C := by
  refine (ask_asks (hq _ rfl)).bind fun _ => ?_
  refine require_asks.bind fun _ => ?_
  refine needOk_asks.bind fun m => ?_
  split
  · exact .pure _
  · exact fillSaltsFromHeaders_asks hq _ _ _

theorem yieldIf_asks (asked : Bool) (l : Loc) (u : Nat) : (yieldIf asked l u).Asks C := by
  unfold yieldIf
  split
  · exact .bind (ask_asks (hq _ rfl)) fun _ => require_asks
  · exact .pure _

omit hq

theorem putTags_asks (l : Loc) (hs : ∀ dek raw, C (.putSidecar l dek raw))
    (bucket key dekName dek : Bytes) (set : List Tag) :
    (putTags G l bucket key dekName dek set).Asks C :=
  .bind need_asks fun _ => ask_asks (hs _ _)

theorem writeTagsBeforeObject_asks (l : Loc) (hs : ∀ dek raw, C (.putSidecar l dek raw))
    (bucket key : Bytes) (m : Meta) (dek : Bytes) (set : List Tag) :
    (writeTagsBeforeObject G l bucket key m dek set).Asks C := by
  unfold writeTagsBeforeObject
  split
  · exact .pure _
  · exact putTags_asks G l hs _ _ _ _ _

include hq in
theorem writeTags_asks (r : CopyRequest) (hs : ∀ dek raw, C (.putSidecar r.dest.loc dek raw))
    (next : Meta) (dek : Bytes) : (writeTags G r next dek).Asks C :=
  .bind (copiedTags_asks G hq _ _) fun _ => writeTagsBeforeObject_asks G _ hs _ _ _ _ _

end

/-! ## Collection of sidecars, and tags -/

section

variable (G : Site) (cfg : GcConfig) (hq : Quiet C)

include hq

theorem fateOf_asks (modified : Nat) : (fateOf cfg modified).Asks C := by
  have hnow : (gcNow cfg).Asks C := by
    unfold gcNow
    split
    · exact .pure _
    · exact ask_asks (hq _ rfl)
  exact .bind hnow fun _ => .pure _

theorem resolveKey_asks {q : α → Req} {names : ∀ x, (q x).Result → Bool}
    (hask : ∀ x, (q x).quiet = true) (xs : List α) : (resolveKey q names xs).Asks C := by
  induction xs with
  | nil => exact .pure _
  | cons x xs ih =>
    refine (tryAsk_asks (hq _ (hask x))).bind fun a => ?_
    cases a with
    | error f => exact ih
    | ok found =>
      dsimp only
      split
      · exact .pure _
      · exact ih

theorem findTagTarget_asks (l : Loc) (bucket key : Bytes) : (findTagTarget G l bucket key).Asks C :=
  .bind (ask_asks (hq _ rfl)) fun _ =>
    .bind (parseMeta_asks _ _) fun _ =>
      .bind (unwrapDEK_asks _ _ _ _ _) fun _ => .pure _

theorem collectLoop_asks {α : Type} {t : Tally} {inUse : α → Bool} {drop : α → Req} (hdrop : ∀ x, C (drop x))
    (entries : List (α × Nat)) (res : GcResult) : (collectLoop cfg t inUse drop entries res).Asks C := by
  induction entries generalizing res with
  | nil => exact .pure _
  | cons e rest ih =>
    obtain ⟨x, modified⟩ := e
    unfold collectLoop
    split
    · exact ih _
    · refine (fateOf_asks cfg hq modified).bind fun fate => ?_
      cases fate with
      | tooYoung => exact ih _
      | dryRun => exact ih _
      | delete =>
        refine (tryAsk_asks (hdrop x)).bind fun a => ?_
        cases a with
        | error f => exact ih _
        | ok _ => exact ih _

variable (hd : ∀ l dek, C (.deleteSidecar l dek))

include hd

theorem collectSidecars_asks (l : Loc) (entries : List (Bytes × Nat)) (res : GcResult) :
    (collectSidecars cfg l entries res).Asks C := by
  refine (resolveKey_asks hq (fun _ => rfl) _).bind fun resolved => ?_
  split
  · exact .pure _
  split
  · exact .pure _
  refine (tryAsk_asks (hq _ rfl)).bind fun a => ?_
  cases a with
  | error f => exact .pure _
  | ok us =>
    dsimp only
    split
    · exact .pure _
    · refine (tryAsk_asks (hq _ rfl)).bind fun a => ?_
      cases a with
      | error f =>
        dsimp only
        split
        · exact collectLoop_asks cfg hq (hd l) _ _
        · exact .pure _
      | ok info => exact collectLoop_asks cfg hq (hd l) _ _

theorem collectAllSidecars_asks (es : List (Loc × Bytes × Nat)) (ls : List Loc) (res : GcResult) :
    (collectAllSidecars cfg es ls res).Asks C := by
  induction ls generalizing res with
  | nil => exact .pure _
  | cons l ls ih => exact .bind (collectSidecars_asks cfg hq hd _ _ _) fun res => ih res

end

section

variable (G : Site) (hq : Quiet C) (bucket key : Bytes)
  (hd : ∀ l, G.Stores bucket key l → ∀ dek, C (.deleteSidecar l dek))
  (hs : ∀ l, G.Stores bucket key l → ∀ dek raw, C (.putSidecar l dek raw))

include hq hd hs

theorem tagRequest_asks (op : TagOp) : (tagRequest G bucket key op).Asks C := by
  cases op with
  | put set =>
    refine storedLoc_bind_asks G _ _ fun l hl => ?_
    refine (findTagTarget_asks G hq _ _ _).bind fun target => ?_
    exact putTags_asks G l (hs l hl) _ _ _ _ _
  | delete =>
    refine storedLoc_bind_asks G _ _ fun l hl => ?_
    refine (findTagTarget_asks G hq _ _ _).bind fun target => ?_
    refine (tryAsk_asks (hd l hl _)).bind fun a => ?_
    cases a with
    | error f =>
      dsimp only
      split
      · exact .pure _
      · exact .throw _
    | ok _ => exact .pure _

theorem tagSession_asks (ops : List TagOp) : (tagSession G bucket key ops).Asks C := by
  induction ops with
  | nil => exact .pure _
  | cons op ops ih =>
    refine (Act.Asks.attempt (tagRequest_asks G hq bucket key hd hs _)).bind fun res => ?_
    cases res with
    | ok _ => exact .bind ih fun _ => .pure _
    | error e => exact ih

end

/-! ## Parts of copies and of encryption -/

theorem copiedMetadata_asks (r : CopyObjectRequest) (info : Info) : (copiedMetadata r info).Asks C := by
  unfold copiedMetadata
  split
  · exact .bind (clientMetadata_asks _) fun _ => .pure _
  · exact .pure _

section

variable (r : CopyRequest) (u : Nat)

theorem copyEach_asks (hc : ∀ n range, C (.uploadPartCopy r.source.loc r.dest.loc u n range r.sourceIfMatch))
    (ps : List Part) (offset : Int) : (copyEach r u offset ps).Asks C := by
  induction ps generalizing offset with
  | nil => exact .pure _
  | cons p ps ih =>
    refine needOk_asks.bind fun _ => ?_
    refine (ask_asks (hc _ _)).bind fun _ => ?_
    exact .bind (ih _) fun _ => .pure _

theorem copyParts_asks (layout : Option (List Part))
    (hc : ∀ n range, C (.uploadPartCopy r.source.loc r.dest.loc u n range r.sourceIfMatch)) :
    (copyParts r u layout).Asks C := by
  cases layout with
  | none => exact .bind (ask_asks (hc _ _)) fun _ => .pure _
  | some ps => exact copyEach_asks r u hc ps 0

end

section

variable (G : Site) {l : Loc} {u : Nat} (hq : Quiet C) (hu : ∀ n b, C (.uploadPart l u n b))

include hq hu

theorem uploadSegment_asks (n : Nat) (body : Bytes) (size : Nat) (p : SegmentParams)
    (dek : Bytes) : (uploadSegment G l u n body size p dek).Asks C := by
  refine needOk_asks.bind fun _ => ?_
  refine (sealSegment_asks G hq _ _ _).bind fun _ => ?_
  refine require_asks.bind fun _ => ?_
  exact .bind (ask_asks (hu _ _)) fun _ => .pure _

theorem uploadSegments_asks (partSize : Nat) (dek : Bytes) (fuel n : Nat) (body : Bytes)
    (left : Nat) : (uploadSegments G l u partSize dek fuel n body left).Asks C := by
  induction fuel generalizing n body left with
  | zero => exact .throw _
  | succ fuel ih =>
    unfold uploadSegments
    split
    · exact .pure _
    · refine (uploadSegment_asks G hq hu _ _ _ _ _).bind fun _ => ?_
      exact .bind (ih _ _ _) fun _ => .pure _

theorem uploadBody_asks (multipart : Bool) (partSize : Nat) (dek body : Bytes) (plainSize : Nat) :
    (uploadBody G l u multipart partSize dek body plainSize).Asks C := by
  unfold uploadBody
  split
  · exact uploadSegments_asks G hq hu _ _ _ _ _ _
  · exact .bind (uploadSegment_asks G hq hu _ _ _ _ _) fun _ => .pure _

end

theorem checkDigest_asks (r : EncryptRequest) (info : Info) (read : Bytes) : (checkDigest r info read).Asks C := by
  unfold checkDigest
  split
  · exact .pure _
  · exact require_asks

theorem deleteClear_asks (r : EncryptRequest) (verdict : Encrypted) (hd : C (.delete r.loc)) :
    (deleteClear r verdict).Asks C := by
  refine (tryAsk_asks hd).bind fun a => ?_
  cases a with
  | error f => exact .pure _
  | ok _ => exact .pure _

/-! ## Requests of clients -/

section

variable (G : Site) (hq : Quiet C)

include hq

theorem putObject_asks (r : PutRequest) (hs : ∀ l, G.Stores r.bucket r.key l → ∀ dek raw, C (.putSidecar l dek raw))
    (hp : ∀ l, G.Stores r.bucket r.key l → ∀ body md, C (.put l body md r.headers r.cond)) :
    (putObject G r).Asks C := by
  refine (clientMetadata_asks _).bind fun md => ?_
  refine storedLoc_bind_asks G _ _ fun l hl => ?_
  refine need_asks.bind fun kid => ?_
  refine (ask_asks (hq _ rfl)).bind fun dek => ?_
  refine (wrapDEK_asks hq _ _ _ _).bind fun wrapped => ?_
  refine (writeTagsBeforeObject_asks G l (hs l hl) _ _ _ _ _).bind fun _ => ?_
  refine (sealSegment_asks G hq _ _ _).bind fun sealed => ?_
  exact .bind (ask_asks (hp l hl _ _)) fun _ => .pure ()

theorem observedManifest_asks (l : Loc) : (observedManifest G l).Asks C :=
  .bind (tryAsk_asks (hq _ rfl)) fun _ => .pure _

theorem replacedSince_asks (l : Loc) (observed : Manifest.ID) : (replacedSince G l observed).Asks C :=
  .bind (tryAsk_asks (hq _ rfl)) fun _ => .pure _

theorem deleteObject_asks (bucket key : Bytes) (hd : ∀ l, G.Stores bucket key l → C (.delete l))
    (hm : ∀ l, G.Stores bucket key l → ∀ id, C (.deleteManifest l id)) :
    (deleteObject G bucket key).Asks C := by
  refine storedLoc_bind_asks G _ _ fun l hl => ?_
  refine (observedManifest_asks G hq l).bind fun observed => ?_
  refine (ask_asks (hd l hl)).bind fun _ => ?_
  cases observed with
  | none => exact .pure _
  | some id => exact bestEffort_asks (hm l hl id)

theorem uploadPart_asks (r : PartRequest)
    (hu : ∀ l, G.Stores r.token.bucket r.token.key l → ∀ b, C (.uploadPart l r.token.uploadID r.number b))
    (hr : ∀ t, C (.reply (.part t))) : (uploadPart G r).Asks C := by
  refine storedLoc_bind_asks G _ _ fun l hl => ?_
  refine (unwrapDEK_asks _ _ _ _ _).bind fun dek => ?_
  refine require_asks.bind fun _ => ?_
  refine needOk_asks.bind fun _ => ?_
  refine require_asks.bind fun _ => ?_
  refine (sealSegment_asks G hq _ _ _).bind fun sealed => ?_
  refine (ask_asks (hu l hl _)).bind fun etag => ?_
  exact ask_asks (hr _)

theorem dropReplaced_asks (l : Loc) (own : Manifest.ID) (observed : Option Manifest.ID)
    (hm : ∀ id, C (.deleteManifest l id)) : (dropReplaced G l own observed).Asks C := by
  cases observed with
  | none => exact .pure _
  | some m =>
    unfold dropReplaced
    dsimp only
    split
    · exact .pure _
    · refine (replacedSince_asks G hq l m).bind fun gone => ?_
      split
      · exact bestEffort_asks (hm _)
      · exact .pure _

omit hq in
theorem writeManifest_asks (l : Loc) (m : Manifest) (dek : Bytes)
    (hm : ∀ raw, C (.putManifest l m.id raw)) : (writeManifest G l m dek).Asks C :=
  .bind needOk_asks fun _ => ask_asks (hm _)

theorem completeMultipartUpload_asks (r : CompleteRequest)
    (hm : ∀ l, G.Stores r.token.bucket r.token.key l → ∀ raw, C (.putManifest l r.token.manifestID raw))
    (hc : ∀ l, G.Stores r.token.bucket r.token.key l → ∀ parts,
      C (.complete l r.token.uploadID parts r.cond))
    (hd : ∀ l, G.Stores r.token.bucket r.token.key l → ∀ id, C (.deleteManifest l id)) :
    (completeMultipartUpload G r).Asks C := by
  refine storedLoc_bind_asks G _ _ fun l hl => ?_
  refine (unwrapDEK_asks _ _ _ _ _).bind fun dek => ?_
  refine require_asks.bind fun _ => ?_
  refine require_asks.bind fun _ => ?_
  refine (ask_asks (hq _ rfl)).bind fun stored => ?_
  refine needOk_asks.bind fun matched => ?_
  refine needOk_asks.bind fun parts => ?_
  refine (observedManifest_asks G hq l).bind fun observed => ?_
  refine (writeManifest_asks G l _ dek (hm l hl)).bind fun _ => ?_
  refine (ask_asks (hc l hl _)).bind fun _ => ?_
  exact dropReplaced_asks G hq l _ observed (hd l hl)

omit hq in
theorem abortMultipartUpload_asks (t : Token) (ha : ∀ l, G.Stores t.bucket t.key l → C (.abort l t.uploadID)) :
    (abortMultipartUpload G t).Asks C :=
  storedLoc_bind_asks G _ _ fun l hl => ask_asks (ha l hl)

end

/-! ## Copies -/

section

variable (G : Site) (hq : Quiet C) (r : CopyRequest)

include hq

omit hq in
theorem writeNextManifest_asks (next : Meta) (dek : Bytes) (layout : Option (List Part))
    (hm : ∀ id raw, C (.putManifest r.dest.loc id raw)) :
    (writeNextManifest G r next dek layout).Asks C := by
  unfold writeNextManifest
  cases layout with
  | none => exact .pure _
  | some parts =>
    cases next.manifestID with
    | none => exact .pure _
    | some id => exact writeManifest_asks G _ _ _ (hm _)

theorem publishUpload_asks (next : Meta) (dek : Bytes) (layout : Option (List Part)) (u : Nat)
    (hu : ∀ n range, C (.uploadPartCopy r.source.loc r.dest.loc u n range r.sourceIfMatch))
    (hm : ∀ id raw, C (.putManifest r.dest.loc id raw))
    (hc : ∀ parts, C (.complete r.dest.loc u parts ⟨r.destIfMatch, r.destIfNoneMatch⟩)) :
    (publishUpload G r next dek layout u).Asks C := by
  refine (Act.Asks.mapErr (copyParts_asks r u layout hu) _).bind fun completed => ?_
  refine (writeNextManifest_asks G r next dek layout hm).bind fun _ => ?_
  refine (yieldIf_asks hq _ _ _).bind fun _ => ?_
  exact .bind (.mapErr (ask_asks (hc _)) _) fun _ => .pure _

omit hq in
theorem dropOld_asks (l : Loc) (next : Meta) (old : Option Manifest.ID)
    (hm : ∀ id, C (.deleteManifest l id)) : (dropOld l next old).Asks C := by
  cases old with
  | none => exact .pure _
  | some id =>
    unfold dropOld
    dsimp only
    split
    · exact .pure _
    · exact bestEffort_asks (hm id)

theorem nextVersion_asks (next : Meta) (dek : Bytes) : (nextVersion G r next dek).Asks C := by
  unfold nextVersion
  split
  · exact .pure _
  · refine (loadParts_asks G hq _ _ _).bind fun parts => ?_
    exact .bind (ask_asks (hq _ rfl)) fun _ => .pure _

omit hq in
theorem copyWhole_asks (next : Meta) (hc : ∀ md, C (.copy r.source.loc r.dest.loc md r.dest.headers r.sourceIfMatch)) :
    (copyWhole G r next).Asks C := by
  refine (tryAsk_asks (hc _)).bind fun a => ?_
  cases a with
  | ok _ => exact .pure _
  | error f => cases f <;> exact .throw _

end

/-! ## Encryption of objects that were there before -/

section

variable (hq : Quiet C)

include hq

theorem manifestFor_asks (multipart : Bool) : (manifestFor multipart).Asks C := by
  unfold manifestFor
  split
  · exact .bind (ask_asks (hq _ rfl)) fun _ => .pure _
  · exact .pure _

theorem readPlain_asks (r : EncryptRequest) (info : Info) : (readPlain r info).Asks C := by
  refine (tryAsk_asks (hq _ rfl)).bind fun a => ?_
  cases a with
  | error f =>
    dsimp only
    split
    · exact .throw _
    · exact .throw _
  | ok got => exact .bind require_asks fun _ => .pure _

omit hq in
theorem writeLayout_asks (G : Site) (l : Loc) (id : Option Manifest.ID) (parts : List Part)
    (dek : Bytes) (hm : ∀ id raw, C (.putManifest l id raw)) :
    (writeLayout G l id parts dek).Asks C := by
  cases id with
  | none => exact .pure _
  | some id => exact writeManifest_asks G _ _ _ (hm _)

theorem writeUpload_asks (G : Site) (r : EncryptRequest) (l : Loc) (u : Nat) (m : Meta) (partSize : Nat)
    (dek body : Bytes) (info : Info) (c : Cond) (hu : ∀ n b, C (.uploadPart l u n b))
    (hm : ∀ id raw, C (.putManifest l id raw)) (hc : ∀ parts, C (.complete l u parts c)) :
    (writeUpload G r l u m partSize dek body info c).Asks C := by
  refine (uploadBody_asks G hq hu _ _ _ _ _).bind fun parts => ?_
  refine (checkDigest_asks r info _).bind fun _ => ?_
  refine (writeLayout_asks G l _ _ _ hm).bind fun _ => ?_
  refine (yieldIf_asks hq _ l u).bind fun _ => ?_
  exact .bind (.mapErr (ask_asks (hc _)) _) fun _ => .pure _

end

/-! ## Garbage collection -/

section

variable (G : Site) (hq : Quiet C) (cfg : GcConfig) (hm : ∀ l id, C (.deleteManifest l id))

include hq

theorem currentManifestID_asks (l : Loc) : (currentManifestID G l).Asks C :=
  .bind (tryAsk_asks (hq _ rfl)) fun _ => .pure _

include hm

theorem collectKey_asks (l : Loc) (entries : List (Manifest.ID × Nat)) (res : GcResult) :
    (collectKey G cfg l entries res).Asks C := by
  refine (resolveKey_asks hq (fun _ => rfl) _).bind fun resolved => ?_
  split
  · exact .pure _
  split
  · exact .pure _
  refine (tryAsk_asks (hq _ rfl)).bind fun a => ?_
  cases a with
  | error f => exact .pure _
  | ok us =>
    dsimp only
    split
    · exact .pure _
    · refine (currentManifestID_asks G hq l).bind fun got => ?_
      cases got with
      | none => exact .pure _
      | some current => exact collectLoop_asks cfg hq (hm l) entries _

theorem gcRun_asks (hd : ∀ l dek, C (.deleteSidecar l dek)) : (gcRun G cfg).Asks C := by
  have hkeys : ∀ es ls res, (collectKeys G cfg es ls res).Asks C := by
    intro es ls
    induction ls with
    | nil => exact fun _ => .pure _
    | cons l ls ih => exact fun res => .bind (collectKey_asks G hq cfg hm _ _ res) fun res => ih res
  refine (ask_asks (hq _ rfl)).bind fun manifests => ?_
  refine (ask_asks (hq _ rfl)).bind fun sidecars => ?_
  refine (hkeys _ _ _).bind fun res => ?_
  exact collectAllSidecars_asks cfg hq hd _ _ _

end

end BlindBucket.Cloud
