import BlindBucket.Auth.Presign
import BlindBucket.Proxy.RangeGet

/-!
# Routing

`internal/s3api/router.go`. A request is classified by its method, its target and the names in its query. Where the code
ranges over a map it meets the entries in the order of the lists here, which may be any.

A request to an object that names several operations is not always refused: `?tagging` wins over everything, and
`?uploads` over an empty upload id and over a part number.
-/

namespace BlindBucket.S3api

open GoText Auth List

inductive Operation where
  | putObject | copyObject | getObject | headObject | deleteObject
  | getObjectTagging | putObjectTagging | deleteObjectTagging
  | listObjectsV2 | listObjects | deleteObjects
  | createMultipartUpload | uploadPart | uploadPartCopy | completeMultipartUpload | abortMultipartUpload | listParts
  | listMultipartUploads
  | listBuckets | headBucket | createBucket | deleteBucket | getBucketLocation
  | unsupported
  /-- The empty string, of a request that was not classified. -/
  | unset
deriving DecidableEq

inductive Method where
  | get | head | put | post | delete
  | other (name : Bytes)
deriving DecidableEq

def Method.name : Method → Bytes
  | .get => ascii "GET"
  | .head => ascii "HEAD"
  | .put => ascii "PUT"
  | .post => ascii "POST"
  | .delete => ascii "DELETE"
  | .other name => name

/-- `*http.Request`, with what is read of it. -/
structure HttpRequest where
  method : Method
  host : Bytes
  path : Bytes
  query : Header
  /-- The header `X-Amz-Copy-Source`. -/
  copySource : Bytes

structure Request where
  op : Operation := .unset
  bucket : Bytes := []
  key : Bytes := []
  uploadID : Bytes := []
  partNumber : Int := 0

structure SubResource where
  name : String
  op : Operation
  method : Method
deriving DecidableEq

/-- Sorted by name, as the names are listed in a refusal. -/
def bucketQueryOps : List SubResource :=
  [⟨"delete", .deleteObjects, .post⟩, ⟨"location", .getBucketLocation, .get⟩, ⟨"uploads", .listMultipartUploads, .get⟩]

def presignParams : List String :=
  ["X-Amz-Algorithm", "X-Amz-Credential", "X-Amz-Date", "X-Amz-Expires", "X-Amz-SignedHeaders", "X-Amz-Signature",
    "X-Amz-Content-Sha256"]

def responseOverrides : List String :=
  ["response-cache-control", "response-content-disposition", "response-content-encoding", "response-content-language",
    "response-content-type", "response-expires"]

def hoistedUploadParams : List String :=
  ["x-amz-checksum-crc32", "x-amz-checksum-crc32c", "x-amz-checksum-crc64nvme", "x-amz-checksum-sha1",
    "x-amz-checksum-sha256", "x-amz-sdk-checksum-algorithm", "x-amz-tagging"]

def listingParams : List String :=
  ["list-type", "prefix", "delimiter", "max-keys", "marker", "continuation-token", "start-after", "encoding-type",
    "fetch-owner", "expected-bucket-owner"]

/-- The names in `objectQueryParams` that select an operation. -/
def objectSelectors : List String := ["tagging", "uploads", "uploadId", "partNumber"]

def partPaging : List String := ["max-parts", "part-number-marker"]

def listed (names : List String) (name : Bytes) : Bool := names.any fun n => ascii n == name

def present (query : Header) (name : String) : Bool := query.any fun q => q.1 == ascii name

/-- What routing rests on besides the request. -/
structure Router where
  baseDomain : Bytes
  /-- `strings.ToLower`. -/
  toLower : Bytes → Bytes
  /-- The names of `responseOverrides`, as they are ranged over. -/
  overrides : List String
  overrides_perm : overrides.Perm responseOverrides

/-- `unsupported(req)` and an error. -/
def refuse (req : Request) (e : ApiError) : Request × Option ApiError := ({ req with op := .unsupported }, some e)

def accept (req : Request) (op : Operation) : Request × Option ApiError := ({ req with op := op }, none)

/-- The end of a `switch r.Method`: the operation of the method, or a refusal of the method. -/
def switch (op : Option Operation) (r : HttpRequest) (req : Request) (format : String) : Request × Option ApiError :=
  match op with
  | some op => accept req op
  | none => refuse req (.notImplemented ⟨format, [.bytes r.method.name]⟩)

def overrideError (r : HttpRequest) (name : String) : Option ApiError :=
  if present r.query name = false then none
  else if r.method ≠ .get ∧ r.method ≠ .head then
    some (.notImplemented ⟨"%s applies to GetObject and HeadObject only, not to a %s",
      [.bytes (ascii name), .bytes r.method.name]⟩)
  else
    match objectSelectors.find? (present r.query) with
    | some sub => some (.notImplemented ⟨"%s applies to GetObject and HeadObject only, not with ?%s",
        [.bytes (ascii name), .bytes (ascii sub)]⟩)
    | none =>
      let values := Header.values r.query (ascii name)
      if values.length ≠ 1 then
        some (.invalidArgument ⟨"%s is given %d times", [.bytes (ascii name), .int values.length]⟩)
      else if (values.headD []).any fun c => (c < 0x20 && c != 0x09) || c == 0x7F then
        some (.invalidArgument ⟨"%s holds a control character, which a header value cannot", [.bytes (ascii name)]⟩)
      else none

namespace Router

variable (R : Router) (r : HttpRequest)

def checkResponseOverrides : Option ApiError := R.overrides.findSome? (overrideError r)

def ignorable (name : Bytes) : Bool := R.toLower name == ascii "x-id"

def hoistedUploadParam (name : Bytes) : Bool :=
  listed hoistedUploadParams (R.toLower name) || ((ascii "x-amz-meta-").isPrefixOf (R.toLower name)
    && decide ((ascii "x-amz-meta-").length < (R.toLower name).length))

/-- The names that do not end the scan of a bucket's query. -/
def bucketParam (name : Bytes) : Bool :=
  listed (bucketQueryOps.map SubResource.name) name || R.ignorable name || listed presignParams name
    || listed listingParams name

/-- The sub-resources in the query, in its order. -/
def subResources : List SubResource := r.query.filterMap fun q => bucketQueryOps.find? fun s => ascii s.name == q.1

def bucketOperation : Method → Option Operation
  | .get => some (if queryGet r.query "list-type" = ascii "2" then .listObjectsV2 else .listObjects)
  | .head => some .headBucket
  | .put => some .createBucket
  | .delete => some .deleteBucket
  | _ => none

def routeBucket (bucket : Bytes) : Request × Option ApiError :=
  let req : Request := { bucket := bucket }
  match r.query.find? fun q => !R.bucketParam q.1 with
  | some (name, _) =>
    if name = ascii "cors" then
      refuse req (.notImplemented ⟨"a bucket's CORS configuration is not served: the provider would store it, and it would govern the provider's endpoint, which a browser never reaches. The gateway answers browsers itself, for the origins in server.cors.allowed_origins (docs/adr/ADR-036-presigned-uploads.md)", []⟩)
    else
      refuse req (.notImplemented ⟨"the bucket sub-resource %q is not implemented in this build", [.bytes name]⟩)
  | none =>
    match subResources r with
    | [] => switch (bucketOperation r r.method) r req "method %s is not implemented for buckets"
    | [sub] =>
      if r.method ≠ sub.method then
        refuse req (.notImplemented ⟨"?%s on a bucket is %s only, not %s",
          [.bytes (ascii sub.name), .bytes sub.method.name, .bytes r.method.name]⟩)
      else accept req sub.op
    | _ =>
      refuse req (.invalidRequest ⟨"a request cannot carry the bucket sub-resources ?%s together",
        [.bytes (ascii (" and ?".intercalate ((bucketQueryOps.map SubResource.name).filter (present r.query))))]⟩)

def taggingOperation : Method → Option Operation
  | .get | .head => some .getObjectTagging
  | .put => some .putObjectTagging
  | .delete => some .deleteObjectTagging
  | _ => none

def routeTagging (req : Request) : Request × Option ApiError :=
  switch (taggingOperation r.method) r req "method %s is not implemented for the tagging sub-resource"

def maxPartNumber : Int := 10000

/-- The function `partNumber`. -/
def parsePartNumber (raw : Bytes) : Except ApiError Int :=
  if raw = [] then .error (.invalidArgument ⟨"a part upload must name a part number", []⟩)
  else
    match (parseInt raw).filter fun n => decide (1 ≤ n ∧ n ≤ maxPartNumber) with
    | some n => .ok n
    | none => .error (.invalidArgument ⟨"part number %q is not an integer in 1..%d", [.bytes raw, .int maxPartNumber]⟩)

def uploadOperation : Method → Option Operation
  | .put => some (if r.copySource ≠ [] then .uploadPartCopy else .uploadPart)
  | .post => some .completeMultipartUpload
  | .delete => some .abortMultipartUpload
  | .get | .head => some .listParts
  | .other _ => none

def routeMultipart (initiating : Bool) (req : Request) : Request × Option ApiError :=
  if initiating then
    if req.uploadID ≠ [] then
      refuse req (.invalidRequest ⟨"a request cannot carry both ?uploads and ?uploadId", []⟩)
    else if r.method ≠ .post then
      refuse req (.notImplemented ⟨"method %s is not implemented for ?uploads on an object", [.bytes r.method.name]⟩)
    else accept req .createMultipartUpload
  else if req.uploadID = [] then refuse req (.invalidArgument ⟨"the request names no upload id", []⟩)
  else if r.method = .put then
    match parsePartNumber (queryGet r.query "partNumber") with
    | .error e => refuse req e
    | .ok number =>
      accept { req with partNumber := number } (if r.copySource ≠ [] then .uploadPartCopy else .uploadPart)
  else switch (uploadOperation r r.method) r req "method %s is not implemented for multipart uploads"

/-- With what `routeObject` makes of a copy source. -/
def objectOperation : Method → Option Operation
  | .put => some (if r.copySource ≠ [] then .copyObject else .putObject)
  | .get => some .getObject
  | .head => some .headObject
  | .delete => some .deleteObject
  | _ => none

/-- The end of `routeObject`: presence of a parameter decides, not its value. -/
def selectObject (req : Request) : Request × Option ApiError :=
  if present r.query "tagging" then routeTagging r req
  else if present r.query "uploads" || present r.query "uploadId" || present r.query "partNumber" then
    routeMultipart r (present r.query "uploads") { req with uploadID := queryGet r.query "uploadId" }
  else switch (objectOperation r r.method) r req "method %s is not implemented for objects"

def hoisting : Bool := decide (r.method = .put ∧ queryGet r.query "X-Amz-Signature" ≠ [])

def objectParam (name : Bytes) : Bool :=
  R.ignorable name || listed objectSelectors name || listed partPaging name || listed presignParams name
    || listed responseOverrides name || (hoisting r && R.hoistedUploadParam name)

def maxKeyLength : Nat := 1024

def reservedPrefix : Bytes := ascii ".blindbucket/"

def routeObject (bucket key : Bytes) : Request × Option ApiError :=
  let req : Request := { bucket := bucket, key := key }
  if maxKeyLength < key.length then
    ({}, some (.invalidArgument ⟨"object key is %d bytes, the maximum is %d", [.int key.length, .int maxKeyLength]⟩))
  else if reservedPrefix.isPrefixOf key then
    ({}, some (.accessDenied ⟨"the %s prefix is reserved by the gateway", [.bytes reservedPrefix]⟩))
  else if queryGet r.query "AWSAccessKeyId" ≠ [] ∧ queryGet r.query "Signature" ≠ [] then
    refuse req (.invalidRequest ⟨"this is a SigV2 presigned URL; this gateway verifies AWS4-HMAC-SHA256 only. With boto3, pass Config(signature_version=\"s3v4\") when building the client -- botocore still defaults to SigV2 for presigned URLs against a custom endpoint. The AWS CLI produces SigV4 already", []⟩)
  else
    match r.query.find? fun q => !R.objectParam r q.1 with
    | some (name, _) =>
      refuse req (.notImplemented ⟨"the sub-resource %q is not implemented in this build", [.bytes name]⟩)
    | none =>
      match R.checkResponseOverrides r with
      | some e => refuse req e
      | none => selectObject r req

def routeService : Request × Option ApiError :=
  if r.method = .get ∧ r.query = [] then ({ op := .listBuckets }, none)
  else refuse {} (.notImplemented ⟨"service-level operation %s is not implemented in this build", [.bytes r.method.name]⟩)

def virtualHostBucket (host : Bytes) : Option Bytes :=
  if R.baseDomain = [] ∨ host = [] then none
  else
    let bare :=
      match lastIndex 0x3A host with
      | some idx => if 0 < idx ∧ 0x5D ∉ host.drop idx then host.take idx else host
      | none => host
    let name := trimSuffix [0x2E] (R.toLower bare)
    let base := 0x2E :: trimSuffix [0x2E] (R.toLower R.baseDomain)
    let bucket := trimSuffix base name
    if base.isSuffixOf name = false ∨ bucket = [] ∨ 0x2E ∈ bucket then none else some bucket

def splitPath (path : Bytes) : Bytes × Bytes :=
  let trimmed := (cutPrefix [0x2F] path).getD path
  (cut 0x2F trimmed).getD (trimmed, [])

def splitTarget : Bytes × Bytes :=
  match R.virtualHostBucket r.host with
  | some bucket => (bucket, (cutPrefix [0x2F] r.path).getD r.path)
  | none => splitPath r.path

def route : Request × Option ApiError :=
  let target := R.splitTarget r
  if target.1 = [] then routeService r
  else if target.2 = [] then R.routeBucket r target.1
  else R.routeObject r target.1 target.2

end Router

/-! ## What was selected -/

/-- What can select an operation: a bucket alone or a sub-resource of it, an object alone, its tags, a new upload, or
an upload that there is. -/
inductive Group where
  | bucket | subResource (s : SubResource) | object | tagging | uploads | upload

namespace Group

def onObject : Group → Bool
  | .bucket | .subResource _ => false
  | _ => true

/-- The names of a group. A part number may be missing. -/
def params : Group → List String
  | .subResource s => [s.name]
  | .tagging => ["tagging"]
  | .uploads => ["uploads"]
  | .upload => ["uploadId", "partNumber"]
  | _ => []

/-- The operation that a group and the method select. -/
def operation (r : HttpRequest) : Group → Option Operation
  | .bucket => Router.bucketOperation r r.method
  | .subResource s => if r.method = s.method then some s.op else none
  | .object => Router.objectOperation r r.method
  | .tagging => Router.taggingOperation r.method
  | .uploads => if r.method = .post then some .createMultipartUpload else none
  | .upload => Router.uploadOperation r r.method

end Group

def selectors (object : Bool) : List String :=
  if object then objectSelectors else bucketQueryOps.map SubResource.name

def Router.harmless (R : Router) (name : Bytes) : Bool :=
  R.ignorable name || listed presignParams name || listed listingParams name || listed partPaging name
    || listed responseOverrides name || R.hoistedUploadParam name

/-- The group is the only one in the query, and selects the operation. -/
structure Selected (R : Router) (r : HttpRequest) (object : Bool) (op : Operation) (g : Group) : Prop where
  level : g.onObject = object
  known : ∀ s, g = .subResource s → s ∈ bucketQueryOps
  given : ∀ n ∈ g.params, n ≠ "partNumber" → present r.query n = true
  alone : ∀ q ∈ r.query, listed g.params q.1 = true ∨ (listed (selectors object) q.1 = false ∧ R.harmless q.1 = true)
  selects : g.operation r = some op

/-- The names of an object's groups that do not go together. -/
def conflicts : List (String × String) :=
  [("tagging", "uploads"), ("tagging", "uploadId"), ("tagging", "partNumber"), ("uploads", "uploadId"),
    ("uploads", "partNumber")]

def Conflicting (query : Header) : Prop := ∃ p ∈ conflicts, present query p.1 = true ∧ present query p.2 = true

variable {R : Router} {r : HttpRequest} {op : Operation} {g : Group} {n : String} {name : Bytes} {req : Request}

theorem present_iff {query : Header} : present query n = true ↔ ∃ q ∈ query, q.1 = ascii n := by
  simp [present]

theorem listed_iff {names : List String} : listed names name = true ↔ ∃ n ∈ names, ascii n = name := by
  simp [listed]

theorem Group.not_conflicting (hg : g.onObject = true) :
    ∀ p ∈ conflicts, ¬ (listed g.params (ascii p.1) = true ∧ listed g.params (ascii p.2) = true) := by
  cases g with
  | bucket | subResource s => simp [onObject] at hg
  | object | tagging | uploads | upload => decide

theorem Selected.not_conflicting (h : Selected R r true op g) : ¬ Conflicting r.query := by
  have hin : ∀ n ∈ objectSelectors, present r.query n = true → listed g.params (ascii n) = true := by
    intro n hn hp
    obtain ⟨q, hq, hname⟩ := present_iff.mp hp
    rw [← hname]
    refine (h.alone q hq).resolve_right ?_
    rintro ⟨hno, -⟩
    rw [hname, show listed (selectors true) (ascii n) = true from listed_iff.mpr ⟨n, hn, rfl⟩] at hno
    simp at hno
  rintro ⟨p, hp, h1, h2⟩
  have hsel : ∀ p ∈ conflicts, p.1 ∈ objectSelectors ∧ p.2 ∈ objectSelectors := by decide
  exact g.not_conflicting h.level p hp ⟨hin _ (hsel p hp).1 h1, hin _ (hsel p hp).2 h2⟩

theorem switch_ok {o : Option Operation} {format : String} (h : (switch o r req format).2 = none) :
    o = some (switch o r req format).1.op := by
  cases o with
  | none => simp [switch, refuse] at h
  | some op => rfl

/-- A group is selected if no name of another one is there. -/
theorem Selected.of {object : Bool} (hparam : ∀ q ∈ r.query, listed (selectors object) q.1 = true ∨ R.harmless q.1 = true)
    (hlevel : g.onObject = object) (hknown : ∀ s, g = .subResource s → s ∈ bucketQueryOps)
    (hgiven : ∀ n ∈ g.params, n ≠ "partNumber" → present r.query n = true)
    (hsel : ∀ n ∈ selectors object, present r.query n = true → n ∈ g.params) (hop : g.operation r = some op) :
    Selected R r object op g := by
  refine ⟨hlevel, hknown, hgiven, fun q hq => ?_, hop⟩
  cases hl : listed (selectors object) q.1 with
  | false => exact .inr ⟨rfl, (hparam q hq).resolve_left (by simp [hl])⟩
  | true =>
    obtain ⟨n, hn, hname⟩ := listed_iff.mp hl
    exact .inl (listed_iff.mpr ⟨n, hsel n hn (present_iff.mpr ⟨q, hq, hname.symm⟩), hname⟩)

theorem mem_subResources {s : SubResource} : s ∈ Router.subResources r ↔ s ∈ bucketQueryOps ∧ present r.query s.name = true := by
  have hfirst : ∀ s ∈ bucketQueryOps, (bucketQueryOps.find? fun t => ascii t.name == ascii s.name) = some s := by decide
  rw [Router.subResources, mem_filterMap, present_iff]
  constructor
  · rintro ⟨q, hq, hfound⟩
    exact ⟨mem_of_find?_eq_some hfound, q, hq, (by simpa using find?_some hfound : ascii s.name = q.1).symm⟩
  · rintro ⟨hs, q, hq, hname⟩
    exact ⟨q, hq, by rw [hname]; exact hfirst s hs⟩

/-- A request to a bucket has one group at most. -/
theorem routeBucket_selected {bucket : Bytes} (hok : (R.routeBucket r bucket).2 = none) :
    ∃ g, Selected R r false (R.routeBucket r bucket).1.op g := by
  generalize hout : R.routeBucket r bucket = out at *
  unfold Router.routeBucket at hout
  split at hout
  · split at hout <;> simp [← hout, refuse] at hok
  next hfind =>
  have hparam : ∀ q ∈ r.query, listed (selectors false) q.1 = true ∨ R.harmless q.1 = true := by
    intro q hq
    have h : R.bucketParam q.1 = true := by simpa using find?_eq_none.mp hfind q hq
    simp only [Router.bucketParam, Bool.or_eq_true] at h
    rcases h with ((h | h) | h) | h
    · exact .inl h
    all_goals exact .inr (by simp [Router.harmless, h])
  split at hout
  next hnone =>
    subst hout
    refine ⟨.bucket, .of hparam rfl (by simp) (by simp [Group.params]) (fun n hn hp => ?_) (switch_ok hok)⟩
    obtain ⟨s, hs, rfl⟩ := mem_map.mp hn
    simpa [hnone] using mem_subResources.mpr ⟨hs, hp⟩
  next sub hone =>
    obtain ⟨hsub, hthere⟩ := mem_subResources.mp (show sub ∈ Router.subResources r by simp [hone])
    split at hout
    · simp [← hout, refuse] at hok
    next hm =>
      subst hout
      refine ⟨.subResource sub, .of hparam rfl ?_ (by simp [Group.params, hthere]) (fun n hn hp => ?_)
        (if_pos (not_not.mp hm))⟩
      · rintro s ⟨⟩
        exact hsub
      · obtain ⟨s, hs, rfl⟩ := mem_map.mp hn
        simpa [hone, Group.params] using congrArg SubResource.name (mem_singleton.mp (hone ▸ mem_subResources.mpr ⟨hs, hp⟩))
  · subst hout
    simp [refuse] at hok

theorem present_of_queryGet {query : Header} (h : queryGet query n ≠ []) : present query n = true := by
  cases hfind : query.find? fun entry => entry.1 == ascii n with
  | none => simp [queryGet, Header.values, hfind] at h
  | some q => exact present_iff.mpr ⟨q, mem_of_find?_eq_some hfind, by simpa using find?_some hfind⟩

theorem selectObject_selected (hparam : ∀ q ∈ r.query, listed (selectors true) q.1 = true ∨ R.harmless q.1 = true)
    (hok : (Router.selectObject r req).2 = none) (hno : ¬ Conflicting r.query) :
    ∃ g, Selected R r true (Router.selectObject r req).1.op g := by
  have hapart : ∀ a b, (a, b) ∈ conflicts → present r.query a = true → present r.query b = false := by
    intro a b hab ha
    rw [← Bool.not_eq_true]
    exact fun hb => hno ⟨(a, b), hab, ha, hb⟩
  generalize hout : Router.selectObject r req = out at *
  unfold Router.selectObject at hout
  split at hout
  next ht =>
    subst hout
    refine ⟨.tagging, .of hparam rfl (by simp) (by simp [Group.params, ht]) ?_ (switch_ok hok)⟩
    simp [selectors, objectSelectors, Group.params, hapart "tagging" "uploads" (by decide) ht,
      hapart "tagging" "uploadId" (by decide) ht, hapart "tagging" "partNumber" (by decide) ht]
  next ht =>
  split at hout
  next hmulti =>
    unfold Router.routeMultipart at hout
    split at hout
    next hu =>
      split at hout
      · simp [← hout, refuse] at hok
      split at hout
      · simp [← hout, refuse] at hok
      next hpost =>
        subst hout
        refine ⟨.uploads, .of hparam rfl (by simp) (by simp [Group.params, hu]) ?_ (if_pos (not_not.mp hpost))⟩
        simp [selectors, objectSelectors, Group.params, ht, hapart "uploads" "uploadId" (by decide) hu,
          hapart "uploads" "partNumber" (by decide) hu]
    next hu =>
      split at hout
      · simp [← hout, refuse] at hok
      next hid =>
      have hi : present r.query "uploadId" = true := present_of_queryGet hid
      refine ⟨.upload, .of hparam rfl (by simp) (by simp [Group.params, hi]) ?_ ?_⟩
      · simp [selectors, objectSelectors, Group.params, ht, hu]
      · split at hout
        next hput =>
          split at hout
          · simp [← hout, refuse] at hok
          · subst hout
            rw [Group.operation, hput]
            rfl
        · subst hout
          exact switch_ok hok
  next hmulti =>
    subst hout
    simp only [Bool.or_eq_true, not_or] at hmulti
    refine ⟨.object, .of hparam rfl (by simp) (by simp [Group.params]) ?_ (switch_ok hok)⟩
    simp [selectors, objectSelectors, ht, hmulti]

/-- **What the router ignores.** A request with a bucket that is accepted names one group of parameters that select an
operation, gets the operation of that group and its method, and has nothing else in its query but parameters that select
nothing, unless it is for an object and names two groups. -/
theorem router_ignores_nothing_iff (hbucket : (R.splitTarget r).1 ≠ []) (hok : (R.route r).2 = none) :
    (∃ g, Selected R r (decide ((R.splitTarget r).2 ≠ [])) (R.route r).1.op g) ↔
      ¬ ((R.splitTarget r).2 ≠ [] ∧ Conflicting r.query) := by
  unfold Router.route at hok ⊢
  simp only [if_neg hbucket] at hok ⊢
  by_cases hkey : (R.splitTarget r).2 = []
  · simp only [if_pos hkey] at hok ⊢
    simpa [hkey] using routeBucket_selected hok
  · simp only [if_neg hkey] at hok ⊢
    simp only [hkey, ne_eq, not_false_eq_true, decide_true, true_and]
    refine ⟨fun ⟨g, h⟩ => h.not_conflicting, fun hno => ?_⟩
    generalize hout : R.routeObject r (R.splitTarget r).1 (R.splitTarget r).2 = out at *
    unfold Router.routeObject at hout
    split at hout
    · simp [← hout] at hok
    split at hout
    · simp [← hout] at hok
    split at hout
    · simp [← hout, refuse] at hok
    split at hout
    · simp [← hout, refuse] at hok
    next hfind =>
    split at hout
    · simp [← hout, refuse] at hok
    · subst hout
      refine selectObject_selected (fun q hq => ?_) hok hno
      have h : R.objectParam r q.1 = true := by simpa using find?_eq_none.mp hfind q hq
      simp only [Router.objectParam, Bool.or_eq_true, Bool.and_eq_true] at h
      rcases h with ((((h | h) | h) | h) | h) | ⟨-, h⟩
      · exact .inr (by simp [Router.harmless, h])
      · exact .inl h
      all_goals exact .inr (by simp [Router.harmless, h])

def putKey (query : Header) : HttpRequest := ⟨.put, [], ascii "/b/k", query, []⟩

def pathRouter : Router := ⟨[], toLower, responseOverrides, .refl _⟩

def partQuery : Header := [(ascii "uploadId", [ascii "u"]), (ascii "partNumber", [ascii "1"])]

theorem router_ignores_nothing_iff_part : ¬ Conflicting partQuery ∧
    ∃ g, Selected pathRouter (putKey partQuery) true .uploadPart g := by
  have hno : ¬ Conflicting partQuery := by
    rintro ⟨p, hp, hboth⟩
    revert p
    decide +kernel
  exact ⟨hno, (router_ignores_nothing_iff (by decide +kernel) (by decide +kernel)).mpr fun h => hno h.2⟩

/-- **A part is taken for tags.** The request names an upload and a part of it, and is accepted as a change of tags. -/
theorem upload_ignored : (pathRouter.route (putKey ((ascii "tagging", [[]]) :: partQuery))).2 = none ∧
    (pathRouter.route (putKey ((ascii "tagging", [[]]) :: partQuery))).1.op = .putObjectTagging ∧
    ¬ ∃ g, Selected pathRouter (putKey ((ascii "tagging", [[]]) :: partQuery)) true .putObjectTagging g := by
  refine ⟨by decide +kernel, by decide +kernel, ?_⟩
  rintro ⟨g, h⟩
  exact h.not_conflicting ⟨("tagging", "uploadId"), by decide, by decide +kernel, by decide +kernel⟩

end BlindBucket.S3api
