import BlindBucket.Proxy.RangeAnswers
import BlindBucket.Verify.WholeRead

/-!
# `GET` of a whole object

`getObject` without a range: one request to the provider, and for a multipart object one
more for its manifest. The decoder verifies its first chunk and the rollback index is
asked before anything is answered.
-/

namespace BlindBucket

open ByteIo BlindBucket.Stream

/-- What a `GET` of a whole object answers. -/
structure GetOutput (σ : Type) where
  metadata : ObjectMeta.Metadata
  contentLength : Int
  body : σ

/-- The provider, as one request of a client meets it, whole reads included. -/
structure Provider (σ : Type) extends Upstream σ where
  getWhole : (bucket key : Bytes) → Except UpErr (GetOutput σ)

variable {G : Gateway} {bucket key dek : Bytes} {m : Meta}

theorem multipartLayout_ok {σ : Type} {up : Upstream σ} {id : Manifest.ID} {size : Int} {layout : Layout}
    (h : multipartLayout G up bucket key m id size dek = .ok layout) :
    ∃ stored body man, G.storedKey bucket key = .ok stored
      ∧ up.manifest bucket stored id = .ok (body, none)
      ∧ Manifest.unmarshal G.crypto G.hmac body dek bucket stored id = .ok man
      ∧ man.parts ≠ [] ∧ ValidLog2 m.log2ChunkSize ∧ (∀ p ∈ man.parts, p.Sized)
      ∧ layout = layoutOf man.parts m.log2ChunkSize man.hasSalts := by
  obtain ⟨stored, hstored, h⟩ := bind_ok h
  obtain ⟨man, hman, h⟩ := bind_ok h
  obtain ⟨l, hl, h⟩ := bind_ok h
  obtain ⟨_, -, h⟩ := bind_ok h
  cases h
  obtain ⟨hne, hlog, hsized, hlayout⟩ := newLayout_ok_iff.mp (mapError_ok.mp hl)
  unfold loadManifest at hman
  split at hman
  · simp at hman
  · simp at hman
  next body cut hbody =>
    obtain ⟨_, hman⟩ := else_ok hman
    split at hman
    · simp at hman
    · exact ⟨stored, body, man, hstored, hbody, mapError_ok.mp hman, hne, hlog, hsized, hlayout⟩

variable {σ : Type} [ByteReader σ GoErr] [LawfulReader σ]

/-- What the bytes of an answer are read from. -/
inductive WholeBody (σ : Type) [ByteReader σ GoErr] [LawfulReader σ] where
  | segment (r : DecryptReader σ)
  | chain (c : SegmentChain σ)

instance : ByteReader (WholeBody σ) GoErr where
  read b k :=
    match b with
    | .segment r => ⟨(read r k).out, (read r k).err, .segment (read r k).next⟩
    | .chain c => ⟨(read c k).out, (read c k).err, .chain (read c k).next⟩

/-- An answer: `Content-Length` and the body. -/
structure WholeResponse (σ : Type) [ByteReader σ GoErr] [LawfulReader σ] where
  length : Int
  body : WholeBody σ

/-- `verify.OpenSegment`: the decoder with its first chunk verified, and the chunk size that its
header states. -/
def verifyOpenSegment (G : Gateway) (body : σ) (dek : Bytes) (m : Meta) :
    Except ApiError (DecryptReader σ × Nat) := do
  let r ← (newDecryptReader G.crypto body dek anySegment).mapError
    fun _ => .integrity "segment header"
  match r.verifyFirst with
  | (some _, _) => .error (.integrity "first chunk")
  | (none, r) =>
    let authenticated := r.header.params.log2ChunkSize
    if m.hasChunkSize = true ∧ m.log2ChunkSize ≠ authenticated then
      .error (.integrity "chunk size")
    else .ok (r, authenticated)

/-- `getObject` for a single-part object, up to the question to the index. -/
def openSegmentObject (G : Gateway) (bucket key : Bytes) (out : GetOutput σ) (m : Meta) :
    Except ApiError (List Salt × WholeResponse σ) := do
  let dek ← G.unwrapDEK bucket key m
  let (r, log2C) ← verifyOpenSegment G out.body dek m
  let plainLen ← (openedSize out.contentLength log2C).mapError fun _ => .integrity "ciphertext size"
  .ok ([r.header.salt], ⟨plainLen, .segment r⟩)

/-- `getMultipartObject` up to that question. -/
def openMultipartObject (G : Gateway) (P : Provider σ) (bucket key : Bytes) (out : GetOutput σ)
    (m : Meta) (id : Manifest.ID) : Except ApiError (List Salt × WholeResponse σ) := do
  let dek ← G.unwrapDEK bucket key m
  let layout ← multipartLayout G P.toUpstream bucket key m id out.contentLength dek
  let c ← (newSegmentChain G.crypto out.body dek layout).mapError
    fun _ => .integrity "segment header"
  match c.verifyFirst with
  | (some _, _) => .error (.integrity "first chunk")
  | (none, c) => .ok (layout.salts, ⟨layout.totalPlain, .chain c⟩)

/-- `getObject` without a range, up to that question. -/
def openObject (G : Gateway) (P : Provider σ) (bucket key : Bytes) :
    Except ApiError (List Salt × WholeResponse σ) := do
  let stored ← G.storedKey bucket key
  let out ← (P.getWhole bucket stored).mapError .upstream
  let m ← parseObjectMeta G out.metadata
  match m.manifestID with
  | some id => openMultipartObject G P bucket key out m id
  | none => openSegmentObject G bucket key out m

/-- `getObject` without a range. -/
def getObject (G : Gateway) (P : Provider σ) (bucket key : Bytes) : Except ApiError (WholeResponse σ) := do
  let q ← openObject G P bucket key
  askIndex G bucket key q

/-! ## Success read back -/

theorem verifyOpenSegment_ok {body : σ} {q : DecryptReader σ × Nat} (h : verifyOpenSegment G body dek m = .ok q) :
    ∃ r, newDecryptReader G.crypto body dek anySegment = .ok r ∧ r.verifyFirst = (none, q.1) := by
  obtain ⟨r, hr, h⟩ := bind_ok h
  refine ⟨r, mapError_ok.mp hr, ?_⟩
  split at h
  · simp at h
  next r' hv =>
    obtain ⟨_, h⟩ := else_ok h
    rw [hv, ← Except.ok.inj h]

variable {out : GetOutput σ} {resp : WholeResponse σ}

theorem openSegmentObject_ok {salts : List Salt} (h : openSegmentObject G bucket key out m = .ok (salts, resp)) :
    ∃ dek r₀ r, G.unwrapDEK bucket key m = .ok dek
      ∧ newDecryptReader G.crypto out.body dek anySegment = .ok r₀ ∧ r₀.verifyFirst = (none, r)
      ∧ salts = [r.header.salt] ∧ resp.body = .segment r := by
  obtain ⟨dek, hdek, h⟩ := bind_ok h
  obtain ⟨⟨r, log2C⟩, hr, h⟩ := bind_ok h
  obtain ⟨plainLen, -, h⟩ := bind_ok h
  cases h
  obtain ⟨r₀, hnew, hv⟩ := verifyOpenSegment_ok hr
  exact ⟨dek, r₀, r, hdek, hnew, hv, rfl, rfl⟩

theorem openMultipartObject_ok {P : Provider σ} {id : Manifest.ID} {salts : List Salt}
    (h : openMultipartObject G P bucket key out m id = .ok (salts, resp)) :
    ∃ dek layout c₀ c, G.unwrapDEK bucket key m = .ok dek
      ∧ multipartLayout G P.toUpstream bucket key m id out.contentLength dek = .ok layout
      ∧ newSegmentChain G.crypto out.body dek layout = .ok c₀ ∧ c₀.verifyFirst = (none, c)
      ∧ salts = layout.salts ∧ resp.body = .chain c := by
  obtain ⟨dek, hdek, h⟩ := bind_ok h
  obtain ⟨layout, hlayout, h⟩ := bind_ok h
  obtain ⟨c₀, hc, h⟩ := bind_ok h
  split at h
  · simp at h
  next c hv =>
    cases h
    exact ⟨dek, layout, c₀, c, hdek, hlayout, mapError_ok.mp hc, hv, rfl, rfl⟩

end BlindBucket
