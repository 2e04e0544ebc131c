import BlindBucket.Proxy.ListBuffer
import BlindBucket.Proxy.Provenance
import BlindBucket.Proxy.Sequential

/-!
# What a write leaves, and what reads make of it

`Written` is one write through the gateway: its metadata, its data key, its segments and,
for a multipart object, its manifest. `Archive` is the set of all of them, each with a data
key of its own.

The provider answers every question about an object from one of the writes, of whatever key
and whatever age, and every request for its bytes with anything at all (`Genuine`). What a
read releases is then a beginning of the requested range of the plaintext of one write: the
one whose salts the index is asked about or, for the source of a copy, whose metadata the
`HEAD` was answered with.
-/

namespace BlindBucket

open ByteIo GoText BlindBucket.Stream List

variable {G : Gateway}

/-- What a write of `k` leaves at the provider, and the segments it is made of. -/
structure Written (V : Vault G) (k : ObjKey) where
  metadata : ObjectMeta.Metadata
  m : Meta
  parsed : parseObjectMeta G metadata = .ok m
  dek : Bytes
  unwrapped : G.unwrapDEK k.1 k.2 m = .ok dek
  segments : List Transcript
  sealed : ∀ t ∈ segments, t ∈ V.segments dek ∧ t.Complete
  count : ¬ (segments.length = 0 ∨ maxParts < segments.length)
  manifest : Option (Manifest.ID × Bytes)
  manifestID_eq : m.manifestID = manifest.map Prod.fst
  /-- A single-part object is one segment, the only one under its data key. -/
  single : manifest = none → ∃ t, segments = [t] ∧ t.header.params = ⟨m.log2ChunkSize, false, 0⟩
    ∧ ∀ t' ∈ V.segments dek, t' = t
  /-- The manifest of a multipart object verifies and describes the segments. -/
  multi : ∀ id body, manifest = some (id, body) → ∃ stored man, G.storedKey k.1 k.2 = .ok stored
    ∧ Manifest.unmarshal G.crypto G.hmac body dek k.1 stored id = .ok man ∧ man.hasSalts = true
    ∧ GoodParts m.log2ChunkSize man.parts
    ∧ Forall₂ (Part.Describes m.log2ChunkSize true) man.parts (segments.map Transcript.segment)

namespace Written

variable {V : Vault G} {k : ObjKey}

/-- The salts that identify the write. -/
def salts (o : Written V k) : List Salt := o.segments.map (·.header.salt)

def plain (o : Written V k) : Bytes := objectPlain (o.segments.map Transcript.segment)

/-- The bytes that are stored. -/
def bytes (o : Written V k) : Bytes := objectBytes G.crypto o.dek (o.segments.map Transcript.segment)

/-- The part list of a multipart object. -/
structure Lists (o : Written V k) (parts : List Part) : Prop where
  good : GoodParts o.m.log2ChunkSize parts
  desc : Forall₂ (Part.Describes o.m.log2ChunkSize true) parts (o.segments.map Transcript.segment)

variable (o : Written V k)

theorem secure : Secure G.crypto o.dek (V.segments o.dek) := V.secure _ _ _ _ o.unwrapped

theorem allSealed : AllSealed (V.segments o.dek) (o.segments.map Transcript.segment) := by
  intro i s hs
  rw [getElem?_map] at hs
  obtain ⟨t, ht, rfl⟩ := Option.map_eq_some_iff.mp hs
  exact ⟨t, (o.sealed t (mem_of_getElem? ht)).1, rfl⟩

theorem count_salts : ¬ (o.salts.length = 0 ∨ maxParts < o.salts.length) := by
  rw [salts, length_map]
  exact o.count

theorem single_of (h : o.m.manifestID = none) : ∃ t, o.segments = [t]
    ∧ t.header.params = ⟨o.m.log2ChunkSize, false, 0⟩ ∧ ∀ t' ∈ V.segments o.dek, t' = t :=
  o.single (Option.map_eq_none_iff.mp (o.manifestID_eq.symm.trans h))

theorem exists_segment : ∃ t, t ∈ o.segments :=
  exists_mem_of_length_pos (Nat.pos_of_ne_zero fun h => o.count (.inl h))

variable {o}

/-- Whatever a segment with one of the salts was sealed under, it is one of the write's. -/
theorem mem_of_salt {dek : Bytes} {t : Transcript} (ht : t ∈ V.segments dek)
    (hsalt : t.header.salt ∈ o.salts) : dek = o.dek ∧ t ∈ o.segments := by
  obtain ⟨t', ht', heq⟩ := mem_map.mp hsalt
  obtain ⟨hdek, rfl⟩ := V.distinct _ _ t' t (o.sealed t' ht').1 ht heq
  exact ⟨hdek.symm, ht'⟩

theorem plain_of_single {t : Transcript} (h : o.segments = [t]) : o.plain = t.plain := by
  rw [plain, h]
  exact append_nil _

theorem length_of_single {t : Transcript} (h : o.segments = [t]) :
    o.bytes.length = sealedLen t.header.params.log2ChunkSize t.plain.length := by
  rw [bytes, h, ← segmentBytes_length G.crypto o.dek]
  exact congrArg length (append_nil _)

theorem Lists.salts_eq {parts : List Part} (h : o.Lists parts) : parts.map Part.salt = o.salts := by
  have hall : ∀ {ps : List Part} {ts : List Transcript},
      Forall₂ (Part.Describes o.m.log2ChunkSize true) ps (ts.map Transcript.segment) →
        ps.map Part.salt = ts.map (·.header.salt) := by
    intro ps ts hps
    induction ts generalizing ps with
    | nil => rw [forall₂_nil_right_iff.mp hps]; rfl
    | cons t ts ih =>
      obtain ⟨p, ps, hp, hrest, rfl⟩ := forall₂_cons_right_iff.mp hps
      rw [map_cons, ih hrest, ← hp.salt rfl]
      rfl
  exact hall h.desc

/-- However its manifest came to be verified, it lists the segments of the write. -/
theorem lists {id id' : Manifest.ID} {body dek bucket stored : Bytes} {man : Manifest}
    (hman : o.manifest = some (id', body))
    (h : Manifest.unmarshal G.crypto G.hmac body dek bucket stored id = .ok man) :
    man.hasSalts = true ∧ o.Lists man.parts := by
  obtain ⟨stored', man', -, hun, hsalts, hgood, hdesc⟩ := o.multi id' body hman
  obtain rfl : man = man' := Except.ok.inj
    ((Manifest.unmarshal_ok h).2.2.symm.trans (Manifest.unmarshal_ok hun).2.2)
  exact ⟨hsalts, hgood, hdesc⟩

end Written

/-- All that was ever written through the gateway. -/
structure Archive (V : Vault G) where
  writes : Set (Σ k, Written V k)
  /-- Every write drew a data key of its own. -/
  fresh : ∀ p ∈ writes, ∀ q ∈ writes, p.2.dek = q.2.dek → p = q
  /-- Metadata unwraps to the data key of its write, if it unwraps at all. -/
  unwraps : ∀ p ∈ writes, ∀ bucket key dek, G.unwrapDEK bucket key p.2.m = .ok dek → dek = p.2.dek

/-- What was asked for: all of the object, or a range of it. -/
inductive Asked where
  | whole
  | range (spec : Bytes)
  | source (spec : Bytes)

/-- The bytes from the first to the last one of a range that was resolved. -/
def sliceOf (plain : Bytes) : Except ApiError (Int × Int) → Bytes
  | .ok (first, fin) => plain.extract first.toNat (fin.toNat + 1)
  | .error _ => []

/-- The part of an object's plaintext that was asked for. -/
def Asked.of (plain : Bytes) : Asked → Bytes
  | .whole => plain
  | .range spec => sliceOf plain (parseRange spec plain.length)
  | .source spec => sliceOf plain (sourceRange spec plain.length)

section Reads

variable {σ : Type} {V : Vault G} {A : Archive V} {k : ObjKey} {o : Written V k} {up : Upstream σ}
  {bucket key dek spec stored : Bytes} {m : Meta} {id : Manifest.ID} {size : Int} {l : Layout}

/-- The provider answers `HEAD` requests with what one of the writes left, and requests for
manifests with a manifest that was written. For the bytes of objects there is no condition. -/
structure Upstream.Genuine (up : Upstream σ) (A : Archive V) : Prop where
  head : ∀ bucket stored info, up.headObject bucket stored = .ok info →
    ∃ p ∈ A.writes, info.metadata = p.2.metadata ∧ info.contentLength = p.2.bytes.length
  manifest : ∀ bucket stored id body, up.manifest bucket stored id = .ok (body, none) →
    ∃ p ∈ A.writes, ∃ id', p.2.manifest = some (id', body)

structure Provider.Genuine (P : Provider σ) (A : Archive V) : Prop
    extends P.toUpstream.Genuine A where
  whole : ∀ bucket stored out, P.getWhole bucket stored = .ok out →
    ∃ p ∈ A.writes, out.metadata = p.2.metadata

/-- The provider answers the `HEAD` of the key from one write. -/
def Upstream.Shows (up : Upstream σ) (o : Written V k) : Prop :=
  ∀ stored info, G.storedKey k.1 k.2 = .ok stored → up.headObject k.1 stored = .ok info →
    info.metadata = o.metadata

/-- The provider shows no object at the key. -/
def Upstream.Absent (G : Gateway) (up : Upstream σ) (k : ObjKey) : Prop :=
  ∀ stored, G.storedKey k.1 k.2 = .ok stored → ∃ e, up.headObject k.1 stored = .error e

theorem salts_layoutOf (parts : List Part) (log2C : Nat) :
    (layoutOf parts log2C true).salts = parts.map Part.salt := by
  show (parts.mapIdx _).map _ = _
  apply ext_getElem?
  intro i
  rw [getElem?_map, getElem?_mapIdx, getElem?_map]
  cases parts[i]? <;> rfl

/-- A layout that is loaded is that of one of the writes. -/
theorem Upstream.Genuine.layout (hup : up.Genuine A)
    (h : multipartLayout G up bucket key m id size dek = .ok l) :
    ∃ p ∈ A.writes, ∃ parts, p.2.Lists parts ∧ ValidLog2 m.log2ChunkSize ∧ (∀ p ∈ parts, p.Sized)
      ∧ l = layoutOf parts m.log2ChunkSize true ∧ l.salts = p.2.salts := by
  obtain ⟨stored, body, man, -, hbody, hun, -, hlog, hsized, hl⟩ := multipartLayout_ok h
  obtain ⟨p, hp, id', hman⟩ := hup.manifest bucket stored id body hbody
  obtain ⟨hsalts, hlists⟩ := Written.lists hman hun
  rw [hsalts] at hl
  refine ⟨p, hp, man.parts, hlists, hlog, hsized, hl, ?_⟩
  rw [hl, salts_layoutOf, hlists.salts_eq]

variable {p q : Σ k, Written V k}

/-- Two writes with the same salts have a segment in common. -/
theorem Archive.eq_of_salts (hp : p ∈ A.writes) (hq : q ∈ A.writes) (h : p.2.salts = q.2.salts) :
    p = q := by
  obtain ⟨t, ht⟩ := p.2.exists_segment
  have hsalt : t.header.salt ∈ q.2.salts := h ▸ mem_map_of_mem ht
  exact A.fresh p hp q hq (Written.mem_of_salt (p.2.sealed t ht).1 hsalt).1

/-- The metadata of a write parses and unwraps as the write left it. -/
theorem Archive.opened (hp : p ∈ A.writes) (hm : parseObjectMeta G p.2.metadata = .ok m)
    (hdek : G.unwrapDEK bucket key m = .ok dek) : m = p.2.m ∧ dek = p.2.dek := by
  obtain rfl := Except.ok.inj (hm.symm.trans p.2.parsed)
  exact ⟨rfl, A.unwraps p hp bucket key dek hdek⟩

theorem Archive.eq_of_metadata (hp : p ∈ A.writes) (hq : q ∈ A.writes)
    (h : p.2.metadata = q.2.metadata) : p = q := by
  have hm : parseObjectMeta G p.2.metadata = .ok q.2.m := by rw [h, q.2.parsed]
  exact A.fresh p hp q hq (A.opened hp hm q.2.unwrapped).2.symm

theorem contents_eq {parts : List Part} (h : o.Lists parts) :
    contentsFrom (V.segments o.dek) o.m.log2ChunkSize parts 0 = o.plain := by
  have hall : ∀ {ps : List Part} {ts : List Transcript}, (∀ t ∈ ts, t ∈ V.segments o.dek) →
      Forall₂ (Part.Describes o.m.log2ChunkSize true) ps (ts.map Transcript.segment) →
        ps.map (Part.contentOf (V.segments o.dek) o.m.log2ChunkSize)
          = (ts.map Transcript.segment).map Segment.plain := by
    intro ps ts hts hps
    induction ts generalizing ps with
    | nil => rw [forall₂_nil_right_iff.mp hps]; rfl
    | cons t ts ih =>
      obtain ⟨p, ps, hp, hrest, rfl⟩ := forall₂_cons_right_iff.mp hps
      rw [map_cons, ih (fun u hu => hts u (mem_cons_of_mem t hu)) hrest]
      rw [Part.contentOf_eq o.secure (hts t mem_cons_self) ⟨hp.params, hp.salt rfl⟩]
      rfl
  unfold contentsFrom
  rw [drop_zero, hall (fun t ht => (o.sealed t ht).1) h.desc]
  rfl

theorem contents_nil {parts : List Part} {log2C : Nat} (h : o.Lists parts) (hdek : dek ≠ o.dek) :
    contentsFrom (V.segments dek) log2C parts 0 = [] := by
  unfold contentsFrom
  rw [flatten_eq_nil_iff]
  intro c hc
  obtain ⟨p, hp, rfl⟩ := mem_map.mp hc
  refine Part.contentOf_nil ?_
  rintro ⟨t, ht, hn⟩
  refine hdek (Written.mem_of_salt ht ?_).1
  rw [hn.salt, ← h.salts_eq]
  exact mem_map_of_mem hp

variable [ByteReader σ GoErr] [LawfulReader σ]

/-- **A whole `GET`.** -/
theorem openObject_begins {P : Provider σ} (hP : P.Genuine A) {salts : List Salt}
    {resp : WholeResponse σ} (h : openObject G P bucket key = .ok (salts, resp)) (ks : List Nat) :
    ∃ p ∈ A.writes, salts = p.2.salts ∧ (readMany resp.body ks).out <+: p.2.plain := by
  obtain ⟨stored, -, h⟩ := bind_ok h
  obtain ⟨out, hout, h⟩ := bind_ok h
  obtain ⟨m, hm, h⟩ := bind_ok h
  obtain ⟨p, hp, hmeta⟩ := hP.whole _ _ out (mapError_ok.mp hout)
  rw [hmeta] at hm
  split at h
  · obtain ⟨dek, layout, c₀, c, hdek, hlayout, hnew, hv, rfl, hbody⟩ := openMultipartObject_ok h
    obtain ⟨rfl, rfl⟩ := A.opened hp hm hdek
    have hs := p.2.secure
    obtain ⟨q, hq, parts, hlists, hlog, hsized, hl, hsalts⟩ := hP.toGenuine.layout hlayout
    have hat := ChainOpened.at hs hlog hlists.good.nonempty hl (.inr ⟨c₀, hnew, hv⟩)
    obtain ⟨rest, hdata, -⟩ := (chain_release hs hlog hsized hl).readMany ks hat
    refine ⟨q, hq, hsalts, ?_⟩
    rw [hbody, (readMany_wrapped WholeBody.chain (fun _ _ => rfl) ks c).1]
    refine IsPrefix.trans ⟨rest, hdata.symm⟩ ?_
    by_cases heq : p.2.dek = q.2.dek
    · obtain rfl := A.fresh p hp q hq heq
      exact contents_eq hlists ▸ prefix_refl _
    · rw [contents_nil hlists heq]
      exact nil_prefix
  next hnone =>
    obtain ⟨dek, r₀, r, hdek, hnew, hv, rfl, hbody⟩ := openSegmentObject_ok h
    obtain ⟨rfl, rfl⟩ := A.opened hp hm hdek
    obtain ⟨t, hseg, -, honly⟩ := p.2.single_of hnone
    obtain ⟨t', ht', hheader, hpre⟩ := verified_begins p.2.secure hnew hv
    obtain rfl := honly t' ht'
    refine ⟨p, hp, ?_, ?_⟩
    · rw [Written.salts, hseg, ← hheader]
      rfl
    · rw [hbody, (readMany_wrapped WholeBody.segment (fun _ _ => rfl) ks r).1,
        Written.plain_of_single hseg]
      exact hpre ks

/-- A range of a multipart object: the manifest has to be that of the metadata. -/
theorem Upstream.Genuine.chain_begins (hup : up.Genuine A) (hp : p ∈ A.writes)
    (hlayout : multipartLayout G up bucket key p.2.m id size p.2.dek = .ok l) {bucket' etag : Bytes}
    {first fin : Int} {c : List RangeSpan × RangeChain σ}
    (hchain : openChain G up bucket' stored etag p.2.dek l first fin = .ok c) :
    l.salts = p.2.salts ∧ l.totalPlain = p.2.plain.length
      ∧ ∀ ks, (readMany c.2 ks).out <+: p.2.plain.extract first.toNat (fin.toNat + 1) := by
  obtain ⟨q, hq, parts, hlists, hlog, -, rfl, hsalts⟩ := hup.layout hlayout
  have hgood : GoodParts p.2.m.log2ChunkSize parts :=
    ⟨hlog, hlists.good.nonempty, hlists.good.sized, hlists.good.ok⟩
  -- the first chunk was sealed under the data key of the metadata, with a salt of the manifest
  obtain ⟨t, ht, part, hpart, hsalt⟩ := openChain_salt p.2.secure hgood hchain
  have hmem : t.header.salt ∈ q.2.salts := by
    rw [hsalt, ← hlists.salts_eq]
    exact mem_map_of_mem hpart
  obtain rfl := A.fresh p hp q hq (Written.mem_of_salt ht hmem).1
  refine ⟨hsalts, ?_, fun ks => openChain_begins p.2.secure hgood hlists.desc p.2.allSealed hchain ks⟩
  rw [Written.plain, objectPlain_length hlists.desc]
  rfl

/-- A range of a single-part object: its data key opens no other segment. -/
theorem Written.segment_begins {rng : Stream.Range} {raw : Bytes} {body : σ} {r : RangeReader σ}
    {first fin plainLen : Int} (hnone : o.m.manifestID = none) (hsize : size = o.bytes.length)
    (hopened : openedSize size o.m.log2ChunkSize = .ok plainLen)
    (hmap : mapRange first fin size o.m.log2ChunkSize = .ok rng)
    (hopen : openRange G o.dek raw body rng = .ok r) :
    (∀ salt, saltFromHeader raw = some salt → [salt] = o.salts) ∧ plainLen = o.plain.length
      ∧ ∀ ks, (readMany r ks).out <+: o.plain.extract first.toNat (fin.toNat + 1) := by
  obtain ⟨t, hseg, hparams, honly⟩ := o.single_of hnone
  obtain ⟨t', ht', rfl, hall⟩ := openRange_begins o.secure hmap hopen
  obtain rfl := honly t' ht'
  rw [hsize, length_of_single hseg, show o.m.log2ChunkSize = t'.header.params.log2ChunkSize by
    rw [hparams]] at hmap hopened
  refine ⟨?_, ?_, fun ks => ?_⟩
  · intro salt hsalt
    rw [Header.saltFromHeader_raw] at hsalt
    rw [salts, hseg, ← Option.some.inj hsalt]
    rfl
  · rw [openedSize_sealedLen t'.header.valid.1 t'.plain_le] at hopened
    rw [plain_of_single hseg, Except.ok.inj hopened]
  · rw [plain_of_single hseg]
    exact (hall ks).trans (slice_of_mapRange hmap)

/-- **A ranged `GET`.** -/
theorem openObjectRange_begins (hup : up.Genuine A) {salts : List Salt} {resp : RangeResponse σ}
    (h : openObjectRange G up bucket key spec = .ok (salts, resp)) (ks : List Nat) :
    ∃ p ∈ A.writes, salts = p.2.salts
      ∧ (readMany resp.body ks).out <+: (Asked.range spec).of p.2.plain := by
  obtain ⟨stored, -, h⟩ := bind_ok h
  obtain ⟨info, hinfo, h⟩ := bind_ok h
  obtain ⟨m, hm, h⟩ := bind_ok h
  obtain ⟨p, hp, hmeta, hlen⟩ := hup.head _ _ info (mapError_ok.mp hinfo)
  rw [hmeta] at hm
  split at h
  · obtain ⟨dek, hdek, h⟩ := bind_ok h
    obtain ⟨rfl, rfl⟩ := A.opened hp hm hdek
    obtain ⟨stored', -, h⟩ := bind_ok h
    obtain ⟨layout, hlayout, h⟩ := bind_ok h
    obtain ⟨⟨first, fin⟩, hrange, h⟩ := bind_ok h
    obtain ⟨c, hchain, h⟩ := bind_ok h
    obtain ⟨rfl, rfl⟩ := Prod.mk.inj (Except.ok.inj h)
    obtain ⟨hsalts, htotal, hall⟩ := hup.chain_begins hp hlayout hchain
    refine ⟨p, hp, hsalts, ?_⟩
    rw [(readMany_chain ks c.2).1, Asked.of, ← htotal, hrange]
    exact hall ks
  next hnone =>
    obtain ⟨plainLen, dek, rng, raw, body, r, salt, hopened, hrange, hmap, hdek, hopen, hsalt, rfl,
      hbody⟩ := openSegmentRange_ok h
    obtain ⟨rfl, rfl⟩ := A.opened hp hm hdek
    obtain ⟨hsalts, htotal, hall⟩ := Written.segment_begins hnone hlen hopened hmap hopen
    refine ⟨p, hp, hsalts salt hsalt, ?_⟩
    rw [hbody, (readMany_segment ks r).1, Asked.of, ← htotal, hrange]
    exact hall ks

/-- **The source of a copied part.** -/
theorem uploadPartCopy_begins (hup : up.Genuine A) {src : SourceRange σ}
    (h : uploadPartCopy G up bucket key spec = .ok src) (ks : List Nat) :
    ∃ stored info, G.storedKey bucket key = .ok stored ∧ up.headObject bucket stored = .ok info
      ∧ ∃ p ∈ A.writes, info.metadata = p.2.metadata
        ∧ (readMany src.body ks).out <+: (Asked.source spec).of p.2.plain := by
  obtain ⟨stored, hstored, h⟩ := bind_ok h
  obtain ⟨info, hinfo, h⟩ := bind_ok h
  obtain ⟨src', hopen, h⟩ := bind_ok h
  obtain rfl : src' = src := by
    obtain ⟨_, h⟩ := else_ok h
    obtain ⟨sealed, -, h⟩ := bind_ok h
    obtain ⟨_, h⟩ := else_ok h
    exact Except.ok.inj h
  obtain ⟨p, hp, hmeta, hlen⟩ := hup.head _ _ info (mapError_ok.mp hinfo)
  refine ⟨stored, info, hstored, mapError_ok.mp hinfo, p, hp, hmeta, ?_⟩
  obtain ⟨m, hm, h⟩ := bind_ok hopen
  rw [hmeta] at hm
  obtain ⟨dek, hdek, h⟩ := bind_ok h
  obtain ⟨rfl, rfl⟩ := A.opened hp hm hdek
  split at h
  · obtain ⟨stored', -, h⟩ := bind_ok h
    obtain ⟨layout, hlayout, h⟩ := bind_ok h
    obtain ⟨⟨first, fin⟩, hrange, h⟩ := bind_ok h
    dsimp only at h
    split at h
    · rw [← Except.ok.inj h, readMany_empty]
      exact nil_prefix
    · obtain ⟨c, hchain, h⟩ := bind_ok h
      rw [← Except.ok.inj h]
      obtain ⟨-, htotal, hall⟩ := hup.chain_begins hp hlayout hchain
      rw [(readMany_chain ks c.2).1, Asked.of, ← htotal, hrange]
      exact hall ks
  next hnone =>
    obtain ⟨plainLen, hopened, h⟩ := bind_ok h
    obtain ⟨⟨first, fin⟩, hrange, h⟩ := bind_ok h
    dsimp only at h
    split at h
    · rw [← Except.ok.inj h, readMany_empty]
      exact nil_prefix
    · obtain ⟨rng, hmap, h⟩ := bind_ok h
      obtain ⟨⟨raw, body⟩, hfetch, h⟩ := bind_ok h
      obtain ⟨r, hr, h⟩ := bind_ok h
      rw [← Except.ok.inj h]
      obtain ⟨-, htotal, hall⟩ := Written.segment_begins hnone hlen (mapError_ok.mp hopened)
        (mapError_ok.mp hmap) hr
      rw [(readMany_segment ks r).1, Asked.of, ← htotal, hrange]
      exact hall ks

/-- What reads of a key release is a beginning of what was asked for, of one write. The salts that a
`GET` asks the index about are all those of the write, in their order. -/
structure ReleasesWritten (A : Archive V) (P : Provider σ) (bucket key spec : Bytes) (ks : List Nat) :
    Prop where
  whole : ∀ salts resp, openObject G P bucket key = .ok (salts, resp) →
    ∃ p ∈ A.writes, salts = p.2.salts ∧ (readMany resp.body ks).out <+: p.2.plain
  ranged : ∀ salts resp, openObjectRange G P.toUpstream bucket key spec = .ok (salts, resp) →
    ∃ p ∈ A.writes, salts = p.2.salts
      ∧ (readMany resp.body ks).out <+: (Asked.range spec).of p.2.plain
  /-- The source of a copied part: the write is the one that the `HEAD` was answered from. -/
  copied : ∀ src, uploadPartCopy G P.toUpstream bucket key spec = .ok src →
    ∃ stored info, G.storedKey bucket key = .ok stored ∧ P.headObject bucket stored = .ok info
      ∧ ∃ p ∈ A.writes, info.metadata = p.2.metadata
        ∧ (readMany src.body ks).out <+: (Asked.source spec).of p.2.plain

/-- **A read releases a beginning of what was asked for**, whatever bodies the provider sends. -/
theorem reads_release_written {P : Provider σ} (hP : P.Genuine A) (bucket key spec : Bytes)
    (ks : List Nat) : ReleasesWritten A P bucket key spec ks where
  whole _ _ h := openObject_begins hP h ks
  ranged _ _ h := openObjectRange_begins hP.toGenuine h ks
  copied _ h := uploadPartCopy_begins hP.toGenuine h ks

end Reads

/-! ## Two writes of one key -/

/-- A provider that answers from one write of a key. -/
def Written.upstream {V : Vault G} {k : ObjKey} (o : Written V k) : Upstream (BytesReader GoErr) where
  headObject _ _ := .ok ⟨o.metadata, o.bytes.length, []⟩
  getObject _ _ range _ := .ok ⟨o.bytes.extract range.1.toNat (range.2.toNat + 1), .eof⟩
  manifest _ _ id :=
    match o.manifest with
    | none => .error .notFound
    | some (id', body) => if id = id' then .ok (body, none) else .error .notFound

section Upstream

variable {V : Vault G} {k : ObjKey} (o : Written V k)

theorem Written.upstream_manifest {bucket stored body : Bytes} {id : Manifest.ID}
    (h : o.upstream.manifest bucket stored id = .ok (body, none)) : o.manifest = some (id, body) := by
  unfold Written.upstream at h
  split at h
  · simp at h
  next id' body' hman =>
    obtain ⟨hid, h⟩ := then_ok h
    rw [hman, hid, (Prod.mk.inj (Except.ok.inj h)).1]

theorem Written.upstream_shows : o.upstream.Shows o := by
  intro stored info _ h
  rw [← Except.ok.inj h]

theorem Written.upstream_genuine {A : Archive V} (ho : ⟨k, o⟩ ∈ A.writes) : o.upstream.Genuine A where
  head := by
    intro bucket stored info h
    rw [← Except.ok.inj h]
    exact ⟨_, ho, rfl, rfl⟩
  manifest _ _ id _ h := ⟨_, ho, id, o.upstream_manifest h⟩

end Upstream

def byteSegment (b : UInt8) : Transcript :=
  Transcript.finished (Header.make ⟨minLog2ChunkSize, false, 0⟩ (saltOf b) ⟨by decide, rfl⟩) [b]
    (show 1 ≤ maxPlaintextSize by decide)

theorem byteSegment_inj {b c : UInt8}
    (h : (byteSegment b).header.salt = (byteSegment c).header.salt) : b = c :=
  congrArg (fun s : Salt => s.val.headD 0) h

/-- Its data key. -/
def byteDEK (b : UInt8) : Bytes := replicate Stream.keySize b

/-- The chunks of the two segments that were ever written, as the cipher saw them. -/
def twoRecords : List Aead.Record :=
  [1, 2].flatMap fun b => (byteSegment b).chunks.map fun c =>
    ⟨byteDEK b, chunkNonce c.index c.final, (byteSegment b).header.raw, c.plain⟩

/-- A gateway whose key provider wraps a data key by writing other bytes behind it. -/
def twoGateway : Gateway where
  crypto := ⟨fun dek _ _ _ => dek, Aead.tableAead Stream.tagSize twoRecords⟩
  hmac := ⟨fun _ _ => replicate Manifest.macSize 0, Manifest.length_zeroMac⟩
  base64 := ObjectMeta.rawURLEncoding.decode
  log2C := minLog2ChunkSize
  storedKey _ key := .ok key
  unwrapDEK _ _ m := .ok (m.wrappedDEK.take Stream.keySize)
  checkFreshness _ _ _ := .ok ()

def twoSegments (dek : Bytes) : Set Transcript :=
  {t | ∃ b ∈ [1, 2], dek = byteDEK b ∧ t = byteSegment b}

theorem twoSegments_secure (dek : Bytes) : Secure twoGateway.crypto dek (twoSegments dek) where
  ideal := by
    rintro k n c a p ⟨salt, hk⟩
    rw [show k = dek from hk]
    show (Aead.gateAead Stream.tagSize (fun r => decide (r ∈ twoRecords))).openBytes dek n c a = some p ↔ _
    rw [Aead.gateAead_openBytes_iff, decide_eq_true_iff]
    refine and_congr ?_ Iff.rfl
    simp only [twoRecords, mem_flatMap, mem_map]
    constructor
    · rintro ⟨b, hb, c, hc, heq⟩
      obtain ⟨rfl, -⟩ := Aead.Record.mk.inj heq
      exact ⟨byteSegment b, ⟨b, hb, rfl, rfl⟩, c, hc, heq.symm⟩
    · rintro ⟨t, ⟨b, hb, rfl, rfl⟩, c, hc, heq⟩
      exact ⟨b, hb, c, hc, heq.symm⟩
  distinct := by
    rintro _ ⟨b, -, -, rfl⟩ _ ⟨c, -, -, rfl⟩ hsalt
    rw [byteSegment_inj hsalt]

def twoVault : Vault twoGateway where
  segments := twoSegments
  secure _ _ _ dek _ := twoSegments_secure dek
  distinct := by
    rintro dek dek' _ _ ⟨b, -, rfl, rfl⟩ ⟨c, -, rfl, rfl⟩ hsalt
    obtain rfl := byteSegment_inj hsalt
    exact ⟨rfl, rfl⟩

def twoKey : ObjKey := ([0x62], [0x6B])

def byteMetadata (b : UInt8) : ObjectMeta.Metadata :=
  [(ObjectMeta.metaVersion, ascii "1"), (ObjectMeta.metaKeyID, ascii "k"),
    (ObjectMeta.metaDEK, ObjectMeta.rawURLEncoding.encode (replicate ObjectMeta.wrappedDEKSize b)),
    (ObjectMeta.metaChunkSize, decimal minLog2ChunkSize)]

def byteMeta (b : UInt8) : Meta :=
  ⟨1, ascii "k", replicate ObjectMeta.wrappedDEKSize b, minLog2ChunkSize, true, none⟩

/-- One of the segments, as `PutObject` stores it. -/
def byteObject (b : UInt8) (hb : b ∈ [1, 2])
    (hparsed : parseObjectMeta twoGateway (byteMetadata b) = .ok (byteMeta b)) :
    Written twoVault twoKey where
  metadata := byteMetadata b
  m := byteMeta b
  parsed := hparsed
  dek := byteDEK b
  unwrapped := rfl
  segments := [byteSegment b]
  sealed := by
    intro t ht
    rw [mem_singleton.mp ht]
    exact ⟨⟨b, hb, rfl, rfl⟩, Transcript.finished_complete ..⟩
  count := by simp [maxParts]
  manifest := none
  manifestID_eq := rfl
  single := by
    intro _
    refine ⟨_, rfl, rfl, ?_⟩
    rintro _ ⟨c, -, hdek, rfl⟩
    rw [show b = c from congrArg (headD · 0) hdek]
  multi := by
    intro id body h
    simp at h

def firstObject : Written twoVault twoKey := byteObject 1 (by decide) (by decide +kernel)

def secondObject : Written twoVault twoKey := byteObject 2 (by decide) (by decide +kernel)

def twoArchive : Archive twoVault where
  writes := {⟨twoKey, firstObject⟩, ⟨twoKey, secondObject⟩}
  fresh := by
    have hne : firstObject.dek ≠ secondObject.dek := by decide
    rintro p (rfl | rfl) q (rfl | rfl) h
    · rfl
    · exact absurd h hne
    · exact absurd h.symm hne
    · rfl
  unwraps := by
    rintro p (rfl | rfl) bucket key dek h
    · exact (Except.ok.inj h).symm
    · exact (Except.ok.inj h).symm

/-- It answers whole reads from that write as well. -/
def Written.provider {V : Vault G} {k : ObjKey} (o : Written V k) : Provider (BytesReader GoErr) where
  toUpstream := o.upstream
  getWhole _ _ := .ok ⟨o.metadata, o.bytes.length, ⟨o.bytes, .eof⟩⟩

theorem Written.provider_genuine {V : Vault G} {A : Archive V} {k : ObjKey} {o : Written V k}
    (ho : ⟨k, o⟩ ∈ A.writes) : o.provider.Genuine A where
  toGenuine := o.upstream_genuine ho
  whole := by
    intro bucket stored out h
    rw [← Except.ok.inj h]
    exact ⟨_, ho, rfl⟩

/-- The three reads of the second write. -/
theorem reads_release_written_second :
    ((openObject twoGateway secondObject.provider twoKey.1 twoKey.2).toOption.map
        (fun r => (r.1, (readMany r.2.body [1]).out)) = some ([saltOf 2], [2])
      ∧ (openObjectRange twoGateway secondObject.upstream twoKey.1 twoKey.2 (suffixSpec 1)).toOption.map
        (fun r => (r.1, (readMany r.2.body [1]).out)) = some ([saltOf 2], [2])
      ∧ (uploadPartCopy twoGateway secondObject.upstream twoKey.1 twoKey.2 []).toOption.map
        (fun r => (readMany r.body [1]).out) = some [2])
    ∧ ∀ spec, ReleasesWritten twoArchive secondObject.provider twoKey.1 twoKey.2 spec [1] := by
  have hmem : (⟨twoKey, secondObject⟩ : Σ k, Written twoVault k) ∈ twoArchive.writes := .inr rfl
  refine ⟨by decide +kernel, fun spec => ?_⟩
  exact reads_release_written (Written.provider_genuine hmem) twoKey.1 twoKey.2 spec [1]

end BlindBucket
