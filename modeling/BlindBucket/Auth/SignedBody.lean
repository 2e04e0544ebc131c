import BlindBucket.Auth.ChunkSigs
import BlindBucket.Lib.SignedChain

/-!
# A signed body is what its signer signed

The signer is described by what it has signed with one key: for any number of requests, the
request, some chunks after it, perhaps the empty chunk that closes the body, and perhaps a
trailer. Nothing is assumed about how often it signed a request or how far it got.

Two assumptions about the cryptography, each about the strings at hand and not about all
strings: whoever wrote the body had no signature but those of the signer, and neither the
signatures of signed strings nor the hashes of signed data collide.
-/

namespace BlindBucket.Auth

open ByteIo GoText SignedChain List

variable {P : Primitives} {σ : Type} [ByteReader σ GoErr] [LawfulReader σ]

/-- A trailer field that can be read back from the text that is signed. -/
def WellFormedField (q : Bytes × Bytes) : Prop := 0x3A ∉ q.1 ∧ 0x0A ∉ q.2

/-- What a signer has signed for a request. -/
structure SignedBody where
  timestamp : Bytes
  scope : Bytes
  canonicalRequest : Bytes
  /-- The chunks with data, in order. -/
  chunks : List Bytes
  /-- Whether the empty chunk after them was signed. -/
  closed : Bool
  /-- The fields of the trailer, if one was signed. -/
  trailer : Option (List (Bytes × Bytes))
  timestamp_line : 0x0A ∉ timestamp
  scope_line : 0x0A ∉ scope
  chunks_full : ∀ d ∈ chunks, d ≠ []
  trailer_closed : trailer ≠ none → closed = true
  trailer_fields : ∀ fields, trailer = some fields → ∀ q ∈ fields, WellFormedField q

/-- All the chunks that were signed, with the empty one. -/
def SignedBody.sent (b : SignedBody) : List Bytes :=
  b.chunks ++ if b.closed then [[]] else []

def SignedBody.request (P : Primitives) (b : SignedBody) : Bytes :=
  P.requestString b.timestamp b.scope b.canonicalRequest

def SignedBody.chain (P : Primitives) (b : SignedBody) : Chain Bytes Bytes Bytes where
  root := b.request P
  link sig d := P.chunkString b.timestamp b.scope (hex sig) d
  sent := b.sent

def SignedBody.trailerString (P : Primitives) (key : Bytes) (b : SignedBody)
    (fields : List (Bytes × Bytes)) : Bytes :=
  P.trailerString b.timestamp b.scope (hex ((b.chain P).after (P.hmacSHA256 key) b.sent))
    (canonicalText fields)

def chains (P : Primitives) (L : Set SignedBody) : Set (Chain Bytes Bytes Bytes) :=
  {b | ∃ s ∈ L, b = s.chain P}

/-- Every string the signer has signed with the key. -/
def signedStrings (P : Primitives) (key : Bytes) (L : Set SignedBody) : Set Bytes :=
  {s | s ∈ Signed (P.hmacSHA256 key) (chains P L)
    ∨ ∃ b ∈ L, ∃ fields, b.trailer = some fields ∧ s = b.trailerString P key fields}

/-- The assumptions about the cryptography, for a body from anyone. -/
structure Trusted (P : Primitives) (key : Bytes) (L : Set SignedBody) (body : Bytes) : Prop where
  /-- No signature in the body is of a string that was not signed. -/
  unforged : ∀ s, P.sign key s <:+: body → s ∈ signedStrings P key L
  /-- No two strings that were signed have the same signature. -/
  signatures : Set.InjOn (P.hmacSHA256 key) (signedStrings P key L)
  /-- No part of the body has the hash of other data that was signed. -/
  data : ∀ d, d <:+: body → ∀ b ∈ L, ∀ d' ∈ b.sent, P.sha256 d = P.sha256 d' → d = d'
  /-- No fields in the body have the hash of another trailer that was signed. -/
  fields : ∀ fields, (∀ q ∈ fields, FieldIn body q) → ∀ b ∈ L, ∀ fields',
    b.trailer = some fields' → P.sha256 (canonicalText fields) = P.sha256 (canonicalText fields') →
      canonicalText fields = canonicalText fields'

/-! ## Strings that are signed -/

theorem newline_not_mem_hex (bs : Bytes) : 0x0A ∉ hex bs := by
  intro h
  exact absurd (graphic_hex h).1 (by decide)

variable {alg sig sig' out : Bytes} {b b' : SignedBody} {c₀ c : ChunkedReader P σ} {ds : List Bytes}

theorem SignedBody.lines (b : SignedBody) (halg : 0x0A ∉ alg) (digests : List Bytes) :
    ∀ s ∈ alg :: b.timestamp :: b.scope :: digests.map hex, 0x0A ∉ s := by
  intro s hs
  rcases mem_cons.mp hs with rfl | hs
  · exact halg
  rcases mem_cons.mp hs with rfl | hs
  · exact b.timestamp_line
  rcases mem_cons.mp hs with rfl | hs
  · exact b.scope_line
  obtain ⟨digest, -, rfl⟩ := mem_map.mp hs
  exact newline_not_mem_hex digest

/-- The three kinds of strings are lines of one shape, and can be read back. -/
theorem lines_inj {alg' : Bytes} (halg : 0x0A ∉ alg) (halg' : 0x0A ∉ alg') (digests digests' : List Bytes) (h : join 0x0A (alg :: b.timestamp :: b.scope :: digests.map hex)
      = join 0x0A (alg' :: b'.timestamp :: b'.scope :: digests'.map hex)) :
    alg = alg' ∧ digests = digests' := by
  have hl := join_inj (b.lines halg digests) (b'.lines halg' digests') (by simp) (by simp) h
  simp only [cons.injEq] at hl
  obtain ⟨h1, -, -, h4⟩ := hl
  exact ⟨h1, map_injective_iff.mpr hex_injective h4⟩

theorem algorithm_line : 0x0A ∉ algorithm := by decide

theorem chunkPayloadAlgorithm_line : 0x0A ∉ chunkPayloadAlgorithm := by decide

theorem chunkTrailerAlgorithm_line : 0x0A ∉ chunkTrailerAlgorithm := by decide

theorem chunkString_inj {d d' : Bytes} (h : P.chunkString b.timestamp b.scope (hex sig) d
      = P.chunkString b'.timestamp b'.scope (hex sig') d') :
    sig = sig' ∧ P.sha256 d = P.sha256 d' := by
  obtain ⟨-, hl⟩ := lines_inj chunkPayloadAlgorithm_line chunkPayloadAlgorithm_line
    [sig, P.sha256 [], P.sha256 d] [sig', P.sha256 [], P.sha256 d'] h
  simp only [cons.injEq, and_true] at hl
  exact ⟨hl.1, hl.2.2⟩

theorem trailerString_inj {t t' : Bytes} (h : P.trailerString b.timestamp b.scope (hex sig) t
      = P.trailerString b'.timestamp b'.scope (hex sig') t') :
    sig = sig' ∧ P.sha256 t = P.sha256 t' := by
  obtain ⟨-, hl⟩ := lines_inj chunkTrailerAlgorithm_line chunkTrailerAlgorithm_line
    [sig, P.sha256 t] [sig', P.sha256 t'] h
  simp only [cons.injEq, and_true] at hl
  exact hl

theorem request_ne_chunkString (b b' : SignedBody) (sig d : Bytes) :
    b.request P ≠ P.chunkString b'.timestamp b'.scope (hex sig) d := by
  intro h
  obtain ⟨-, hl⟩ := lines_inj algorithm_line chunkPayloadAlgorithm_line
    [P.sha256 b.canonicalRequest] [sig, P.sha256 [], P.sha256 d] h
  exact absurd (congrArg length hl) (by simp)

theorem trailerString_ne_chunkString (b b' : SignedBody) (sig sig' t d : Bytes) :
    P.trailerString b.timestamp b.scope (hex sig) t
      ≠ P.chunkString b'.timestamp b'.scope (hex sig') d := by
  intro h
  obtain ⟨-, hl⟩ := lines_inj chunkTrailerAlgorithm_line chunkPayloadAlgorithm_line
    [sig, P.sha256 t] [sig', P.sha256 [], P.sha256 d] h
  exact absurd (congrArg length hl) (by simp)

theorem trailerString_ne_request (b b' : SignedBody) (sig t : Bytes) :
    P.trailerString b.timestamp b.scope (hex sig) t ≠ b'.request P := by
  intro h
  obtain ⟨-, hl⟩ := lines_inj chunkTrailerAlgorithm_line algorithm_line
    [sig, P.sha256 t] [P.sha256 b'.canonicalRequest] h
  exact absurd (congrArg length hl) (by simp)

theorem FieldIn.wellFormed {text : Bytes} {q : Bytes × Bytes} (h : FieldIn text q) :
    WellFormedField q := by
  obtain ⟨line, -, hnl, hfield⟩ := h
  obtain ⟨⟨name, value⟩, hcut, rfl⟩ := Option.map_eq_some_iff.mp hfield
  obtain ⟨rfl, hname⟩ := cut_eq_some hcut
  constructor
  · intro hm
    exact hname ((trimSpace_part name).subset (mem_toLower (by decide) hm))
  · intro hm
    refine hnl (mem_append_right _ (mem_cons_of_mem _ ?_))
    exact (trimSpace_part value).subset hm

/-- The text that is signed for a trailer shows the fields. -/
theorem canonicalText_inj {fields fields' : List (Bytes × Bytes)}
    (h : ∀ q ∈ fields, WellFormedField q) (h' : ∀ q ∈ fields', WellFormedField q)
    (heq : canonicalText fields = canonicalText fields') : fields = fields' := by
  have hcons : ∀ (q : Bytes × Bytes) (fs : List (Bytes × Bytes)),
      canonicalText (q :: fs) = q.1 ++ 0x3A :: (q.2 ++ 0x0A :: canonicalText fs) := by
    simp [canonicalText, canonicalField]
  induction fields generalizing fields' with
  | nil =>
    cases fields' with
    | nil => rfl
    | cons q' fs' =>
      rw [hcons] at heq
      simp [canonicalText] at heq
  | cons q fs ih =>
    cases fields' with
    | nil =>
      rw [hcons] at heq
      simp [canonicalText] at heq
    | cons q' fs' =>
      rw [hcons, hcons] at heq
      obtain ⟨hq1, hq2⟩ := h q mem_cons_self
      obtain ⟨hq1', hq2'⟩ := h' q' mem_cons_self
      have hname := congrArg (cut 0x3A) heq
      rw [cut_append hq1, cut_append hq1'] at hname
      obtain ⟨h1, hrest⟩ := Prod.mk.inj (Option.some.inj hname)
      have hvalue := congrArg (cut 0x0A) hrest
      rw [cut_append hq2, cut_append hq2'] at hvalue
      obtain ⟨h2, hfs⟩ := Prod.mk.inj (Option.some.inj hvalue)
      rw [ih (fun r hr => h r (mem_cons_of_mem _ hr))
        (fun r hr => h' r (mem_cons_of_mem _ hr)) hfs, Prod.ext h1 h2]

/-! ## The chain of a body that is accepted -/

variable {key : Bytes} {L : Set SignedBody} {body : Bytes}

theorem Trusted.distinct (h : Trusted P key L body) : Distinct (P.hmacSHA256 key) (chains P L) where
  inj := fun s hs t ht heq => h.signatures (.inl hs) (.inl ht) heq
  root_ne_link := by
    rintro _ ⟨b, -, rfl⟩ _ ⟨b', -, rfl⟩ sig d
    exact request_ne_chunkString b b' sig d
  link_sig := by
    rintro _ ⟨b, -, rfl⟩ _ ⟨b', -, rfl⟩ sig d sig' d' heq
    exact (chunkString_inj heq).1

/-- The reader was made for the request of `b`. -/
structure ReaderFor (key : Bytes) (b : SignedBody) (c₀ : ChunkedReader P σ) : Prop where
  signingKey : c₀.signingKey = key
  timestamp : c₀.timestamp = b.timestamp
  scope : c₀.scope = b.scope
  seed : c₀.prevSig = P.sign key (b.request P)

theorem ReaderFor.sigAfter (h : ReaderFor key b c₀) (ds : List Bytes) :
    c₀.sigAfter ds = hex ((b.chain P).after (P.hmacSHA256 key) ds) := by
  induction ds using reverseRecOn with
  | nil => exact h.seed
  | append_singleton ds d ih =>
    rw [ChunkedReader.sigAfter_concat, Chain.after_concat, ih, h.signingKey, h.timestamp, h.scope]
    rfl

/-- What the reader has verified are strings that were signed. -/
theorem Vouched.accepted (h : Vouched c₀ ds) (hfor : ReaderFor key b c₀) (ht : Trusted P key L (content c₀.src)) :
    Accepted (P.hmacSHA256 key) (chains P L) (b.chain P) ds := by
  intro ds' d hpre
  obtain ⟨-, hsig⟩ := h ds' d hpre
  rw [hfor.sigAfter, Chain.after_concat] at hsig
  rcases ht.unforged _ hsig with ⟨_, ⟨b', hb', rfl⟩, hroot | hlinks⟩ | ⟨b', -, fields, -, htrailer⟩
  · exact absurd hroot.symm (request_ne_chunkString b' b _ d)
  · exact ⟨_, ⟨b', hb', rfl⟩, hlinks⟩
  · exact absurd htrailer.symm (trailerString_ne_chunkString b' b _ _ _ d)

theorem Vouched.genuine (h : Vouched c₀ ds) (ht : Trusted P key L (content c₀.src)) :
    Genuine (chains P L) (b.chain P) ds := by
  rintro d hd _ ⟨b', hb', rfl⟩ d' hd' sig sig' heq
  obtain ⟨ds₁, ds₂, rfl⟩ := append_of_mem hd
  have hin := (h ds₁ d ⟨ds₂, by simp⟩).1
  exact ht.data d hin b' hb' d' hd' (chunkString_inj heq).2

/-- Chunks with data up to an empty one are all the chunks of a body that was closed. -/
theorem SignedBody.sent_closed (hds : ∀ d ∈ ds, d ≠ []) (h : ds ++ [[]] <+: b.sent) : b.closed = true ∧ ds = b.chunks := by
  have hnil : [] ∉ b.chunks := fun hm => b.chunks_full [] hm rfl
  obtain ⟨t, ht⟩ := h
  unfold SignedBody.sent at ht
  cases hc : b.closed with
  | false =>
    rw [hc] at ht
    exfalso
    apply hnil
    have hch : b.chunks = ds ++ [[]] ++ t := by rw [ht]; simp
    rw [hch]
    simp
  | true =>
    refine ⟨rfl, ?_⟩
    rw [hc, append_assoc] at ht
    rcases append_eq_append_iff.mp ht with ⟨a, hch, htail⟩ | ⟨a, hd, htail⟩
    · cases a with
      | nil => rw [hch, append_nil]
      | cons x a =>
        have hx : x = [] := by
          have := congrArg head? htail
          simpa using this.symm
        exfalso
        apply hnil
        rw [hch, hx]
        simp
    · cases a with
      | nil => rw [hd, append_nil]
      | cons x a =>
        have hx : x = [] := by
          have := congrArg head? htail
          simpa using this.symm
        exact absurd hx (hds x (by rw [hd]; simp))

/-- A body that was signed from the request of `b` on, of which `out` is all the data. -/
structure SignedFrom (P : Primitives) (L : Set SignedBody) (b b' : SignedBody) (out : Bytes) : Prop where
  mem : b' ∈ L
  request : b'.request P = b.request P
  closed : b'.closed = true
  data : out = b'.chunks.flatten

/-- Without a trailer to verify, the chunks are those of a body that was signed. -/
theorem SignedEnd.exists_body (h : SignedEnd c₀ c out) (hb : b ∈ L) (hfor : ReaderFor key b c₀)
    (ht : Trusted P key L (content c₀.src)) : ∃ b', SignedFrom P L b b' out := by
  obtain ⟨ds, fields, hout, hfull, hv, -⟩ := h.body
  obtain ⟨_, ⟨b', hb', rfl⟩, hroot, hpre⟩ :=
    ht.distinct.exists_chain ⟨b, hb, rfl⟩ (hv.accepted hfor ht) (hv.genuine ht)
  obtain ⟨hclosed, rfl⟩ := SignedBody.sent_closed hfull hpre
  exact ⟨b', hb', hroot, hclosed, hout⟩

/-- With one, the trailer is that of the same body. -/
theorem SignedEnd.exists_trailer (h : SignedEnd c₀ c out) (hb : b ∈ L) (hfor : ReaderFor key b c₀)
    (ht : Trusted P key L (content c₀.src)) (hmode : c₀.mode = .streamingSignedTrailer) :
    ∃ b' fields, SignedFrom P L b b' out ∧ b'.trailer = some fields
      ∧ c.trailer = trailerHeaders c₀.trailer fields := by
  obtain ⟨ds, fields, hout, hfull, hv, hheaders, hin, hsigned⟩ := h.body
  have hsig := hsigned hmode
  rw [hfor.sigAfter, hfor.signingKey, hfor.timestamp, hfor.scope] at hsig
  rcases ht.unforged _ hsig with
    ⟨_, ⟨b', hb', rfl⟩, hroot | ⟨ds', d', -, hlink⟩⟩ | ⟨b', hb', fields', hfields', hstr⟩
  · exact absurd hroot (trailerString_ne_request b b' _ _)
  · exact absurd hlink (trailerString_ne_chunkString b b' _ _ _ d')
  · obtain ⟨hafter, hsha⟩ := trailerString_inj hstr
    obtain ⟨hroot, hsent⟩ := ht.distinct.after_inj ⟨b, hb, rfl⟩ ⟨b', hb', rfl⟩
      (hv.accepted hfor ht) (hv.genuine ht) (prefix_refl _) hafter
    obtain ⟨hclosed, rfl⟩ := SignedBody.sent_closed hfull ⟨[], by
      rw [append_nil]; exact hsent⟩
    have htext := ht.fields fields hin b' hb' fields' hfields' hsha
    have hfs : fields = fields' := canonicalText_inj (fun q hq => (hin q hq).wellFormed)
      (b'.trailer_fields fields' hfields') htext
    exact ⟨b', fields', ⟨hb', hroot.symm, hclosed, hout⟩, hfields', by rw [hheaders, hfs]⟩

theorem signedDecoding_new {body : σ} {res : Result} {decodedLength : Int}
    (hnew : newChunkedReader P body res decodedLength = .ok c) (hmode : res.payloadMode.signed = true)
    (cs : List Expectation) :
    SignedDecoding (c.setChecksums cs) (c.setChecksums cs) [] := by
  obtain ⟨_, hnew⟩ := else_ok hnew
  obtain ⟨_, hnew⟩ := else_ok hnew
  cases hnew
  refine ⟨⟨rfl, rfl, rfl, ?_, rfl, rfl, suffix_refl _⟩, hmode, [], [], rfl, .inl ⟨rfl, rfl, ?_⟩⟩
  · have hwrite : (fun e : Expectation => e.write []) = id := by
      funext e
      simp [Expectation.write]
    rw [hwrite, map_id]
  · refine ⟨?_, by simp, rfl, suffix_refl _⟩
    intro ds' d hpre
    exact absurd (prefix_nil.mp hpre) (by simp)

end BlindBucket.Auth
