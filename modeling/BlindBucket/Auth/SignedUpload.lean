import BlindBucket.Auth.SignedBody
import BlindBucket.Auth.Framing

/-!
# Signed aws-chunked uploads

Both directions for a reader made by `NewChunkedReader` in one of the two signed modes: at
`io.EOF` it has released what the signer signed, and a body that is framed and signed as it
should be is released to its end. The second direction has limits that the length of a
chunk does not show: a line of 4096 bytes, and sixteen lines of trailer. The signature of
the trailer has to be on one of the sixteen.
-/

namespace BlindBucket.Auth

open ByteIo GoText SignedChain List

variable {P : Primitives} {σ : Type} [ByteReader σ GoErr] [LawfulReader σ]

/-- What a reader made from `res` for `n` bytes never changes. -/
def Result.params (res : Result) (n : Int) : Params :=
  ⟨res.payloadMode, res.signingKey, res.scope, res.timestamp, n.toNat⟩

/-- `res` is the result of verifying the request of `b`. -/
structure RequestOf (P : Primitives) (res : Result) (b : SignedBody) : Prop where
  timestamp : res.timestamp = b.timestamp
  scope : res.scope = b.scope
  seed : res.seed = P.sign res.signingKey (b.request P)

/-- The reader `NewChunkedReader` makes. -/
structure NewReader (body : σ) (res : Result) (n : Int) (c : ChunkedReader P σ) : Prop where
  src : content c.src = content body
  params : c.params = res.params n
  prevSig : c.prevSig = res.seed
  trailer : c.trailer = []
  decoded : c.decoded = 0
  remaining : c.remaining = 0
  length : 0 ≤ n

variable {res : Result} {n : Int} {c : ChunkedReader P σ} {x y : Bytes} {datas : List Bytes}

theorem newChunkedReader_ok {body : σ} (h : newChunkedReader P body res n = .ok c) (cs : List Expectation) :
    NewReader body res n (c.setChecksums cs) := by
  obtain ⟨_, h⟩ := else_ok h
  obtain ⟨hn, h⟩ := else_ok h
  cases h
  exact ⟨rfl, rfl, rfl, rfl, rfl, rfl, not_lt.mp hn⟩

theorem NewReader.readerFor {body : σ} {b : SignedBody} (h : NewReader body res n c) (hb : RequestOf P res b) :
    ReaderFor res.signingKey b c where
  signingKey := congrArg Params.signingKey h.params
  timestamp := (congrArg Params.timestamp h.params).trans hb.timestamp
  scope := (congrArg Params.scope h.params).trans hb.scope
  seed := h.prevSig.trans hb.seed

theorem Ended.announced {body : σ} {c' : ChunkedReader P σ} {out : Bytes} (he : Ended c c' out)
    (h : NewReader body res n c) : (out.length : Int) = n := by
  have hlen := he.length
  have hexp : c.expectedDecoded = n.toNat := congrArg Params.expectedDecoded h.params
  have hn := h.length
  rw [h.decoded] at hlen
  omega

theorem NewReader.framed {body : σ} {fs : List Frame} {e : Ending} (h : NewReader body res n c)
    (hd : SignedDecoding c c []) (htext : content body = bodyText P (res.params n) e res.seed fs)
    (hw : WithinLimits (res.params n) fs e) : Framed c e (bodyData fs) c (bodyData fs) := by
  refine ⟨hd.signed, ?_, [], rfl, hd.decoding⟩
  rw [h.params]
  refine .between fs h.remaining rfl ?_ hw
  rw [h.src, h.prevSig]
  exact htext

/-- **Signed aws-chunked bodies.** At `io.EOF` the bytes released are those of a body the signer
signed from this request to the empty chunk, as many as announced, and in the trailer mode the
trailer is the one signed. Conversely a body framed and signed as it should be, within the limits
on lines and with checksums that are right, is released to its end. -/
theorem signed_upload_exact (body : σ) (res : Result) (n : Int) (cs : List Expectation)
    (c : ChunkedReader P σ) (hnew : newChunkedReader P body res n = .ok c)
    (hmode : res.payloadMode.signed = true) :
    (∀ (L : Set SignedBody) (b : SignedBody), b ∈ L → RequestOf P res b →
      Trusted P res.signingKey L (content body) →
      ∀ ks : List Nat, (readMany (c.setChecksums cs) ks).err = some .eof →
        ∃ b', SignedFrom P L b b' (readMany (c.setChecksums cs) ks).out
          ∧ ((readMany (c.setChecksums cs) ks).out.length : Int) = n
          ∧ (res.payloadMode = .streamingSignedTrailer → ∃ fields, b'.trailer = some fields
              ∧ (readMany (c.setChecksums cs) ks).next.trailer = trailerHeaders [] fields))
    ∧ (∀ (fs : List Frame) (e : Ending), content body = bodyText P (res.params n) e res.seed fs →
      WithinLimits (res.params n) fs e → ((bodyData fs).length : Int) = n →
      settleChecksums P (cs.map (·.write (bodyData fs))) (trailerHeaders [] e.fields) = .ok () →
      ∀ ks : List Nat,
        (readMany (c.setChecksums cs) ks).out <+: bodyData fs
          ∧ (∀ err, (readMany (c.setChecksums cs) ks).err = some err →
              err = .eof ∧ (readMany (c.setChecksums cs) ks).out = bodyData fs)
          ∧ ((bodyData fs).length < (ks.filter (0 < ·)).length →
              (readMany (c.setChecksums cs) ks).err = some .eof)) := by
  have hn := newChunkedReader_ok hnew cs
  have hd := signedDecoding_new hnew hmode cs
  refine ⟨?_, ?_⟩
  · intro L b hb hreq ht ks heof
    have hrun := (signedDecoding_run (c.setChecksums cs)).readMany ks hd
    rw [heof] at hrun
    have hend := hrun rfl
    have hfor := hn.readerFor hreq
    rw [← hn.src] at ht
    by_cases htm : res.payloadMode = .streamingSignedTrailer
    · have htm' : (c.setChecksums cs).mode = .streamingSignedTrailer :=
        (congrArg Params.mode hn.params).trans htm
      obtain ⟨b', fields, hfrom, hfields, hheaders⟩ := hend.exists_trailer hb hfor ht htm'
      rw [hn.trailer] at hheaders
      exact ⟨b', hfrom, hend.ended.announced hn, fun _ => ⟨fields, hfields, hheaders⟩⟩
    · obtain ⟨b', hfrom⟩ := hend.exists_body hb hfor ht
      exact ⟨b', hfrom, hend.ended.announced hn, fun h => absurd h htm⟩
  · intro fs e htext hw hlen hsum ks
    have hI := hn.framed hd htext hw
    have hs : Settles (c.setChecksums cs) e (bodyData fs) := by
      refine ⟨?_, ?_⟩
      · rw [hn.decoded, show (c.setChecksums cs).expectedDecoded = n.toNat from
          congrArg Params.expectedDecoded hn.params]
        omega
      · rw [hn.trailer]
        exact hsum
    obtain ⟨hout, hstop, hend⟩ := (framed_release hs).reads_all ChunkedReader.progress (fun _ _ _ h => h) hI ks
    exact ⟨hout, fun err herr => ⟨(hstop err herr).1, (hstop err herr).2.1⟩, hend⟩

/-! ## A signer with five signatures -/

/-- Hashes that tell the given data apart from each other and from everything else. -/
def tableHashes (datas : List Bytes) : Primitives where
  sum _ x := [UInt8.ofNat (datas.idxOf x)]
  hmacSHA256 _ _ := replicate 32 0
  hmac_length := length_zeroSum
  base64 _ := none
  walk := id
  walk_perm := walk_id

/-- Signatures that tell the given strings apart from each other and from everything else. -/
def tableSigner (datas strings : List Bytes) : Primitives :=
  { tableHashes datas with
    hmacSHA256 := fun _ s => replicate 32 (UInt8.ofNat (strings.idxOf s + 1))
    hmac_length := fun _ _ => length_replicate .. }

/-- The signature of the string at place `i` of the table. -/
def tableSig (i : Nat) : Bytes := replicate 32 (UInt8.ofNat (i + 1))

theorem ofNat_inj {m n : Nat} (hm : m < 256) (hn : n < 256) (h : UInt8.ofNat m = UInt8.ofNat n) : m = n := by
  have h' := congrArg UInt8.toNat h
  rw [UInt8.toNat_ofNat', UInt8.toNat_ofNat', Nat.mod_eq_of_lt hm, Nat.mod_eq_of_lt hn] at h'
  exact h'

theorem eq_of_idxOf_eq {l : List Bytes} (hy : y ∈ l) (h : l.idxOf x = l.idxOf y) : x = y := by
  have hx : x ∈ l := by
    rw [← idxOf_lt_length_iff, h, idxOf_lt_length_iff]
    exact hy
  exact (idxOf_inj hx).mp h

theorem tableHashes_inj (hlen : datas.length < 256) (hy : y ∈ datas)
    (h : (tableHashes datas).sha256 x = (tableHashes datas).sha256 y) : x = y := by
  have hx := idxOf_le_length (a := x) (l := datas)
  have hy' := idxOf_le_length (a := y) (l := datas)
  exact eq_of_idxOf_eq hy (ofNat_inj (by omega) (by omega) (cons.inj h).1)

theorem tableSigner_inj {strings : List Bytes} (hlen : strings.length < 255) {key : Bytes}
    (hy : y ∈ strings) (h : (tableSigner datas strings).hmacSHA256 key x = (tableSigner datas strings).hmacSHA256 key y) :
    x = y := by
  have hx := idxOf_le_length (a := x) (l := strings)
  have hy' := idxOf_le_length (a := y) (l := strings)
  have hrep := (replicate_right_inj (by decide)).mp h
  have := ofNat_inj (by omega) (by omega) hrep
  exact eq_of_idxOf_eq hy (by omega)

section Example

variable (fields : List (Bytes × Bytes))

/-- The chunks that are signed. -/
def exampleSent : List Bytes := [[0x41], [0x42], []]

/-- The data that is signed: the chunks and a trailer. -/
def exampleData : List Bytes := exampleSent ++ [canonicalText fields]

/-- The strings that are signed: for the request, for the chunks and for the trailer. -/
def exampleStrings : List Bytes :=
  let H := tableHashes (exampleData fields)
  H.requestString [0x54] [0x53] [0x52] ::
    (exampleSent.mapIdx (fun i d => H.chunkString [0x54] [0x53] (hex (tableSig i)) d) ++
      [H.trailerString [0x54] [0x53] (hex (tableSig 3)) (canonicalText fields)])

def exampleSigner : Primitives := tableSigner (exampleData fields) (exampleStrings fields)

def exampleBody (h : ∀ q ∈ fields, WellFormedField q) : SignedBody where
  timestamp := [0x54]
  scope := [0x53]
  canonicalRequest := [0x52]
  chunks := [[0x41], [0x42]]
  closed := true
  trailer := some fields
  timestamp_line := by decide
  scope_line := by decide
  chunks_full := by simp
  trailer_closed _ := rfl
  trailer_fields fs hfs q hq := by
    cases hfs
    exact h q hq

def exampleResult : Result where
  payloadMode := .streamingSignedTrailer
  payloadHash := []
  signingKey := []
  seed := hex (tableSig 0)
  timestamp := [0x54]
  scope := [0x53]

def exampleFrame (b : UInt8) : Frame where
  data := [b]
  size := ⟨[0x31], by decide, rfl⟩
  full := cons_ne_nil _ _
  small := show 1 ≤ maxChunkSize by decide

def exampleFrames : List Frame := [exampleFrame 0x41, exampleFrame 0x42]

variable {fields} (h : ∀ q ∈ fields, WellFormedField q) (hd : (exampleStrings fields).Nodup)

theorem exampleStrings_length : (exampleStrings fields).length = 5 := rfl

theorem exampleData_length : (exampleData fields).length < 256 := show 4 < 256 by decide

include hd

theorem exampleSigner_hmac {i : Nat} {s : Bytes} (hi : (exampleStrings fields)[i]? = some s) :
    (exampleSigner fields).hmacSHA256 [] s = tableSig i := by
  obtain ⟨hlt, rfl⟩ := List.getElem?_eq_some_iff.mp hi
  show replicate 32 (UInt8.ofNat ((exampleStrings fields).idxOf _ + 1)) = _
  rw [hd.idxOf_getElem i hlt]
  rfl

theorem example_after (n : Nat) (hn : n ≤ exampleSent.length) :
    ((exampleBody fields h).chain (exampleSigner fields)).after
      ((exampleSigner fields).hmacSHA256 []) (exampleSent.take n) = tableSig n := by
  induction n with
  | zero => exact exampleSigner_hmac hd rfl
  | succ n ih =>
    rw [take_succ_eq_append_getElem hn, Chain.after_concat, ih (by omega)]
    refine exampleSigner_hmac hd ?_
    rw [exampleStrings, getElem?_cons_succ, getElem?_append_left (by rwa [length_mapIdx]),
      getElem?_mapIdx, getElem?_eq_getElem hn]
    rfl

/-- The strings of the table are those that were signed. -/
theorem example_signedStrings (s : Bytes) :
    s ∈ signedStrings (exampleSigner fields) [] {exampleBody fields h} ↔ s ∈ exampleStrings fields := by
  have hmem : exampleBody fields h ∈ ({exampleBody fields h} : Set SignedBody) := rfl
  have hlast := example_after h hd 3 (by decide)
  constructor
  · rintro (⟨_, ⟨b, rfl, rfl⟩, rfl | ⟨ds, d, ⟨rest, hsent⟩, rfl⟩⟩ | ⟨b, rfl, fs, hfs, rfl⟩)
    · exact mem_cons_self ..
    · have hsent : exampleSent = ds ++ d :: rest :=
        hsent.symm.trans (append_assoc ..)
      have hlt : ds.length < exampleSent.length := by rw [hsent, length_append, length_cons]; omega
      have hds := example_after h hd ds.length (by omega)
      rw [show exampleSent.take ds.length = ds by rw [hsent, take_left]] at hds
      rw [hds]
      refine mem_cons_of_mem _ (mem_append_left _ (mem_mapIdx.mpr ⟨ds.length, hlt, ?_⟩))
      rw [getElem_of_eq hsent, getElem_append_right (Nat.le_refl _)]
      simp only [Nat.sub_self, getElem_cons_zero]
      rfl
    · cases hfs
      rw [SignedBody.trailerString, show (exampleBody fields h).sent = exampleSent.take 3 from rfl, hlast]
      exact mem_cons_of_mem _ (mem_append_right _ mem_cons_self)
  · intro hs
    rcases mem_cons.mp hs with rfl | hs
    · exact .inl ⟨_, ⟨_, hmem, rfl⟩, .inl rfl⟩
    rcases mem_append.mp hs with hs | hs
    · obtain ⟨n, hn, rfl⟩ := mem_mapIdx.mp hs
      refine .inl ⟨_, ⟨_, hmem, rfl⟩, .inr ⟨exampleSent.take n, exampleSent[n], ?_, ?_⟩⟩
      · rw [← take_succ_eq_append_getElem hn]
        exact take_prefix _ _
      · rw [example_after h hd n (by omega)]
        rfl
    · rw [mem_singleton.mp hs]
      refine .inr ⟨_, hmem, fields, rfl, ?_⟩
      rw [SignedBody.trailerString, show (exampleBody fields h).sent = exampleSent.take 3 from rfl, hlast]
      rfl

/-- The assumptions about the cryptography hold of the table, for any body that does not show the
signature of everything else. -/
theorem example_trusted {body : Bytes}
    (hbody : ¬ hex (tableSig 5) <:+: body) :
    Trusted (exampleSigner fields) [] {exampleBody fields h} body where
  unforged s hs := by
    rw [example_signedStrings h hd]
    by_contra hn
    have hidx : (exampleStrings fields).idxOf s = 5 := idxOf_eq_length hn
    apply hbody
    have hsig : (exampleSigner fields).sign [] s = hex (tableSig 5) := by
      show hex (replicate 32 (UInt8.ofNat ((exampleStrings fields).idxOf s + 1))) = _
      rw [hidx]
      rfl
    rw [← hsig]
    exact hs
  signatures s _ t ht heq :=
    tableSigner_inj (exampleStrings_length ▸ by decide) ((example_signedStrings h hd t).mp ht) heq
  data := by
    rintro d - b rfl d' hd' heq
    exact tableHashes_inj exampleData_length (mem_append_left _ hd') heq
  fields := by
    rintro fs - b rfl fs' hfs' heq
    cases hfs'
    exact tableHashes_inj exampleData_length (mem_append_right _ mem_cons_self) heq

end Example

def exampleLine : TrailerLine where
  line := [0x61, 0x3A, 0x62]
  field := ([0x61], [0x62])
  one_line := by decide
  is_field := by decide
  not_signature := by decide

def exampleEnding (k : Nat) : Ending := ⟨⟨[0x30], by decide, by decide⟩, replicate k exampleLine, []⟩

theorem example_wellFormed (k : Nat) : ∀ q ∈ (exampleEnding k).fields, WellFormedField q := by
  intro q hq
  obtain ⟨l, hl, rfl⟩ := mem_map.mp hq
  rw [eq_of_mem_replicate hl]
  exact ⟨by decide, by decide⟩

/-- The body with a trailer of `k` lines, as it is sent. -/
def exampleText (k : Nat) : Bytes :=
  bodyText (exampleSigner (exampleEnding k).fields) (exampleResult.params 2) (exampleEnding k)
    exampleResult.seed exampleFrames

def exampleReader (k : Nat) : ChunkedReader (exampleSigner (exampleEnding k).fields) (BytesReader GoErr) where
  src := Bufio.newReaderSize ⟨exampleText k, .eof⟩ bodyBufSize
  mode := .streamingSignedTrailer
  signingKey := []
  scope := [0x53]
  timestamp := [0x54]
  prevSig := exampleResult.seed
  expectedDecoded := 2

theorem exampleReader_new (k : Nat) : newChunkedReader (exampleSigner (exampleEnding k).fields)
    (⟨exampleText k, .eof⟩ : BytesReader GoErr) exampleResult 2 = .ok (exampleReader k) := rfl

theorem example_request (k : Nat) (hd : (exampleStrings (exampleEnding k).fields).Nodup) :
    RequestOf (exampleSigner (exampleEnding k).fields) exampleResult
    (exampleBody _ (example_wellFormed k)) := by
  refine ⟨rfl, rfl, ?_⟩
  exact congrArg hex (exampleSigner_hmac hd (i := 0) rfl).symm

theorem exampleStrings_distinct_one : (exampleStrings (exampleEnding 1).fields).Nodup := by decide +kernel

theorem exampleStrings_distinct_sixteen : (exampleStrings (exampleEnding 16).fields).Nodup := by decide +kernel

theorem exampleText_unforged_one : ¬ hex (tableSig 5) <:+: exampleText 1 := by decide +kernel

theorem exampleText_unforged_sixteen : ¬ hex (tableSig 5) <:+: exampleText 16 := by decide +kernel

theorem example_limits_one : WithinLimits (exampleResult.params 2) exampleFrames (exampleEnding 1) where
  sizes := by decide
  lastSize := by decide
  lines l hl := by
    rw [eq_of_mem_replicate hl]
    decide
  count := by decide
  noTrailer h := absurd rfl h

theorem example_checksums_one : settleChecksums (exampleSigner (exampleEnding 1).fields) []
    (trailerHeaders [] (exampleEnding 1).fields) = .ok () := rfl

theorem example_checksums_sixteen : settleChecksums (exampleSigner (exampleEnding 16).fields) []
    (trailerHeaders [] (exampleEnding 16).fields) = .ok () := rfl

/-- Two chunks with a trailer of one line are released to their end, and are what was signed. -/
theorem signed_upload_exact_two_chunks : (readMany ((exampleReader 1).setChecksums []) [1, 1, 1]).err = some .eof
      ∧ ∃ b', SignedFrom (exampleSigner (exampleEnding 1).fields)
          {exampleBody _ (example_wellFormed 1)} (exampleBody _ (example_wellFormed 1)) b'
          (readMany ((exampleReader 1).setChecksums []) [1, 1, 1]).out
        ∧ b'.trailer = some (exampleEnding 1).fields := by
  obtain ⟨hsound, hcomplete⟩ := signed_upload_exact
    (⟨exampleText 1, .eof⟩ : BytesReader GoErr) exampleResult 2 [] (exampleReader 1)
    (exampleReader_new 1) rfl
  obtain ⟨-, -, hend⟩ := hcomplete exampleFrames (exampleEnding 1) rfl example_limits_one rfl
    example_checksums_one [1, 1, 1]
  have heof := hend (by decide)
  refine ⟨heof, ?_⟩
  obtain ⟨b', hfrom, -, htrailer⟩ := hsound {exampleBody _ (example_wellFormed 1)} _ rfl
    (example_request 1 exampleStrings_distinct_one)
    (example_trusted _ exampleStrings_distinct_one exampleText_unforged_one) [1, 1, 1] heof
  obtain rfl : b' = exampleBody _ (example_wellFormed 1) := hfrom.mem
  exact ⟨_, hfrom, rfl⟩

/-- **A trailer of sixteen fields is refused**, although the body is framed and signed as it should
be, has the announced length and no checksum that is wrong: the line with the signature is the
seventeenth, and is not read. -/
theorem sixteen_fields_refused : newChunkedReader (exampleSigner (exampleEnding 16).fields)
        (⟨exampleText 16, .eof⟩ : BytesReader GoErr) exampleResult 2 = .ok (exampleReader 16)
      ∧ exampleText 16 = bodyText (exampleSigner (exampleEnding 16).fields) (exampleResult.params 2)
          (exampleEnding 16) exampleResult.seed exampleFrames
      ∧ ((bodyData exampleFrames).length : Int) = 2
      ∧ settleChecksums (exampleSigner (exampleEnding 16).fields) []
          (trailerHeaders [] (exampleEnding 16).fields) = .ok ()
      ∧ RequestOf (exampleSigner (exampleEnding 16).fields) exampleResult (exampleBody _ (example_wellFormed 16))
      ∧ Trusted (exampleSigner (exampleEnding 16).fields) [] {exampleBody _ (example_wellFormed 16)} (exampleText 16)
      ∧ (readMany ((exampleReader 16).setChecksums []) [1, 1, 1]).err
          = some (.other (.wrapf .chunkSignature "%w: trailer signature" [])) :=
  ⟨exampleReader_new 16, rfl, rfl, example_checksums_sixteen,
    example_request 16 exampleStrings_distinct_sixteen,
    example_trusted _ exampleStrings_distinct_sixteen exampleText_unforged_sixteen, by decide +kernel⟩

end BlindBucket.Auth
