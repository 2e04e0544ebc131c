import BlindBucket.Auth.Body
import BlindBucket.Auth.Settle

/-!
# Which checksums are enforced

When a body has been read to `io.EOF`, it has been compared with one value for each hash it
was given a value for. In an aws-chunked body a value that arrives in the trailer takes the
place of the one in the request headers, whether it was announced or not; of a header that is
sent twice the first value counts; and the announcement is read from the first line that
makes one. A client that declares values which differ from those compared has a body accepted
that does not match them.
-/

namespace BlindBucket.Auth

open ByteIo GoText List

variable {P : Primitives} {σ : Type} [ByteReader σ GoErr] [LawfulReader σ] {r : Request σ} {res : Result}
  {b : BodyReader P σ}

/-! ## Runs of a body reader -/

/-- The data of a request, by the bytes of its body alone: in an aws-chunked body the data of the
chunks, in any other body all of it. -/
def payloadOf (r : Request σ) (res : Result) : Bytes :=
  if res.payloadMode.streaming then chunkData res.payloadMode.signed (content r.body)
  else content r.body

/-- `b` is what `b₀` becomes when `out` of the data `payload` has been read from it and nothing has
failed. -/
def BodyReading (b₀ : BodyReader P σ) (payload : Bytes) (b : BodyReader P σ) (out : Bytes) : Prop :=
  b.err = none ∧ b.verified = false ∧
    match b₀.src, b.src with
    | .chunked c₀, .chunked c => Decoding c₀ c out ∧ out ++ c.pending = payload
    | .plain _, .plain body =>
      b.checksums = b₀.checksums.map (·.write out) ∧ out ++ content body = payload
    | _, _ => False

/-- `b` is what `b₀` becomes when `out` and then the end has been read from it. -/
def BodyEnded (b₀ b : BodyReader P σ) (out : Bytes) : Prop :=
  match b₀.src, b.src with
  | .chunked c₀, .chunked c => Ended c₀ c out
  | .plain _, .plain _ => verifyAll P (b₀.checksums.map (·.write out)) = .ok ()
  | _, _ => False

/-- A read that reports `io.EOF` comes from a source that did, with everything verified. -/
theorem BodyReader.read_cases (herr : b.err = none) (hv : b.verified = false) (k : Nat) :
    ((b.readSource k).err = none ∧ read b k = b.readSource k)
    ∨ ((b.readSource k).err = some .eof ∧ (b.readSource k).next.verify = .ok ()
        ∧ read b k = ⟨(b.readSource k).out, some .eof, { (b.readSource k).next with verified := true }⟩)
    ∨ ∃ e, (read b k).err = some e ∧ e ≠ .eof := by
  have hver : (b.readSource k).next.verified = false := by
    unfold BodyReader.readSource
    split
    · exact hv
    · exact hv
  have hsame : ({ (b.readSource k).next with verified := true } : BodyReader P σ).verify
      = (b.readSource k).next.verify := rfl
  generalize hread : read b k = q
  simp only [ByteReader.read, herr, hver, hsame, Bool.false_eq_true, if_false] at hread
  split at hread
  next hnone =>
    exact .inl ⟨hnone, hread.symm⟩
  next heof =>
    split at hread
    next hok =>
      exact .inr (.inl ⟨heof, hok, hread.symm⟩)
    next e _ =>
      exact .inr (.inr ⟨.other e, by rw [← hread], by simp⟩)
  next e hne hsome =>
    exact .inr (.inr ⟨e, by rw [← hread], hne⟩)

theorem body_run (b₀ : BodyReader P σ) {payload : Bytes} : SoFarInv (BodyReading b₀ payload)
    (fun b e out => e = .eof → BodyEnded b₀ b out ∧ out = payload) := by
  rintro b out k ⟨herr, hv, hsrc⟩
  split at hsrc
  next c₀ c hc₀ hc =>
    have hsource : b.readSource k = ⟨(read c k).out, (read c k).err, { b with src := .chunked (read c k).next }⟩ := by
      unfold BodyReader.readSource
      rw [hc]
    have hstep := decoding_run c₀ c out k hsrc
    rcases BodyReader.read_cases herr hv k with ⟨hnone, hread⟩ | ⟨heof, -, hread⟩ | ⟨e, he, hne⟩
    · rw [hsource] at hnone hread
      rw [hread]
      rw [hnone] at hstep ⊢
      refine ⟨herr, hv, ?_⟩
      rw [hc₀]
      exact hstep
    · rw [hsource] at heof hread
      rw [hread]
      rw [heof] at hstep
      intro _
      unfold BodyEnded
      rw [hc₀]
      exact ⟨(hstep rfl).1, (hstep rfl).2⟩
    · rw [he]
      exact fun h => absurd h hne
  next body₀ body hb₀ hb =>
    obtain ⟨hfed, hrest⟩ := hsrc
    rw [LawfulReader.content_read body k, ← append_assoc] at hrest
    have hsource : b.readSource k = ⟨(read body k).out, (read body k).err,
        { b with src := .plain (read body k).next
                 checksums := b.checksums.map (·.write (read body k).out) }⟩ := by
      unfold BodyReader.readSource
      rw [hb]
    have hwritten : b.checksums.map (·.write (read body k).out)
        = b₀.checksums.map (·.write (out ++ (read body k).out)) := by
      rw [hfed, map_map]
      exact map_congr_left fun e _ => write_write e _ _
    rcases BodyReader.read_cases herr hv k with ⟨hnone, hread⟩ | ⟨heof, hver, hread⟩ | ⟨e, he, hne⟩
    · rw [hsource] at hnone hread
      rw [hread]
      rw [hnone]
      refine ⟨herr, hv, ?_⟩
      rw [hb₀]
      exact ⟨hwritten, hrest⟩
    · rw [hsource] at heof hver hread
      rw [hread]
      intro _
      unfold BodyEnded
      rw [hb₀]
      rw [(LawfulReader.err_read body k _ heof).1, append_nil] at hrest
      rw [← hwritten]
      exact ⟨hver, hrest⟩
    · rw [he]
      exact fun h => absurd h hne
  · exact hsrc.elim

/-! ## New body readers -/

/-- What `NewBodyReader` makes of a request. -/
inductive NewBody (r : Request σ) (res : Result) : BodyReader P σ → Prop where
  | chunked {cs announced : List Expectation} {n : Int} {c : ChunkedReader P σ}
      (hmode : res.payloadMode.streaming = true) (hcs : checksumsFrom P r.header = .ok cs)
      (hann : announcedTrailerChecksums r.header = .ok announced)
      (hc : newChunkedReader P r.body res n = .ok c) :
      NewBody r res ⟨.chunked (c.setChecksums (cs ++ announced)), cs ++ announced, false, none⟩
  | plain {cs payload : List Expectation} (hmode : res.payloadMode.streaming = false)
      (hcs : checksumsFrom P r.header = .ok cs) (hpay : payloadChecksum res = .ok payload) :
      NewBody r res ⟨.plain r.body, cs ++ payload, false, none⟩

theorem map_write_nil (es : List Expectation) : es.map (·.write []) = es := by
  have hwrite : (fun e : Expectation => e.write []) = id := by
    funext e
    simp [Expectation.write]
  rw [hwrite, map_id]

theorem NewBody.reading (h : NewBody r res b) :
    BodyReading b (payloadOf r res) b [] := by
  unfold payloadOf
  cases h with
  | chunked hmode _ _ hc =>
    refine ⟨rfl, rfl, ?_⟩
    obtain ⟨_, hc⟩ := else_ok hc
    obtain ⟨_, hc⟩ := else_ok hc
    cases hc
    rw [if_pos hmode]
    exact ⟨⟨rfl, rfl, rfl, (map_write_nil _).symm, rfl, rfl, suffix_refl _⟩, rfl⟩
  | plain hmode _ _ =>
    rw [if_neg (by rw [hmode]; simp)]
    exact ⟨rfl, rfl, (map_write_nil _).symm, rfl⟩

/-- **A body reader that has been read to `io.EOF`** has released the data of the body, and settled
its checksums against it. -/
theorem NewBody.ended (h : NewBody r res b)
    {ks : List Nat} (heof : (readMany b ks).err = some .eof) :
    BodyEnded b (readMany b ks).next (readMany b ks).out
      ∧ (readMany b ks).out = payloadOf r res := by
  have hrun := (body_run b).readMany ks h.reading
  rw [heof] at hrun
  exact hrun rfl

/-! ## Values declared and values compared -/

/-- A value the request headers declare for a hash of the body, decoded: any value of a checksum
header, of `Content-MD5`, and of an `x-amz-content-sha256` in hex. The map holds the last two under
their canonical keys. -/
inductive Declared (P : Primitives) (h : Header) : HashKind → Option Bytes → Prop where
  | checksum {name : Bytes} {values : List Bytes} {alg : ChecksumAlgorithm}
      {value : Bytes} (hentry : (name, values) ∈ h)
      (halg : parseChecksumAlgorithm name = some alg) (hvalue : value ∈ values) :
      Declared P h (.checksum alg) (P.base64 (trimSpace value))
  | md5 {value : Bytes} (hvalue : value ∈ Header.values h (canonicalKey contentMD5)) (hne : value ≠ []) :
      Declared P h .md5 (P.base64 (trimSpace value))
  | sha256 {value raw : Bytes} (hvalue : value ∈ Header.values h (canonicalKey contentSHA256))
      (hhex : hexDecode value = some raw) (hlen : raw.length = 32) :
      Declared P h (.checksum .sha256) (some raw)

/-- The values `checksumsFrom` takes from a set of headers. -/
inductive Reads (P : Primitives) (h : Header) : HashKind → Option Bytes → Prop where
  | checksum {name value : Bytes} {rest : List Bytes} {alg : ChecksumAlgorithm}
      (hentry : (name, value :: rest) ∈ h) (halg : parseChecksumAlgorithm name = some alg) :
      Reads P h (.checksum alg) (P.base64 (trimSpace value))
  | md5 (hvalue : Header.get h contentMD5 ≠ []) : Reads P h .md5 (P.base64 (trimSpace (Header.get h contentMD5)))

/-- The values the body is compared with. A value in the trailer of an aws-chunked body stands
before one in the headers for the same hash. -/
inductive GoesBy (P : Primitives) (h : Header) (res : Result) (trailer : Header) :
    HashKind → Option Bytes → Prop where
  | trailer {k : HashKind} {w : Option Bytes} (hmode : res.payloadMode.streaming = true)
      (hread : Reads P trailer k w) : GoesBy P h res trailer k w
  | header {k : HashKind} {w : Option Bytes} (hread : Reads P h k w)
      (hnone : res.payloadMode.streaming = true → ∀ w', ¬ Reads P trailer k w') :
      GoesBy P h res trailer k w
  | payload (hmode : res.payloadMode = .hashed) : GoesBy P h res trailer (.checksum .sha256) (hexDecode res.payloadHash)

/-- The client's declarations agree with what the reader goes by, for a request with the data
`payload`. -/
structure Agrees (P : Primitives) (h : Header) (res : Result) (trailer : Header)
    (payload : Bytes) : Prop where
  /-- A value declared for a hash is the one the body is compared with. -/
  compared : ∀ k w, Declared P h k w → ∀ w', GoesBy P h res trailer k w' → w = w'
  /-- A value for a hash that is compared with nothing is that of the data sent. Such are a later
  `Content-MD5` after an empty one, and a hex `x-amz-content-sha256` in any mode but `hashed`. -/
  uncompared : ∀ k w, Declared P h k w → (∀ w', ¬ GoesBy P h res trailer k w') →
    w = some (P.sum k payload)
  /-- A value arrives for every checksum that is announced where the reader does not look: on a
  later line, or for a body that is not aws-chunked. -/
  announced : ∀ line ∈ Header.values h amzTrailer,
    (res.payloadMode.streaming = true → line ≠ Header.get h amzTrailer) →
    ∀ alg, Announces line alg → ∃ w, Reads P trailer (.checksum alg) w

variable {h : Header} {e : Expectation} {k : HashKind} {es : List Expectation}

theorem DeclaredBy.written (he : DeclaredBy P h e) : e.written = [] := by
  cases he with
  | checksum _ _ _ => rfl
  | md5 _ _ => rfl

theorem DeclaredBy.reads (he : DeclaredBy P h e) : Reads P h e.hash e.expected := by
  cases he with
  | checksum hentry halg hraw =>
    have hr := Reads.checksum (P := P) hentry halg
    rw [hraw] at hr
    exact hr
  | md5 hvalue hraw =>
    have hr := Reads.md5 (P := P) hvalue
    rw [hraw] at hr
    exact hr

variable {w : Option Bytes}

theorem Reads.mem (hr : Reads P h k w) (hes : checksumsFrom P h = .ok es) :
    ∃ raw, w = some raw ∧ ∃ e ∈ es, KindOf e.name k ∧ e.hash = k ∧ e.expected = some raw := by
  obtain ⟨-, hcollect, hmd5⟩ := checksumsFrom_ok hes
  cases hr with
  | checksum hentry halg =>
    obtain ⟨raw, hraw, he⟩ := hcollect _ _ _ _ hentry halg
    exact ⟨raw, hraw, _, he, .checksum halg, rfl, rfl⟩
  | md5 hvalue =>
    obtain ⟨raw, hraw, he⟩ := hmd5 hvalue
    exact ⟨raw, hraw, _, he, .md5, rfl, rfl⟩

theorem verifyAll_ok (h : verifyAll P es = .ok ()) : ∀ e ∈ es, P.sum e.hash e.written = e.expected.getD [] := by
  induction es with
  | nil => intro e he; exact absurd he not_mem_nil
  | cons e es ih =>
    obtain ⟨_, hfirst, hrest⟩ := bind_ok h
    intro e' he'
    rcases mem_cons.mp he' with rfl | he'
    · exact Expectation.verify_ok.mp hfirst
    · exact ih hrest e' he'

/-! ## What an accepted body has been compared with -/

section Settled

variable {running arrived : List Expectation} {trailer : Header} {out : Bytes}

/-- Expectations as they are made: named after their hash, with nothing hashed yet. -/
def Unfed (es : List Expectation) : Prop := ∀ e ∈ es, KindOf e.name e.hash ∧ e.written = []

theorem Unfed.append {es' : List Expectation} (h : Unfed es) (h' : Unfed es') : Unfed (es ++ es') := by
  intro e he
  rcases mem_append.mp he with he | he
  · exact h e he
  · exact h' e he

theorem unfed_checksumsFrom (hes : checksumsFrom P h = .ok es) : Unfed es := by
  intro e he
  have hdecl := (checksumsFrom_ok hes).1 e he
  exact ⟨hdecl.kindOf, hdecl.written⟩

theorem unfed_announced (hes : announcedTrailerChecksums h = .ok es) : Unfed es := by
  intro e he
  obtain ⟨hkind, -, hwritten⟩ := (announcedTrailerChecksums_ok hes).1 e he
  exact ⟨hkind, hwritten⟩

theorem Settled.of_trailer (hs : Settled P (running.map (·.write out)) arrived) (hrun : Unfed running)
    (harr : checksumsFrom P trailer = .ok arrived) (hr : Reads P trailer k w) : w = some (P.sum k out) := by
  obtain ⟨raw, rfl, a, ha, hkind, -, hexp⟩ := hr.mem harr
  obtain ⟨e, he, hname, hsum⟩ := hs.each_arrived a ha
  obtain ⟨e₀, he₀, rfl⟩ := mem_map.mp he
  obtain ⟨hkind₀, hwritten⟩ := hrun e₀ he₀
  -- the running expectation is found by its name, which fixes the hash
  have hhash : e₀.hash = k := hkind₀.eq_of_fold hkind hname
  have hfed : (e₀.write out).written = out := by
    show e₀.written ++ out = out
    rw [hwritten, nil_append]
  rw [hexp, hfed] at hsum
  rw [← hhash]
  exact congrArg some hsum.symm

/-- For every hash that is running, a value arrived or the one it was made with is the body's. -/
theorem Settled.of_running (hs : Settled P (running.map (·.write out)) arrived) (hrun : Unfed running)
    (harr : checksumsFrom P trailer = .ok arrived) (he : e ∈ running) :
    (∃ w, Reads P trailer e.hash w) ∨ e.expected = some (P.sum e.hash out) := by
  obtain ⟨hkind, hwritten⟩ := hrun e he
  rcases hs.each_running (e.write out) (mem_map_of_mem he) with ⟨a, ha, hname⟩ | ⟨w, hw, hsum⟩
  · have hdecl := (checksumsFrom_ok harr).1 a ha
    have hhash : e.hash = a.hash := hkind.eq_of_fold hdecl.kindOf hname
    rw [hhash]
    exact .inl ⟨_, hdecl.reads⟩
  · have hfed : (e.write out).written = out := by
      show e.written ++ out = out
      rw [hwritten, nil_append]
    rw [hfed] at hsum
    refine .inr (hw.trans ?_)
    exact congrArg some hsum.symm

end Settled

section Accepted

variable {b' : BodyReader P σ} {out : Bytes}

variable {cs : List Expectation}

theorem BodyEnded.settled {c : ChunkedReader P σ} (h : BodyEnded ⟨.chunked (c.setChecksums cs), cs, false, none⟩ b' out) :
    ∃ arrived, checksumsFrom P b'.trailer = .ok arrived ∧ Settled P (cs.map (·.write out)) arrived := by
  unfold BodyEnded at h
  split at h
  next c₀ c' hc₀ hc' =>
    cases hc₀
    have htrailer : b'.trailer = c'.trailer := by
      unfold BodyReader.trailer
      rw [hc']
    rw [htrailer]
    exact settleChecksums_ok h.settled
  next hsrc _ =>
    cases hsrc
  · exact h.elim

theorem BodyEnded.verified {body : σ} (h : BodyEnded ⟨.plain body, cs, false, none⟩ b' out) (he : e ∈ cs)
    (hwritten : e.written = []) : e.expected.getD [] = P.sum e.hash out := by
  unfold BodyEnded at h
  split at h
  next hsrc _ =>
    cases hsrc
  · have hsum := verifyAll_ok h (e.write out) (mem_map_of_mem he)
    have hfed : (e.write out).written = out := by
      show e.written ++ out = out
      rw [hwritten, nil_append]
    rw [hfed] at hsum
    exact hsum.symm
  · exact h.elim

/-- The values the reader goes by are those of the body. -/
theorem GoesBy.right (hnew : NewBody r res b) (hend : BodyEnded b b' out) (hw : GoesBy P r.header res b'.trailer k w) :
    w = some (P.sum k out) := by
  cases hnew with
  | @chunked cs announced n c hmode hcs hann hc =>
    obtain ⟨arrived, harr, hs⟩ := hend.settled
    have hrun : Unfed (cs ++ announced) := (unfed_checksumsFrom hcs).append (unfed_announced hann)
    cases hw with
    | trailer _ hread => exact hs.of_trailer hrun harr hread
    | header hread hnone =>
      obtain ⟨raw, rfl, e, he, -, rfl, hexp⟩ := hread.mem hcs
      rcases hs.of_running hrun harr (mem_append_left _ he) with ⟨w, hw⟩ | hsum
      · exact absurd hw (hnone hmode w)
      · exact hexp.symm.trans hsum
    | payload hhashed =>
      rw [hhashed] at hmode
      exact absurd hmode (by decide)
  | @plain cs payload hmode hcs hpay =>
    cases hw with
    | trailer hstream _ =>
      rw [hmode] at hstream
      simp at hstream
    | header hread _ =>
      obtain ⟨raw, rfl, e, he, -, rfl, hexp⟩ := hread.mem hcs
      have hsum := hend.verified (mem_append_left _ he) (unfed_checksumsFrom hcs e he).2
      rw [hexp] at hsum
      exact congrArg some hsum
    | payload hhashed =>
      unfold payloadChecksum at hpay
      rw [if_pos hhashed] at hpay
      split at hpay
      · simp at hpay
      next raw hraw =>
        cases hpay
        have hsum := hend.verified (mem_append_right _ (mem_singleton.mpr rfl)) rfl
        rw [hraw]
        exact congrArg some hsum

/-- What arrived for an announced checksum is the body's, in a body of any kind. -/
theorem Reads.right (hnew : NewBody r res b) (hend : BodyEnded b b' out) (hr : Reads P b'.trailer k w) :
    w = some (P.sum k out) := by
  by_cases hmode : res.payloadMode.streaming = true
  · exact GoesBy.right hnew hend (.trailer hmode hr)
  · cases hnew with
    | chunked hstream => exact absurd hstream hmode
    | plain _ _ _ =>
      unfold BodyEnded at hend
      split at hend
      next hsrc _ =>
        cases hsrc
      next hsrc =>
        have htrailer : b'.trailer = [] := by
          unfold BodyReader.trailer
          rw [hsrc]
        rw [htrailer] at hr
        cases hr with
        | checksum hentry _ => exact absurd hentry not_mem_nil
        | md5 hvalue => exact absurd rfl hvalue
      · exact hend.elim

/-- A value has arrived for every checksum on the first line that announces any. -/
theorem Announces.arrived {alg : ChecksumAlgorithm} (hnew : NewBody r res b) (hend : BodyEnded b b' out)
    (hmode : res.payloadMode.streaming = true)
    (hann : Announces (Header.get r.header amzTrailer) alg) :
    ∃ w, Reads P b'.trailer (.checksum alg) w := by
  cases hnew with
  | plain hplain _ _ =>
    rw [hmode] at hplain
    simp at hplain
  | @chunked cs announced n c _ hcs hnames hc =>
    obtain ⟨arrived, harr, hs⟩ := hend.settled
    obtain ⟨heach, hall⟩ := announcedTrailerChecksums_ok hnames
    obtain ⟨e, he, hhash⟩ := hall alg hann
    have hrun : Unfed (cs ++ announced) := (unfed_checksumsFrom hcs).append (unfed_announced hnames)
    rcases hs.of_running hrun harr (mem_append_right _ he) with hw | hsum
    · rw [← hhash]
      exact hw
    · -- an announced checksum was made without a value
      rw [(heach e he).2.1] at hsum
      simp at hsum

end Accepted

/-- The length of a hash. -/
def HashKind.size : HashKind → Nat
  | .checksum alg => expectedLength alg
  | .md5 => md5Size

/-- Hashes that tell bodies apart by their length, with values that stand for themselves. -/
def lengthHashes : Primitives where
  sum k x := List.replicate k.size (UInt8.ofNat (0x41 + x.length))
  hmacSHA256 _ _ := List.replicate 32 0
  hmac_length := length_zeroSum
  base64 s := some s
  walk := id
  walk_perm := walk_id

/-- The result of verifying an upload whose chunks are not signed. -/
def unsignedResult (mode : PayloadMode) : Result where
  payloadMode := mode
  payloadHash := []
  signingKey := []
  seed := []
  timestamp := []
  scope := []

end BlindBucket.Auth
