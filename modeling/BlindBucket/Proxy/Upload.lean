import BlindBucket.Auth.Enforced
import BlindBucket.Manifest.Parts
import BlindBucket.Stream.RoundTrip

/-!
# Uploads

`putObject` and `uploadPart` announce to the provider the length of the segment that the
announced plaintext makes, and copy the client's body through an encrypter into the request.
The final chunk is sealed by `Close`, which is called only when the whole body was read, so a
body that fails is to leave the request short of its announced length.

It does, as long as the body carries no more than fills the announced chunks. The encrypter holds
back one chunk and knows nothing of the announced length, and the aws-chunked reader compares
lengths at the end only.
-/

namespace BlindBucket

open ByteIo BlindBucket.Stream Blocks GoText List

variable {P : Auth.Primitives} {σ δ : Type} [ByteReader σ GoErr] [ByteWriter δ GoErr]

/-! ## The model -/

/-- `*s3api.Error`, as far as a body or its length can lead to one. -/
inductive UploadError where
  | badDigest (e : Error)
  | signatureDoesNotMatch
  | incompleteBody (msg : Msg)
  | malformedBody (e : Error)
  | notImplemented (e : Error)
  | missingContentLength
  | invalidRequest (msg : Msg)
  | entityTooLarge (msg : Msg)
deriving DecidableEq, Repr

def translateBody (e : Error) : UploadError :=
  if isSentinel .checksumMismatch e then .badDigest e
  else if isSentinel .chunkSignature e then .signatureDoesNotMatch
  else if isSentinel .malformedChunkedBody e then .malformedBody e
  else if isSentinel .unsupportedChecksum e then .notImplemented e
  else if isSentinel .missingContentLength e then .missingContentLength
  else .incompleteBody ⟨"the request body ended before it was complete", []⟩

/-- An upload that is about to be streamed: the body, the length of the plaintext and the
`Content-Length` announced to the provider. -/
structure Plan (P : Auth.Primitives) (σ : Type) [ByteReader σ GoErr] [LawfulReader σ] where
  body : Auth.BodyReader P σ
  plainLen : Int
  sealedLen : Int

section Plan

variable [LawfulReader σ]

def openBody (P : Auth.Primitives) (r : Auth.Request σ) (res : Auth.Result) :
    Except UploadError (Auth.BodyReader P σ × Int) := do
  let (body, plainLen) ← (Auth.newBodyReader P r res).mapError fun e => translateBody (.other e)
  if plainLen < 0 then .error .missingContentLength else .ok (body, plainLen)

/-- What `putObject` decides before it streams the body. -/
def putObjectPlan (P : Auth.Primitives) (log2C : Nat) (r : Auth.Request σ) (res : Auth.Result) :
    Except UploadError (Plan P σ) := do
  let (body, plainLen) ← openBody P r res
  let sealedLen ← (sealedSize plainLen log2C).mapError
    fun _ => .entityTooLarge ⟨"object of %d bytes cannot be stored: %v", [.int plainLen]⟩
  .ok ⟨body, plainLen, sealedLen⟩

/-- What `uploadPart` decides before it streams the body. -/
def uploadPartPlan (P : Auth.Primitives) (log2C : Nat) (r : Auth.Request σ) (res : Auth.Result) :
    Except UploadError (Plan P σ) := do
  let (body, plainLen) ← openBody P r res
  if plainLen = 0 then .error (.invalidRequest ⟨"%v: the last part is empty", []⟩)
  else
    let sealedLen ← (sealedSize plainLen log2C).mapError
      fun _ => .entityTooLarge ⟨"part of %d bytes cannot be stored: %v", [.int plainLen]⟩
    if Manifest.maxPartCiphertext < sealedLen then
      .error (.entityTooLarge ⟨"part of %d bytes exceeds the maximum part size of %d bytes",
        [.int plainLen, .int ((Manifest.maxPartPlaintext log2C).toOption.getD 0)]⟩)
    else .ok ⟨body, plainLen, sealedLen⟩

end Plan

/-- How much `io.Copy` reads at a time. -/
def copyBufSize : Nat := 32 * 1024

inductive CopyEnd where
  /-- It is still copying. -/
  | copying
  /-- The source ended, which is no error. -/
  | eof
  | readFailed (e : Error)
  | writeFailed (e : Error)
  | shortWrite
deriving DecidableEq, Repr

structure Copied (σ δ : Type) where
  ended : CopyEnd
  src : σ
  dst : EncryptWriter δ

/-- `io.Copy` into an encrypter, for at most so many reads. What a read returned is written before its
error is looked at. -/
def copyInto : Nat → EncryptWriter δ → σ → Copied σ δ
  | 0, w, src => ⟨.copying, src, w⟩
  | n + 1, w, src =>
    let r := read src copyBufSize
    let q : EncryptWriter.WriteReturn δ := if r.out = [] then ⟨0, none, w⟩ else w.write r.out
    match q.err with
    | some e => ⟨.writeFailed e, r.next, q.next⟩
    | none =>
      if q.n ≠ r.out.length then ⟨.shortWrite, r.next, q.next⟩
      else
        match r.err with
        | none => copyInto n q.next r.next
        | some .eof => ⟨.eof, r.next, q.next⟩
        | some e => ⟨.readFailed e, r.next, q.next⟩

/-- The goroutine that feeds the request: copy the body, and close the encrypter only if that went
well. -/
def sealBody (n : Nat) (w : EncryptWriter δ) (src : σ) : Copied σ δ :=
  let c := copyInto n w src
  if c.ended = .eof then { c with dst := c.dst.close.2 } else c

/-! ## What a copy has written -/

/-- How a copy ends that is never refused a write. -/
def CopyEnd.ofRead : Option Error → CopyEnd
  | none => .copying
  | some .eof => .eof
  | some e => .readFailed e

variable {n : Nat} {e : Error}

section Written

variable [LawfulWriter δ]

variable {base T : Bytes}

theorem holding_take {w : EncryptWriter δ} (h : w.Holding base T) (p : Bytes) {q : EncryptWriter.WriteReturn δ}
    (hq : q = if p = [] then ⟨0, none, w⟩ else w.write p) :
    (q.err = none ∧ q.n = p.length ∧ q.next.Holding base (T ++ p) ∧ w.Same q.next)
      ∨ (q.err ≠ none ∧ ¬ (NeverFails δ ∧ T.length + p.length ≤ maxPlaintextSize)) := by
  by_cases hp : p = []
  · subst hp hq
    rw [append_nil]
    exact .inl ⟨rfl, rfl, h, rfl, rfl⟩
  · rw [if_neg hp] at hq
    subst hq
    exact h.write p

/-- **A copy follows the reads of its source.** The encrypter has what was read, or a write was
refused, for which the sink or the length is to blame. -/
theorem copyInto_spec (n : Nat) : ∀ {w : EncryptWriter δ} (src : σ) {T : Bytes}, w.Holding base T →
      ((copyInto n w src).ended = .ofRead (readMany src (replicate n copyBufSize)).err
          ∧ (copyInto n w src).dst.Holding base (T ++ (readMany src (replicate n copyBufSize)).out)
          ∧ w.Same (copyInto n w src).dst)
        ∨ ((∃ e, (copyInto n w src).ended = .writeFailed e)
          ∧ ¬ (NeverFails δ ∧ T.length + (readMany src (replicate n copyBufSize)).out.length
              ≤ maxPlaintextSize)) := by
  induction n with
  | zero =>
    intro w src T h
    refine .inl ⟨rfl, ?_, rfl, rfl⟩
    show w.Holding base (T ++ [])
    rw [append_nil]
    exact h
  | succ n ih =>
    intro w src T h
    rw [replicate_succ, copyInto, readMany]
    have hstep := holding_take h (read src copyBufSize).out rfl
    rcases hstep with ⟨hok, hn, hnext, hsame⟩ | ⟨hbad, hblame⟩
    · rw [hok]
      rw [if_neg (not_not.mpr hn)]
      cases herr : (read src copyBufSize).err with
      | some e =>
        refine .inl ?_
        cases e <;> exact ⟨rfl, hnext, hsame⟩
      | none =>
        rcases ih (read src copyBufSize).next hnext with
          ⟨hend, hdst, hsame'⟩ | ⟨hfail, hblame⟩
        · rw [append_assoc] at hdst
          exact .inl ⟨hend, hdst, hsame'.1.trans hsame.1, hsame'.2.trans hsame.2⟩
        · refine .inr ⟨hfail, ?_⟩
          rintro ⟨hnever, hlen⟩
          rw [length_append] at hlen
          exact hblame ⟨hnever, by rw [length_append]; omega⟩
    · obtain ⟨e, he⟩ := Option.ne_none_iff_exists'.mp hbad
      rw [he]
      refine .inr ⟨⟨e, rfl⟩, ?_⟩
      rintro ⟨hnever, hlen⟩
      -- what is read later only adds to the length
      refine hblame ⟨hnever, Nat.le_trans (Nat.add_le_add_left ?_ _) hlen⟩
      split
      · exact le_rfl
      · rw [length_append]
        exact Nat.le_add_right _ _

/-- How much an encrypter has written that has `D` bytes of plaintext and was not closed: the header
and all chunks but the one it holds. -/
def flushedLen (C D : Nat) : Nat :=
  if count C D = 1 then 0 else headerSize + (count C D - 1) * (C + tagSize)

theorem holding_written {w : EncryptWriter δ} (h : w.Holding base T) :
    (written w.dst).length = base.length + flushedLen w.header.chunkSize T.length := by
  obtain ⟨hcount, -⟩ := h.assembling.held h.held
  unfold flushedLen
  rw [h.assembling.written, hcount, length_append]
  by_cases hnext : w.next = 0
  · rw [hnext]
    rfl
  · rw [if_pos (Nat.pos_of_ne_zero hnext), if_neg (by omega), Nat.add_sub_cancel,
      h.assembling.sealed, EncryptWriter.output, length_append, w.header.raw_length,
      sealAll_openChunks_length _ h.assembling.le]

/-- What was flushed is short of a segment of `N` bytes as long as no chunk begins after its last. -/
theorem flushedLen_lt_iff (c D N : Nat) : flushedLen (2 ^ c) D < sealedLen c N ↔ count (2 ^ c) D ≤ count (2 ^ c) N := by
  have hC := two_pow_pos' c
  have hD := count_pos (2 ^ c) D
  have hN := count_pos (2 ^ c) N
  have htop := le_count_mul hC N
  unfold flushedLen sealedLen
  have hhead : 0 < headerSize := by decide
  by_cases hone : count (2 ^ c) D = 1
  · rw [if_pos hone]
    omega
  · rw [if_neg hone]
    obtain ⟨k, hk⟩ : ∃ k, count (2 ^ c) D = k + 1 := ⟨count (2 ^ c) D - 1, by omega⟩
    rw [hk, Nat.add_sub_cancel, Nat.mul_add, Nat.mul_comm k tagSize]
    constructor
    · intro hlt
      by_contra hgt
      -- `k` chunks take in all of the announced plaintext, tags included
      have hle : count (2 ^ c) N ≤ k := by omega
      have hdata := Nat.mul_le_mul_right (2 ^ c) hle
      have htags := Nat.mul_le_mul_left tagSize hle
      omega
    · intro hle
      have hdata : k * 2 ^ c ≤ N := mul_le_of_lt_count hC (by omega)
      have htags : tagSize * (k + 1) ≤ tagSize * count (2 ^ c) N := Nat.mul_le_mul_left _ hle
      have htag : 0 < tagSize := by decide
      rw [Nat.mul_add] at htags
      omega

/-- A body that fails leaves behind what the encrypter has flushed. -/
theorem sealBody_failed {K : Crypto} {dst : δ} {dek : Bytes} {h : Stream.Header} {w : EncryptWriter δ}
    (hw : newEncryptWriter K dst dek h = .ok w) {src : σ} (hend : (sealBody n w src).ended = .readFailed e) :
    (written (sealBody n w src).dst.dst).length = (written dst).length
      + flushedLen h.chunkSize (readMany src (replicate n copyBufSize)).out.length := by
  have hcopy : sealBody n w src = copyInto n w src := by
    unfold sealBody at hend ⊢
    dsimp only at hend ⊢
    split at hend
    next heof =>
      rw [heof] at hend
      simp at hend
    next hne =>
      rw [if_neg hne]
  rw [hcopy] at hend ⊢
  rcases copyInto_spec n src (EncryptWriter.holding_new hw) with ⟨-, hdst, hsame⟩ | ⟨⟨e', hfail⟩, -⟩
  · rw [holding_written hdst, nil_append, hsame.1, (EncryptWriter.encInv_new hw).2.1]
  · rw [hfail] at hend
    simp at hend

end Written

section Commit

variable [LawfulReader σ] {r : Auth.Request σ} {res : Auth.Result} {log2C : Nat} {plan : Plan P σ}

theorem openBody_ok {b : Auth.BodyReader P σ} {n : Int} (h : openBody P r res = .ok (b, n)) :
    Auth.newBodyReader P r res = .ok (b, n) := by
  obtain ⟨⟨b', n'⟩, hnew, hrest⟩ := bind_ok h
  obtain ⟨_, hrest⟩ := else_ok hrest
  cases hrest
  exact mapError_ok.mp hnew

/-- A plan is made by `putObject` or by `uploadPart`. -/
def Planned (log2C : Nat) (r : Auth.Request σ) (res : Auth.Result) (plan : Plan P σ) : Prop :=
  putObjectPlan P log2C r res = .ok plan ∨ uploadPartPlan P log2C r res = .ok plan

theorem Planned.ok (h : Planned log2C r res plan) : Auth.newBodyReader P r res = .ok (plan.body, plan.plainLen)
      ∧ sealedSize plan.plainLen log2C = .ok plan.sealedLen := by
  rcases h with h | h
  · obtain ⟨⟨b, n⟩, hbody, hrest⟩ := bind_ok h
    obtain ⟨s, hs, hok⟩ := bind_ok hrest
    cases hok
    exact ⟨openBody_ok hbody, mapError_ok.mp hs⟩
  · obtain ⟨⟨b, n⟩, hbody, hrest⟩ := bind_ok h
    obtain ⟨_, hrest⟩ := else_ok hrest
    obtain ⟨s, hs, hrest⟩ := bind_ok hrest
    obtain ⟨_, hrest⟩ := else_ok hrest
    cases hrest
    exact ⟨openBody_ok hbody, mapError_ok.mp hs⟩

variable [LawfulWriter δ] {K : Crypto} {dst : δ} {dek : Bytes} {h : Stream.Header} {w : EncryptWriter δ}

/-- **The commit point of an upload.** When the body of a client fails, the request to the provider is
short of its announced length exactly if the body has carried no more than fills the chunks of the
announced plaintext. -/
theorem upload_commit_point_iff (hplan : Planned log2C r res plan)
    (hh : h.params.log2ChunkSize = log2C) (hw : newEncryptWriter K dst dek h = .ok w)
    (hdst : written dst = []) {n : Nat} {e : Error}
    (hend : (sealBody n w plan.body).ended = .readFailed e) :
    ((written (sealBody n w plan.body).dst.dst).length : Int) < plan.sealedLen
      ↔ count (2 ^ log2C) (readMany plan.body (replicate n copyBufSize)).out.length
          ≤ count (2 ^ log2C) plan.plainLen.toNat := by
  obtain ⟨-, N, hN, -, hsealed⟩ := sealedSize_ok_iff.mp hplan.ok.2
  have hC : h.chunkSize = 2 ^ log2C := by
    rw [← hh]
    rfl
  rw [sealBody_failed hw hend, hdst, hsealed, hN, hC, length_nil,
    Nat.zero_add, Int.ofNat_lt]
  exact flushedLen_lt_iff log2C _ N

end Commit

/-! ## Bodies that are not of the announced length -/

/-- An aws-chunked body of one chunk, with the length the request announces. -/
def oneChunkRequest (announced size data : Bytes) : Auth.Request (BytesReader GoErr) where
  header := [(ascii "X-Amz-Decoded-Content-Length", [announced])]
  contentLength := -1
  body := ⟨size ++ ascii "\r\n" ++ data ++ ascii "\r\n0\r\n\r\n", .eof⟩

def unsignedChunks : Auth.Result := Auth.unsignedResult .streamingUnsignedTrailer

/-- The encrypter of an upload with chunks of 4096 bytes. -/
def smallWriter : EncryptWriter (Buffer GoErr) where
  dst := ⟨[]⟩
  header := Stream.Header.make smallParams zeroSalt (by decide)
  sealer := Sealer.of plainCrypto (replicate keySize 7) (Stream.Header.make smallParams zeroSalt (by decide))

theorem smallWriter_new : newEncryptWriter plainCrypto (⟨[]⟩ : Buffer GoErr) (replicate keySize 7)
    (Stream.Header.make smallParams zeroSalt (by decide)) = .ok smallWriter :=
  newEncryptWriter_ok _ _ (by decide)

/-- The error of `settle` for a body of another length than announced. -/
def wrongLength (decoded announced : Nat) : Error :=
  wrapf .malformedChunkedBody "%w: body decoded to %d bytes, x-amz-decoded-content-length said %d"
    [.int decoded, .int announced]

def oneChunkPlan (n : Nat) (r : Auth.Request (BytesReader GoErr)) : Plan Auth.lengthHashes (BytesReader GoErr) where
  body :=
    { src := .chunked
        { src := Bufio.newReaderSize r.body Auth.bodyBufSize
          mode := .streamingUnsignedTrailer
          signingKey := []
          scope := []
          timestamp := []
          prevSig := []
          expectedDecoded := n }
      checksums := [] }
  plainLen := n
  sealedLen := sealedLen 12 n

theorem oneChunkRequest_plan {r : Auth.Request (BytesReader GoErr)}
    (hopen : openBody Auth.lengthHashes r unsignedChunks = .ok ((oneChunkPlan n r).body, n)) (hmax : n ≤ maxPlaintextSize) :
    putObjectPlan Auth.lengthHashes 12 r unsignedChunks = .ok (oneChunkPlan n r) := by
  unfold putObjectPlan
  rw [hopen, ok_bind]
  dsimp only
  rw [sealedSize_natCast (by decide) hmax]
  rfl

/-- Two bytes are announced and one follows. -/
def shortRequest : Auth.Request (BytesReader GoErr) := oneChunkRequest (ascii "2") (ascii "1") (ascii "X")

/-- One byte is announced and 4097 follow. -/
def overlongRequest : Auth.Request (BytesReader GoErr) :=
  oneChunkRequest (ascii "1") (ascii "1001") (replicate 4097 0x41)

/-- A body that is too short is not committed. -/
theorem upload_commit_point_iff_short :
    putObjectPlan Auth.lengthHashes 12 shortRequest unsignedChunks = .ok (oneChunkPlan 2 shortRequest)
      ∧ (sealBody 2 smallWriter (oneChunkPlan 2 shortRequest).body).ended = .readFailed (wrongLength 1 2)
      ∧ ((written (sealBody 2 smallWriter (oneChunkPlan 2 shortRequest).body).dst.dst).length : Int)
          < (oneChunkPlan 2 shortRequest).sealedLen := by
  have hplan : putObjectPlan Auth.lengthHashes 12 shortRequest unsignedChunks
      = .ok (oneChunkPlan 2 shortRequest) := oneChunkRequest_plan rfl (by decide)
  have hend : (sealBody 2 smallWriter (oneChunkPlan 2 shortRequest).body).ended
      = .readFailed (wrongLength 1 2) := by decide +kernel
  refine ⟨hplan, hend, ?_⟩
  refine (upload_commit_point_iff (.inl hplan) rfl smallWriter_new rfl hend).mpr ?_
  decide +kernel

/-- The overlong body is sealed to its end before it is refused. -/
theorem overlong_sealed :
    let q := sealBody 3 smallWriter (oneChunkPlan 1 overlongRequest).body
    (q.ended, (written q.dst.dst).length) = (.readFailed (wrongLength 4097 1), 4144) := by decide +kernel

/-- **An overlong body is committed.** The body is refused for its length, after all of the announced
length has been written and more. -/
theorem overlong_body_committed : putObjectPlan Auth.lengthHashes 12 overlongRequest unsignedChunks
        = .ok (oneChunkPlan 1 overlongRequest)
      ∧ (sealBody 3 smallWriter (oneChunkPlan 1 overlongRequest).body).ended
          = .readFailed (wrongLength 4097 1)
      ∧ (oneChunkPlan 1 overlongRequest).sealedLen
          ≤ (written (sealBody 3 smallWriter (oneChunkPlan 1 overlongRequest).body).dst.dst).length := by
  obtain ⟨hend, hlen⟩ := Prod.mk.inj overlong_sealed
  refine ⟨oneChunkRequest_plan rfl (by decide), hend, ?_⟩
  rw [hlen]
  decide

end BlindBucket
