import BlindBucket.Stream.Decrypt
import BlindBucket.Stream.Transcript

/-!
# Soundness of the decoder

The storage provider may serve any bytes. What the decoder releases is still a prefix
of the plaintext of one encoder run, and it reports `EOF` only after all of a finished
one, read from exactly the bytes that run produced.

The header that was read decides which run that is. From there on the invariant
`Traced` says where the bytes consumed so far come from: they are the first chunks of
that run, in order.
-/

namespace BlindBucket.Stream

open ByteIo Blocks List

variable {σ : Type} [ByteReader σ GoErr] [LawfulReader σ]

/--
`B` is what the decoder was given after the header, `t` the run the header belongs to,
`tail` what follows the plaintext at hand.
-/
structure Traced (K : Crypto) (dek : Bytes) (t : Transcript) (src : σ) (B : Bytes)
    (r : DecryptReader σ) (tail : Bytes) : Prop where
  err : r.err = none
  header : r.header = t.header
  sealer : r.sealer = Sealer.of K dek t.header
  steps : Steps src r.src.rd
  rest : (r.done = true ∧ tail = [] ∧ t.Complete ∧ content r.src = []
      ∧ B = (Sealer.of K dek t.header).sealAll t.chunks) ∨
    (r.done = false ∧ r.held = true ∧ r.next * t.header.chunkSize ≤ t.plain.length
      ∧ B = (Sealer.of K dek t.header).sealAll (openChunks t.header.chunkSize t.plain r.next) ++ content r.src
      ∧ tail = t.plain.drop (r.next * t.header.chunkSize))

variable {t : Transcript} {K : Crypto} {src : σ} {r r' : DecryptReader σ} {e : Error} {h : Header}
  {want : SegmentParams}

theorem next_lt_of_mul_le {n : Nat} (h : n * t.header.chunkSize ≤ t.plain.length) : n < 256 ^ 8 := by
  have hC := t.header.chunkSize_pos
  have hle := t.plain_le
  unfold maxPlaintextSize at hle
  have hmul : n * 1 ≤ n * t.header.chunkSize := Nat.mul_le_mul_left _ hC
  omega

variable {dek : Bytes}

variable {S : Set Transcript}

/-- A chunk that opens under a header of `S` is a chunk of the transcript with that header. -/
theorem Secure.opened_of (hs : Secure K dek S) (ht : t ∈ S) {sealed p : Bytes} {i : Nat} {final : Bool}
    (hi : i < 256 ^ 8) (ho : (Sealer.of K dek t.header).openChunk sealed i final = .ok p) :
    (⟨i, final, p⟩ : Chunk) ∈ t.chunks
      ∧ sealed = (Sealer.of K dek t.header).sealed ⟨i, final, p⟩ := by
  obtain ⟨u, hu, hheader, hmem, hsealed⟩ := hs.opened hi ho
  obtain rfl := hs.unique hu ht hheader
  exact ⟨hmem, hsealed⟩

theorem Traced.fill (hs : Secure K dek S) (ht : t ∈ S) {B tail : Bytes} (hr : Traced K dek t src B r tail)
    (hd : r.done = false) (hf : r.fill = (none, r')) :
    ∃ tail', tail = r'.plain ++ tail' ∧ Traced K dek t src B r' tail' := by
  have hC := t.header.chunkSize_pos
  obtain ⟨hd', _⟩ | ⟨_, hheld, hle, hB, htail⟩ := hr.rest
  · rw [hd] at hd'; simp at hd'
  obtain ⟨sealed, final, s, p, hn, hopen, rfl⟩ := DecryptReader.fill_none hf
  rw [hr.sealer] at hopen
  obtain ⟨hmem, hsealed⟩ := hs.opened_of ht (next_lt_of_mul_le hle) hopen
  obtain ⟨hplain, _, _, hmore, hlast⟩ := t.shape.mem hC hmem
  have hplain' : p = block t.header.chunkSize t.plain r.next := hplain
  refine ⟨t.plain.drop ((r.next + 1) * t.header.chunkSize), ?_, ?_⟩
  · rw [htail, drop_block, hplain']
  refine ⟨hr.err, hr.header, hr.sealer, hr.steps.trans hn.steps, ?_⟩
  cases final with
  | false =>
    right
    refine ⟨rfl, hheld, hmore rfl, ?_, rfl⟩
    rw [hB, hn.split, hsealed, hplain', openChunks_succ, Sealer.sealAll_append,
      Sealer.sealAll_singleton, append_assoc]
  | true =>
    left
    obtain ⟨hall, hcount⟩ := hlast rfl
    have hcount' : r.next + 1 = count t.header.chunkSize t.plain.length := hcount
    obtain ⟨hnil, _⟩ := hn.last rfl
    refine ⟨rfl, by rw [hcount', drop_count hC], ⟨_, hmem, rfl⟩, hnil, ?_⟩
    rw [hB, hn.split, hnil, append_nil, hall, segmentChunks, finalChunk, ← hcount',
      Nat.add_sub_cancel, Sealer.sealAll_append, Sealer.sealAll_singleton, hsealed, hplain']

/-- What is known when a decoder stops: `EOF` comes after all of a finished run only, and there is
nothing left to read. -/
def Stopped (K : Crypto) (dek : Bytes) (t : Transcript) (src : σ) (B : Bytes)
    (r : DecryptReader σ) (e : Error) (rest : Bytes) : Prop :=
  e = .eof → rest = [] ∧ t.Complete ∧ B = (Sealer.of K dek t.header).sealAll t.chunks
    ∧ content r.src = [] ∧ Steps src r.src.rd

theorem DecryptReader.fill_ne_eof (herr : r.err = none) (hf : r.fill = (some e, r')) : e ≠ .eof := by
  have hset : ∀ (q : DecryptReader σ) (e' : Error), q.err = none → e' ≠ .eof →
      q.setErr e' = (some e, r') → e ≠ .eof := by
    intro q e' hq hne heq
    unfold DecryptReader.setErr at heq
    rw [hq] at heq
    obtain rfl := Option.some.inj (Prod.mk.inj heq).1
    exact hne
  cases hheld : r.held with
  | false =>
    unfold DecryptReader.fill at hf
    rw [if_pos hheld] at hf
    exact hset r _ herr (by simp [integrityf]) hf
  | true =>
    cases fill_cases hheld with
    | cut e' s hne _ _ heq =>
      rw [heq] at hf
      exact hset { r with src := s } e' herr hne hf
    | chunk sealed final s _ heq =>
      rw [heq] at hf
      unfold DecryptReader.openNext at hf
      split at hf
      next e' he' =>
        exact hset { r with src := s } e' herr (fun h => Sealer.openChunk_ne_eof (h ▸ he')) hf
      · exact absurd (congrArg Prod.fst hf) (by simp)

theorem traced_release (hs : Secure K dek S) (ht : t ∈ S) (src : σ) (B : Bytes) :
    ReleaseInv (fun (r : DecryptReader σ) data => ∃ tail, data = r.plain ++ tail
        ∧ Traced K dek t src B r tail) (Stopped K dek t src B) := by
  apply DecryptReader.filler_reads.releaseInv
  · intro r tail hr
    exact hr.err
  · intro r tail k hr
    exact ⟨hr.err, hr.header, hr.sealer, hr.steps, hr.rest⟩
  · intro r tail hr _ hd _
    obtain ⟨_, htail, hcomplete, hnil, hB⟩ | ⟨hd', _⟩ := hr.rest
    · exact ⟨htail, hcomplete, hB, hnil, hr.steps⟩
    · exact absurd (hd'.symm.trans hd) Bool.false_ne_true
  · intro r tail e r' hr _ _ hf heof
    exact absurd heof (DecryptReader.fill_ne_eof hr.err hf)
  · intro r tail r' hr _ hd hf
    exact hr.fill hs ht (Bool.eq_false_of_not_eq_true hd) hf

theorem stray_fill (hs : Secure K dek S) (hstray : ∀ t ∈ S, t.header ≠ h) (hnext : r.next = 0)
    (hsealer : r.sealer = Sealer.of K dek h) : r.fill ≠ (none, r') := by
  intro hf
  obtain ⟨sealed, final, s, p, -, hopen, -⟩ := DecryptReader.fill_none hf
  rw [hsealer] at hopen
  obtain ⟨t, ht, hheader, _⟩ := hs.opened (by rw [hnext]; decide) hopen
  exact hstray t ht hheader

theorem stray_release (hs : Secure K dek S) (hstray : ∀ t ∈ S, t.header ≠ h) :
    ReleaseInv (fun (r : DecryptReader σ) data => ∃ tail, data = r.plain ++ tail
        ∧ (r.err = none ∧ r.done = false ∧ r.next = 0 ∧ r.sealer = Sealer.of K dek h ∧ tail = []))
      (fun _ e _ => e ≠ .eof) := by
  apply DecryptReader.filler_reads.releaseInv
  · intro r tail hr
    exact hr.1
  · intro r tail k hr
    exact hr
  · intro r tail hr _ hd
    exact absurd (hr.2.1.symm.trans hd) Bool.false_ne_true
  · intro r tail e r' hr _ _ hf
    exact DecryptReader.fill_ne_eof hr.1 hf
  · rintro r tail r' ⟨_, _, hnext, hsealer, _⟩ _ _ hf
    exact absurd hf (stray_fill hs hstray hnext hsealer)

theorem Opened.traced (ho : Opened K src dek want r) (ht : t.header = r.header) :
    Traced K dek t src (content r.src) r t.plain := by
  have hnext : r.next = 0 := by rw [ho.fresh]
  refine ⟨by rw [ho.fresh], ht.symm, by rw [ho.fresh, ht], ho.steps, Or.inr ?_⟩
  refine ⟨by rw [ho.fresh], by rw [ho.fresh], by rw [hnext, Nat.zero_mul]; exact Nat.zero_le _,
    by rw [hnext]; rfl, by rw [hnext, Nat.zero_mul]; rfl⟩

theorem newDecryptReader_ne_eof (h : newDecryptReader K src dek want = .error e) : e ≠ .eof := by
  rintro rfl
  refine bind_ne_error SegmentParams.validateExpectation_ne_eof (fun _ h => ?_) h
  dsimp only at h
  split at h
  · simp [integrityf] at h
  · simp [integrityf] at h
  next e hne _ _ =>
    exact hne (by rw [Except.error.inj h])
  · exact bind_ne_error openHeader_ne_eof (fun _ => by simp) h

/-- What a decoder makes of `B`, in terms of the runs that ever used the data key. -/
structure Verdict (K : Crypto) (dek : Bytes) (S : Set Transcript) (B : Bytes)
    (q : ReadResult (DecryptReader σ) GoErr) : Prop where
  /-- `EOF` means that `B` is all that a finished run produced. -/
  eof : q.err = some .eof → ∃ t ∈ S, t.Complete ∧ B = t.output K dek ∧ q.out = t.plain
  /-- Whatever was released is the beginning of the plaintext of one run. -/
  released : q.out ≠ [] → ∃ t ∈ S, q.out <+: t.plain

theorem decrypt_verdict (hs : Secure K dek S) (hr : newDecryptReader K src dek want = .ok r) :
    (∃ N, ∀ ks : List Nat, N < (ks.filter (0 < ·)).length → (readMany r ks).err ≠ none)
      ∧ ∀ ks : List Nat, Verdict K dek S (content src) (readMany r ks) := by
  have ho := newDecryptReader_ok hr
  have hplain : r.plain = [] := by rw [ho.fresh]
  by_cases hknown : ∃ t ∈ S, t.header = r.header
  · -- the header is that of a run: everything is traced to it
    obtain ⟨t, ht, hheader⟩ := hknown
    have hrel := traced_release hs ht src (content r.src)
    have hI : ∃ tail, t.plain = r.plain ++ tail ∧ Traced K dek t src (content r.src) r tail :=
      ⟨t.plain, by rw [hplain]; rfl, ho.traced hheader⟩
    refine ⟨⟨t.plain.length, fun ks hks => hrel.terminates DecryptReader.filler_reads.progress ks hI hks⟩, ?_⟩
    intro ks
    obtain ⟨rest, hdata, hrun⟩ := hrel.readMany ks hI
    refine ⟨?_, fun _ => ⟨t, ht, rest, hdata.symm⟩⟩
    intro heof
    rw [heof] at hrun
    obtain ⟨rfl, hcomplete, hB, _⟩ := hrun rfl
    rw [append_nil] at hdata
    refine ⟨t, ht, hcomplete, ?_, hdata.symm⟩
    rw [ho.content_eq, ← hheader, hB]
    rfl
  · have hstray : ∀ t ∈ S, t.header ≠ r.header := fun t ht h => hknown ⟨t, ht, h⟩
    have hrel := stray_release (σ := σ) hs hstray
    have hI : ∃ tail, ([] : Bytes) = r.plain ++ tail ∧ (r.err = none ∧ r.done = false
        ∧ r.next = 0 ∧ r.sealer = Sealer.of K dek r.header ∧ tail = []) :=
      ⟨[], by rw [hplain]; rfl, by rw [ho.fresh], by rw [ho.fresh], by rw [ho.fresh],
        by rw [ho.fresh], rfl⟩
    refine ⟨⟨0, fun ks hks => hrel.terminates DecryptReader.filler_reads.progress ks hI hks⟩, ?_⟩
    intro ks
    obtain ⟨rest, hdata, hrun⟩ := hrel.readMany ks hI
    have hnil := (append_eq_nil_iff.mp hdata.symm).1
    refine ⟨?_, fun hne => absurd hnil hne⟩
    intro heof
    rw [heof] at hrun
    exact absurd rfl hrun

/--
**Soundness of the segment decoder.** Let `S` be any set of encoder runs under one data key, each
with any calls on it and a sink that may fail, with pairwise distinct salts, and let the cipher be
ideal for what they sealed. Whatever bytes a decoder is given, it refuses to open them, or every
sequence of reads ends in an error once enough non-empty buffers were offered, and

* if that is `EOF`, the bytes are all that one run in `S` produced, which sealed its final chunk,
  and what was released is all of its plaintext;
* what was released by then, or before any other error, is the beginning of the plaintext of a
  single run in `S`.
-/
theorem decrypt_reader_sound {δ : Type} [ByteWriter δ GoErr] [LawfulWriter δ] {K : Crypto}
    {dek : Bytes} (hdek : dek.length = keySize) {S : Set (Attempt δ)}
    (hsalts : ∀ a ∈ S, ∀ b ∈ S, a.header.salt = b.header.salt → a = b)
    (hideal : K.gcm.Ideal (subkeys K dek) (sealedLog K dek (Set.image (Attempt.transcript K hdek) S)))
    (src : σ) (want : SegmentParams) :
    (∃ e, newDecryptReader K src dek want = .error e ∧ e ≠ .eof) ∨
    ∃ r, newDecryptReader K src dek want = .ok r
      ∧ (∃ N, ∀ ks : List Nat, N < (ks.filter (0 < ·)).length → (readMany r ks).err ≠ none)
      ∧ ∀ ks : List Nat,
        ((readMany r ks).err = some .eof → ∃ a ∈ S, (a.transcript K hdek).Complete
            ∧ content src = (a.transcript K hdek).output K dek
            ∧ content src = segmentBytes K dek a.header (a.result K dek).2
            ∧ (readMany r ks).out = (a.result K dek).2)
        ∧ ((readMany r ks).out ≠ [] → ∃ a ∈ S, (readMany r ks).out <+: (a.result K dek).2) := by
  have hs : Secure K dek (Set.image (Attempt.transcript K hdek) S) := by
    refine ⟨hideal, ?_⟩
    rintro _ ⟨a, ha, rfl⟩ _ ⟨b, hb, rfl⟩ hsalt
    rw [hsalts a ha b hb hsalt]
  cases hr : newDecryptReader K src dek want with
  | error e => exact Or.inl ⟨e, rfl, newDecryptReader_ne_eof hr⟩
  | ok r =>
    right
    obtain ⟨hends, hverdict⟩ := decrypt_verdict hs hr
    refine ⟨r, rfl, hends, ?_⟩
    intro ks
    refine ⟨?_, ?_⟩
    · intro heof
      obtain ⟨_, ⟨a, ha, rfl⟩, hcomplete, hB, hout⟩ := (hverdict ks).eof heof
      refine ⟨a, ha, hcomplete, hB, ?_, hout⟩
      rw [hB, hcomplete.output_eq]
      rfl
    · intro hne
      obtain ⟨_, ⟨a, ha, rfl⟩, hpre⟩ := (hverdict ks).released hne
      exact ⟨a, ha, hpre⟩

/-- A run that wrote three bytes in two pieces and was closed. -/
def abcAttempt : Attempt (Buffer GoErr) where
  header := Header.make ⟨12, false, 0⟩ zeroSalt (by decide)
  dst := ⟨[]⟩
  ops := [[97], [98, 99]].map .write ++ [.close]

/-- Primitives that open what this run sealed. -/
def abcCrypto : Crypto :=
  tableCrypto (fun _ _ _ n => replicate n 0) (replicate keySize 7)
    [Transcript.finished abcAttempt.header [97, 98, 99] Transcript.abc_fits]

/-- The segment of that run with its last byte cut off. -/
def abcTruncated : Bytes :=
  (segmentBytes abcCrypto (replicate keySize 7) abcAttempt.header [97, 98, 99]).dropLast

/-- The assumptions hold for that run, and a truncated copy of it is not read to `EOF`. -/
theorem decrypt_reader_sound_abc : (∃ e, newDecryptReader abcCrypto (⟨abcTruncated, .eof⟩ : BytesReader GoErr)
        (replicate keySize 7) ⟨12, false, 0⟩ = .error e) ∨
    ∃ r, newDecryptReader abcCrypto (⟨abcTruncated, .eof⟩ : BytesReader GoErr)
        (replicate keySize 7) ⟨12, false, 0⟩ = .ok r
      ∧ ∀ ks : List Nat, (readMany r ks).err ≠ some .eof := by
  have hdek : (replicate keySize (7 : UInt8)).length = keySize := by decide
  have ht : abcAttempt.transcript abcCrypto hdek
      = Transcript.finished abcAttempt.header [97, 98, 99] Transcript.abc_fits := rfl
  have hideal : abcCrypto.gcm.Ideal (subkeys abcCrypto (replicate keySize 7))
      (sealedLog abcCrypto (replicate keySize 7)
        (Set.image (Attempt.transcript abcCrypto hdek) {abcAttempt})) := by
    rw [Set.image_singleton]
    exact (secure_tableCrypto_one ..).ideal
  rcases decrypt_reader_sound (σ := BytesReader GoErr) hdek
      (by rintro a rfl b rfl _; rfl) hideal ⟨abcTruncated, .eof⟩
      ⟨12, false, 0⟩ with
    ⟨e, he, _⟩ | ⟨r, hr, _, hks⟩
  · exact Or.inl ⟨e, he⟩
  · refine Or.inr ⟨r, hr, ?_⟩
    intro ks heof
    obtain ⟨a, rfl, _, _, hB, _⟩ := (hks ks).1 heof
    rw [show (abcAttempt.result abcCrypto (replicate keySize 7)).2 = [97, 98, 99] from
      congrArg Transcript.plain ht] at hB
    -- the truncated copy is one byte shorter than the segment
    have hlen := congrArg length hB
    rw [show content (⟨abcTruncated, .eof⟩ : BytesReader GoErr) = abcTruncated from rfl,
      abcTruncated, length_dropLast, segmentBytes_length] at hlen
    unfold sealedLen headerSize at hlen
    omega

end BlindBucket.Stream
