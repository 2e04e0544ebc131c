import BlindBucket.Stream.Decrypt

/-!
# Round trip

A segment of the encoder, read by the decoder through any source that ends in `EOF`
and with any sequence of buffers, yields the plaintext it was made from and then `EOF`.
-/

namespace BlindBucket.Stream

open ByteIo Blocks List

variable {σ : Type} [ByteReader σ GoErr] [LawfulReader σ]

/-- A source whose bytes are followed by `EOF` and by nothing else. -/
def EndsInEof (s : σ) : Prop := ∀ e, Ends s e → e = .eof

theorem EndsInEof.steps {s t : σ} (h : EndsInEof s) (hs : Steps s t) : EndsInEof t :=
  fun e he => h e (hs.ends he)

variable {l : LimitReader σ} {C i : Nat} {T dek : Bytes} {K : Crypto} {h : Header} {r : DecryptReader σ}

theorem EndsInEof.limit (h : EndsInEof l.src) : EndsInEof l := by
  intro e he
  rcases he with ⟨_, he⟩ | ⟨_, he⟩
  · exact he
  · exact h e he

theorem EndsInEof.limit_steps {m : LimitReader σ} (hl : EndsInEof l.src) (h : Steps l m) : EndsInEof m.src := by
  refine Steps.invariant (P := fun m => EndsInEof m.src) ?_ h hl
  intro m k hm
  by_cases h0 : m.left = 0
  · rw [LimitReader.read_zero h0]
    exact hm
  · rw [LimitReader.read_pos h0]
    exact hm.steps (Steps.one _ _)

/-- What a decoder of the segment of `T` has before it, and what it has yet to release. -/
structure Honest (K : Crypto) (dek : Bytes) (h : Header) (T : Bytes)
    (r : DecryptReader σ) (tail : Bytes) : Prop where
  err : r.err = none
  header : r.header = h
  sealer : r.sealer = Sealer.of K dek h
  ends : EndsInEof r.src.rd
  rest : (r.done = true ∧ tail = []) ∨
    (r.done = false ∧ r.held = true ∧ r.next < count h.chunkSize T.length
      ∧ content r.src = (Sealer.of K dek h).sealAll ((segmentChunks h.chunkSize T).drop r.next)
      ∧ tail = T.drop (r.next * h.chunkSize))

theorem sealAll_drop (s : Sealer) (h : i < count C T.length) : s.sealAll ((segmentChunks C T).drop i)
      = s.sealed (chunkAt C T i) ++ s.sealAll ((segmentChunks C T).drop (i + 1)) := by
  rw [drop_segmentChunks h]
  rfl

theorem sealed_chunkAt_length (s : Sealer) (C : Nat) (T : Bytes) (i : Nat) :
    (s.sealed (chunkAt C T i)).length = (block C T i).length + tagSize :=
  s.sealChunk_length ..

/-- After the last chunk there is nothing, before it there is more than a tag. -/
theorem sealAll_drop_eq_nil_iff (s : Sealer) (h : i ≤ count C T.length) :
    s.sealAll ((segmentChunks C T).drop i) = [] ↔ i = count C T.length := by
  constructor
  · intro hnil
    by_contra hne
    rw [sealAll_drop s (by omega)] at hnil
    have := congrArg length (append_eq_nil_iff.mp hnil).1
    rw [sealed_chunkAt_length, length_nil] at this
    unfold tagSize at this
    omega
  · rintro rfl
    rw [drop_of_length_le (Nat.le_of_eq (segmentChunks_length C T))]
    rfl

/-- The chunk that is read is the one the encoder sealed there, and the lookahead answers right. -/
theorem Honest.next_chunk {tail : Bytes} (hh : Honest K dek h T r tail) (hd : r.done = false) {sealed : Bytes}
    {final : Bool} {src : Bufio σ} (hn : r.NextChunk sealed final src) :
    sealed = (Sealer.of K dek h).sealed (chunkAt h.chunkSize T r.next)
      ∧ final = decide (r.next + 1 = count h.chunkSize T.length)
      ∧ content src = (Sealer.of K dek h).sealAll ((segmentChunks h.chunkSize T).drop (r.next + 1)) := by
  have hC := h.chunkSize_pos
  obtain ⟨hd', _⟩ | ⟨_, _, hlt, hcont, _⟩ := hh.rest
  · rw [hd] at hd'; simp at hd'
  have hsplit := hn.split
  rw [hcont, sealAll_drop _ hlt] at hsplit
  have hlen := congrArg length hsplit
  rw [length_append, length_append, sealed_chunkAt_length] at hlen
  have hle := hn.length_le
  rw [hh.header] at hle
  have hnil := sealAll_drop_eq_nil_iff (Sealer.of K dek h)
    hlt
  by_cases hlast : r.next + 1 = count h.chunkSize T.length
  · -- the last chunk: nothing follows it, so it cannot be taken for another
    rw [hnil.mpr hlast] at hsplit hlen ⊢
    have hb := block_length_le h.chunkSize T r.next
    cases final with
    | false =>
      obtain ⟨h1, h2⟩ := hn.more rfl
      rw [hh.header] at h1
      have : 0 < (content src).length := length_pos_iff.mpr h2
      rw [length_nil] at hlen
      omega
    | true =>
      obtain ⟨h1, _⟩ := hn.last rfl
      rw [h1, append_nil, append_nil] at hsplit
      exact ⟨hsplit.symm, by simp [hlast], h1⟩
  · have hb := block_length_of_lt hC (P := T) (i := r.next) (by omega)
    have hpos : 0 < ((Sealer.of K dek h).sealAll ((segmentChunks h.chunkSize T).drop (r.next + 1))).length :=
      length_pos_iff.mpr (fun hn => hlast (hnil.mp hn))
    cases final with
    | true =>
      obtain ⟨h1, _⟩ := hn.last rfl
      rw [h1, length_nil] at hlen
      omega
    | false =>
      obtain ⟨h1, _⟩ := hn.more rfl
      rw [hh.header] at h1
      obtain ⟨h2, h3⟩ := append_inj hsplit (by rw [sealed_chunkAt_length, hb, h1])
      exact ⟨h2.symm, by simp [hlast], h3.symm⟩

theorem Honest.fill_ok {tail : Bytes} (ho : Opens K dek h T) (hh : Honest K dek h T r tail) (hd : r.done = false) :
    ∃ r', r.fill = (none, r') ∧ ∃ tail', tail = r'.plain ++ tail' ∧ Honest K dek h T r' tail' := by
  have hC := h.chunkSize_pos
  obtain ⟨hd', _⟩ | ⟨_, hheld, hlt, hcont, htail⟩ := hh.rest
  · rw [hd] at hd'; simp at hd'
  cases DecryptReader.fill_cases hheld with
  | cut e src _ _ hcut _ =>
    exfalso
    -- the bytes left are a whole chunk at least
    have hlen := congrArg length hcont
    rw [sealAll_drop _ hlt, length_append, sealed_chunkAt_length] at hlen
    rcases hcut with ⟨e', he', hne⟩ | hshort | ⟨hempty, hnext⟩
    · exact hne (hh.ends e' he')
    · omega
    · have hpos := mul_lt_of_lt_count hC hlt hnext
      have hb := block_length h.chunkSize T r.next
      omega
  | chunk sealed final src hn heq =>
    obtain ⟨hsealed, hfinal, hrest⟩ := hh.next_chunk hd hn
    have hopen : r.sealer.openChunk sealed r.next final = .ok (block h.chunkSize T r.next) := by
      rw [hh.sealer, hsealed, hfinal]
      exact ho r.next hlt
    refine ⟨{ r with src := src, plain := block h.chunkSize T r.next, next := r.next + 1, done := final }, ?_, ?_⟩
    · rw [heq, DecryptReader.openNext, hopen]
    · refine ⟨T.drop ((r.next + 1) * h.chunkSize), by rw [htail, drop_block], ?_⟩
      refine ⟨hh.err, hh.header, hh.sealer, hh.ends.steps hn.steps, ?_⟩
      by_cases hlast : r.next + 1 = count h.chunkSize T.length
      · left
        refine ⟨by rw [hfinal]; simp [hlast], ?_⟩
        rw [hlast, drop_count hC]
      · right
        exact ⟨by rw [hfinal]; simp [hlast], hheld, by show r.next + 1 < _; omega, hrest, rfl⟩

/-- What a decoder of an honest segment has said when it stops: everything, and `EOF`. -/
theorem honest_release (ho : Opens K dek h T) :
    ReleaseInv (fun (r : DecryptReader σ) data => ∃ tail, data = r.plain ++ tail
        ∧ Honest K dek h T r tail) (fun _ e rest => e = .eof ∧ rest = []) := by
  apply DecryptReader.filler_reads.releaseInv
  · intro r tail hh
    exact hh.err
  · intro r tail k hh
    exact ⟨hh.err, hh.header, hh.sealer, hh.ends, hh.rest⟩
  · intro r tail hh _ hd
    obtain ⟨_, htail⟩ | ⟨hd', _⟩ := hh.rest
    · exact ⟨rfl, htail⟩
    · exact absurd (hd'.symm.trans hd) Bool.false_ne_true
  · intro r tail e r' hh _ hd hf
    obtain ⟨r'', hok, _⟩ := hh.fill_ok ho (Bool.eq_false_of_not_eq_true hd)
    exact absurd (congrArg Prod.fst (hok.symm.trans hf)) (by simp)
  · intro r tail r' hh _ hd hf
    obtain ⟨r'', hok, hrest⟩ := hh.fill_ok ho (Bool.eq_false_of_not_eq_true hd)
    obtain rfl := (Prod.mk.inj (hok.symm.trans hf)).2
    exact hrest

theorem decrypt_open {src : σ} {want : SegmentParams} (hc : content src = segmentBytes K dek h T)
    (hends : EndsInEof src) (hwant : want.validateExpectation = .ok ()) (hmeets : h.params.Meets want)
    (hdek : dek.length = keySize) :
    ∃ r, newDecryptReader K src dek want = .ok r ∧ r.plain = [] ∧ Honest K dek h T r T := by
  obtain ⟨r, hr, hheader, hrest⟩ := newDecryptReader_of_header hc hwant hmeets hdek
  have ho := newDecryptReader_ok hr
  refine ⟨r, hr, by rw [ho.fresh], ?_⟩
  refine ⟨by rw [ho.fresh], hheader, by rw [ho.fresh, hheader], hends.steps ho.steps, Or.inr ?_⟩
  have hnext : r.next = 0 := by rw [ho.fresh]
  refine ⟨by rw [ho.fresh], by rw [ho.fresh], ?_, ?_, ?_⟩
  · rw [hnext]; exact count_pos _ _
  · rw [hnext, hrest]; rfl
  · rw [hnext, Nat.zero_mul]; rfl

/-- Reading an honest segment: a prefix of the plaintext, and `EOF` exactly at its end. -/
theorem decrypt_run (ho : Opens K dek h T) (hp : r.plain = []) (hh : Honest K dek h T r T) (ks : List Nat) :
    (readMany r ks).out <+: T
      ∧ (∀ e, (readMany r ks).err = some e → e = .eof ∧ (readMany r ks).out = T)
      ∧ (T.length < (ks.filter (0 < ·)).length → (readMany r ks).err = some .eof) := by
  have hI : ∃ tail, T = r.plain ++ tail ∧ Honest K dek h T r tail := ⟨T, by rw [hp]; rfl, hh⟩
  obtain ⟨hout, hstop, hend⟩ :=
    (honest_release ho).reads_all DecryptReader.filler_reads.progress (fun _ _ _ h => h) hI ks
  exact ⟨hout, fun e he => ⟨(hstop e he).1, (hstop e he).2.1⟩, hend⟩

/--
**Segment round trip.** Under valid parameters, any salt and any data key, a plaintext within the
limit written in any pieces and closed gives one and the same byte string, of the size that
`SealedSize` announces. The decoder, whatever the source's cuts and the buffers are, releases
nothing but the plaintext from its beginning, stops with nothing but `EOF` and then has released
all of it, and does stop once it was offered more than enough non-empty buffers.
-/
theorem segment_round_trip {δ : Type} [ByteWriter δ GoErr] [LawfulWriter δ] {K : Crypto}
    (hK : K.gcm.Correct) (hnever : NeverFails δ) (dst : δ) {dek : Bytes}
    (hdek : dek.length = keySize) {p : SegmentParams} (hp : p.Valid) (salt : Salt)
    {P : Bytes} (hP : P.length ≤ maxPlaintextSize) :
    ∃ h w out, newHeaderWithSalt p salt = .ok h ∧ newEncryptWriter K dst dek h = .ok w
      ∧ sealedSize P.length p.log2ChunkSize = .ok (out.length : Int)
      ∧ (∀ pieces : List Bytes, pieces.flatten = P → (w.run (pieces.map .write ++ [.close])).2 = P
            ∧ (w.run (pieces.map .write ++ [.close])).1.err = none
            ∧ written (w.run (pieces.map .write ++ [.close])).1.dst = written dst ++ out)
      ∧ (∀ (src : σ) (want : SegmentParams), content src = out → EndsInEof src →
          want.validateExpectation = .ok () → p.Meets want →
          ∃ r, newDecryptReader K src dek want = .ok r ∧ ∀ ks : List Nat,
            (readMany r ks).out <+: P
              ∧ (∀ e, (readMany r ks).err = some e → e = .eof ∧ (readMany r ks).out = P)
              ∧ (P.length < (ks.filter (0 < ·)).length → (readMany r ks).err = some .eof)) := by
  obtain ⟨w, hw⟩ : ∃ w, newEncryptWriter K dst dek (Header.make p salt hp) = .ok w :=
    ⟨_, newEncryptWriter_ok dst _ hdek⟩
  refine ⟨Header.make p salt hp, w, segmentBytes K dek (Header.make p salt hp) P,
    newHeaderWithSalt_ok hp, hw, ?_, ?_, ?_⟩
  · rw [segmentBytes_length]
    exact sealedSize_natCast hp.1 hP
  · rintro pieces rfl
    obtain ⟨h1, h2, _, h3⟩ := EncryptWriter.encrypt_run hnever hw pieces hP
    exact ⟨h1, h2, h3⟩
  · intro src want hc hends hwant hmeets
    obtain ⟨r, hr, hplain, hh⟩ := decrypt_open hc hends hwant hmeets hdek
    exact ⟨r, hr, decrypt_run (Opens.of_correct hK dek _ _) hplain hh⟩

/-- A stand-in for the primitives that opens whatever carries a tag. -/
def plainCrypto : Crypto := ⟨fun _ _ _ n => replicate n 0, Aead.openAead tagSize⟩

/-- Single-part segments of 4 KiB chunks. -/
def smallParams : SegmentParams := ⟨12, false, 0⟩

/-- The round trip at a concrete key, salt and plaintext. -/
theorem segment_round_trip_abc : ∃ h w out, newHeaderWithSalt smallParams zeroSalt = .ok h
      ∧ newEncryptWriter plainCrypto (⟨[]⟩ : Buffer GoErr) (replicate keySize 7) h = .ok w
      ∧ sealedSize 3 12 = .ok ((out : Bytes).length : Int)
      ∧ written (w.run [.write [97], .write [98, 99], .close]).1.dst = out := by
  obtain ⟨h, w, out, h1, h2, h3, h4, _⟩ := segment_round_trip (σ := BytesReader GoErr)
    (K := plainCrypto) Aead.openAead_correct Buffer.neverFails (⟨[]⟩ : Buffer GoErr)
    (show (replicate keySize (7 : UInt8)).length = keySize by decide)
    (p := smallParams) (by decide) zeroSalt (P := [97, 98, 99]) (by decide)
  exact ⟨h, w, out, h1, h2, h3, (h4 [[97], [98, 99]] rfl).2.2⟩

end BlindBucket.Stream
