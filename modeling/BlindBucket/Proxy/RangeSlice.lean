import BlindBucket.Proxy.RangeAnswers

/-!
# A range of a segment is a slice of its plaintext

What a range header selects is defined here without its parser: from an offset to an offset, from an
offset to the end, or the last so many bytes. `parseRange` accepts a header exactly if it selects a byte,
and reading the chunks that `MapRange` names gives the bytes that are selected.
-/

namespace BlindBucket

open ByteIo BlindBucket.Stream Blocks GoText List

/-! ## What a range header selects -/

/-- The text of a number without a sign. -/
def Digits (t : Bytes) : Prop := t ≠ [] ∧ ∀ b ∈ t, 0x30 ≤ b ∧ b ≤ 0x39

instance (t : Bytes) : Decidable (Digits t) := inferInstanceAs (Decidable (_ ∧ _))

/-- The text of a number that an `int64` holds. -/
structure Numeral (t : Bytes) (v : Int) : Prop where
  form : Digits t ∨ ∃ ds, t = 0x2D :: ds ∧ Digits ds
  value : parseInt t = some v

/-- A range header, and the first and the last byte that it selects of `n` bytes. -/
inductive RangeText (n : Nat) : Bytes → Option (Nat × Nat) → Prop where
  | closed {first last : Bytes} {a : Nat} {b : Int} (hd : Digits first) (ha : parseInt first = some (a : Int))
      (hb : Numeral last b) :
      RangeText n (ascii "bytes=" ++ (first ++ 0x2D :: last))
        (if a < n ∧ (a : Int) ≤ b then some (a, min b.toNat (n - 1)) else none)
  | from {first : Bytes} {a : Nat} (hd : Digits first) (ha : parseInt first = some (a : Int)) :
      RangeText n (ascii "bytes=" ++ (first ++ 0x2D :: [])) (if a < n then some (a, n - 1) else none)
  | suffix {last : Bytes} {m : Int} (hm : Numeral last m) : RangeText n (ascii "bytes=" ++ ([] ++ 0x2D :: last))
        (if 0 < m then some (n - min m.toNat n, n - 1) else none)

theorem Numeral.plain {t : Bytes} {v : Int} (h : Numeral t v) : t ≠ [] ∧ ∀ b ∈ t, Graphic b ∧ b ≠ 0x2C := by
  have hdigits : ∀ {ds : Bytes}, Digits ds → ∀ b ∈ ds, Graphic b ∧ b ≠ 0x2C :=
    fun hd b hb => ⟨(digit_plain (hd.2 b hb)).1, (digit_plain (hd.2 b hb)).2.1⟩
  rcases h.form with hd | ⟨ds, rfl, hd⟩
  · exact ⟨hd.1, hdigits hd⟩
  · refine ⟨cons_ne_nil _ _, fun b hb => ?_⟩
    rcases mem_cons.mp hb with rfl | hb
    · decide
    · exact hdigits hd b hb

/-- The answer of a parser that finds these bytes. -/
def Finds (answer : Except ApiError (Int × Int)) : Option (Nat × Nat) → Prop
  | none => ∃ err, answer = .error err
  | some (a, e) => answer = .ok ((a : Int), (e : Int))

variable {n a e : Nat}

/-- **`parseRange` finds what is selected**, and fails exactly if that is nothing. -/
theorem parseRange_selects {text : Bytes} {sel : Option (Nat × Nat)} (hn : 1 ≤ n) (h : RangeText n text sel) :
    Finds (parseRange text n) sel := by
  cases h with
  | closed hd ha hb =>
    rename_i first last a b
    obtain ⟨hne, hlast⟩ := hb.plain
    rw [parseRange_split (fun c hc => digit_plain (hd.2 c hc)) hlast (fun h0 => hd.1 h0.1), if_neg hd.1,
      if_neg hne]
    unfold parseBoth
    rw [ha, hb.value]
    dsimp only
    by_cases hsel : a < n ∧ (a : Int) ≤ b
    · rw [if_pos hsel, if_neg (by omega), if_neg (by omega)]
      congr 2
      split <;> omega
    · rw [if_neg hsel]
      by_cases hba : (a : Int) < 0 ∨ b < a
      · exact ⟨_, if_pos hba⟩
      · rw [if_neg hba, if_pos (by omega)]
        exact ⟨_, rfl⟩
  | «from» hd ha =>
    rename_i first a
    rw [parseRange_split (fun c hc => digit_plain (hd.2 c hc)) (by simp) (fun h0 => hd.1 h0.1), if_neg hd.1,
      if_pos rfl]
    unfold parseFrom
    rw [ha]
    dsimp only
    rw [if_neg (by omega)]
    by_cases hsel : a < n
    · rw [if_pos hsel, if_neg (by omega)]
      congr 2
      omega
    · rw [if_neg hsel, if_pos (by omega)]
      exact ⟨_, rfl⟩
  | suffix hm =>
    rename_i last m
    obtain ⟨hne, hlast⟩ := hm.plain
    rw [parseRange_split (by simp) hlast (fun h0 => hne h0.2), if_pos rfl]
    unfold parseSuffix
    rw [hm.value]
    dsimp only
    by_cases hsel : 0 < m
    · rw [if_pos hsel, if_neg (by omega)]
      congr 2
      · split <;> omega
      · omega
    · rw [if_neg hsel, if_pos (by omega)]
      exact ⟨_, rfl⟩

theorem RangeText.bounds {text : Bytes} (hn : 1 ≤ n) (h : RangeText n text (some (a, e))) : a ≤ e ∧ e < n := by
  generalize hsel : some (a, e) = sel at h
  cases h with
  | closed hd ha hb | «from» hd ha | suffix hm =>
    split at hsel
    · cases hsel
      omega
    · simp at hsel

/-! ## The ciphertext of a range -/

/-- Byte `x` of a segment belongs to chunk `i`. -/
def InChunkAt (log2C i x : Nat) : Prop :=
  headerSize + i * (2 ^ log2C + tagSize) ≤ x ∧ x < headerSize + (i + 1) * (2 ^ log2C + tagSize)

/-- The ciphertext that `MapRange` names lies inside the object and holds chunks of the range only. -/
theorem rangeOf_covers (log2C : Nat) (hae : a ≤ e) (hen : e < n) : headerSize ≤ (rangeOf log2C n a e).cipherStart
      ∧ (rangeOf log2C n a e).cipherStart ≤ (rangeOf log2C n a e).cipherEnd
      ∧ (rangeOf log2C n a e).cipherEnd < sealedLen log2C n
      ∧ ∀ x, (rangeOf log2C n a e).cipherStart ≤ x → x ≤ (rangeOf log2C n a e).cipherEnd →
        ∃ i, InChunkAt log2C i x ∧ i * 2 ^ log2C ≤ e ∧ a < (i + 1) * 2 ^ log2C := by
  have hC := two_pow_pos' log2C
  have hfits : (rangeOf log2C n a e).Fits (2 ^ log2C) n := rangeOf_fits hae hen
  have hstart : (rangeOf log2C n a e).cipherStart = headerSize + a / 2 ^ log2C * (2 ^ log2C + tagSize) := rfl
  have hend : (rangeOf log2C n a e).cipherEnd
      = min (headerSize + (e / 2 ^ log2C + 1) * (2 ^ log2C + tagSize)) (sealedLen log2C n) - 1 := rfl
  have hle : a / 2 ^ log2C ≤ e / 2 ^ log2C := Nat.div_le_div_right hae
  have hmul := Nat.mul_le_mul_right (2 ^ log2C + tagSize) hle
  have hlast : e / 2 ^ log2C < count (2 ^ log2C) n := hfits.last_lt
  have hinside := strides_lt_sealedLen hlast
  have hnext : (e / 2 ^ log2C + 1) * (2 ^ log2C + tagSize)
      = e / 2 ^ log2C * (2 ^ log2C + tagSize) + (2 ^ log2C + tagSize) := by
    rw [Nat.add_mul, Nat.one_mul]
  refine ⟨by omega, by omega, by omega, fun x hx hx' => ?_⟩
  -- the chunk of `x` is the number of whole strides before it
  have hstride : 0 < 2 ^ log2C + tagSize := by omega
  have hlow := Nat.div_mul_le_self (x - headerSize) (2 ^ log2C + tagSize)
  have hhigh := Nat.lt_mul_div_succ (x - headerSize) hstride
  rw [Nat.mul_comm] at hhigh
  refine ⟨(x - headerSize) / (2 ^ log2C + tagSize), ⟨by omega, by omega⟩, ?_, ?_⟩
  · have hi : (x - headerSize) / (2 ^ log2C + tagSize) ≤ e / 2 ^ log2C := by
      rw [← Nat.lt_succ_iff, Nat.div_lt_iff_lt_mul hstride]
      change x - headerSize < (e / 2 ^ log2C + 1) * (2 ^ log2C + tagSize)
      omega
    exact (Nat.mul_le_mul_right _ hi).trans (Nat.div_mul_le_self e _)
  · have hi : a / 2 ^ log2C ≤ (x - headerSize) / (2 ^ log2C + tagSize) := by
      rw [Nat.le_div_iff_mul_le hstride]
      omega
    have hlt := Nat.lt_mul_div_succ a hC
    rw [Nat.mul_comm] at hlt
    exact hlt.trans_le (Nat.mul_le_mul_right _ (Nat.succ_le_succ hi))

/-! ## The slice -/

section

variable {σ : Type} [ByteReader σ GoErr] [LawfulReader σ] {K : Crypto} {dek : Bytes}

/--
**A range of a single-part object is the slice of its plaintext.** Let `P` be a plaintext of at least
one byte, let the object be its encoding, and let the range header select bytes `a` to `e` or nothing.

* `parseRange` fails exactly if nothing is selected, and otherwise answers `a` and `e`;
* `MapRange` succeeds, and the ciphertext that it names lies inside the object and holds chunks that
  intersect the range only;
* from that ciphertext and the header, however the source cuts it up, the range reader emits `P[a..e]`
  and then `EOF`, for every sequence of buffers.
-/
theorem single_range_slice (hK : K.gcm.Correct) (hdek : dek.length = keySize) {p : SegmentParams}
    (hp : p.Valid) (salt : Salt) {P : Bytes} (hpos : 1 ≤ P.length) (hmax : P.length ≤ maxPlaintextSize)
    {text : Bytes} {sel : Option (Nat × Nat)} (htext : RangeText P.length text sel) :
    ((∃ err, parseRange text P.length = .error err) ↔ sel = none) ∧
    ∀ a e, sel = some (a, e) → parseRange text P.length = .ok ((a : Int), (e : Int)) ∧
      ∃ rng, mapRange a e (segmentBytes K dek (Header.make p salt hp) P).length p.log2ChunkSize = .ok rng
        ∧ (headerSize ≤ rng.cipherStart ∧ rng.cipherStart ≤ rng.cipherEnd
          ∧ rng.cipherEnd < (segmentBytes K dek (Header.make p salt hp) P).length)
        ∧ (∀ x, rng.cipherStart ≤ x → x ≤ rng.cipherEnd → ∃ i, InChunkAt p.log2ChunkSize i x
          ∧ i * 2 ^ p.log2ChunkSize ≤ e ∧ a < (i + 1) * 2 ^ p.log2ChunkSize)
        ∧ ∀ (src : σ) (want : SegmentParams), EndsInEof src →
          content src = (segmentBytes K dek (Header.make p salt hp) P).extract rng.cipherStart
            (rng.cipherEnd + 1) →
          want.validateExpectation = .ok () → p.Meets want →
          ∃ r, newRangeReader K src (Header.make p salt hp).raw dek want rng = .ok r ∧ ∀ ks : List Nat,
            (readMany r ks).out <+: P.extract a (e + 1)
            ∧ (∀ err, (readMany r ks).err = some err → err = .eof ∧ (readMany r ks).out = P.extract a (e + 1))
            ∧ (P.length < (ks.filter (0 < ·)).length → (readMany r ks).err = some .eof) := by
  have hfinds := parseRange_selects hpos htext
  refine ⟨⟨fun hfail => ?_, fun hnone => ?_⟩, fun a e hsel => ?_⟩
  · cases hs : sel with
    | none => rfl
    | some q =>
      obtain ⟨err, herr⟩ := hfail
      rw [hs] at hfinds
      exact absurd (herr.symm.trans hfinds) (by simp)
  · rw [hnone] at hfinds
    exact hfinds
  · subst hsel
    obtain ⟨hae, hen⟩ := htext.bounds hpos
    have hmap := mapRange_natCast hp.1 hmax hae (hae.trans_lt hen)
    have hsize : (segmentBytes K dek (Header.make p salt hp) P).length = sealedLen p.log2ChunkSize P.length :=
      segmentBytes_length ..
    rw [Nat.min_eq_left (by omega), ← hsize] at hmap
    obtain ⟨hlow, hle, hend, hcover⟩ := rangeOf_covers p.log2ChunkSize hae hen
    refine ⟨hfinds, _, hmap, ⟨hlow, hle, ?_⟩, hcover, fun src want hends hcontent hwant hmeets => ?_⟩
    · rw [hsize]
      exact hend
    · have hfits : (rangeOf p.log2ChunkSize P.length a e).Fits (Header.make p salt hp).chunkSize P.length :=
        rangeOf_fits hae hen
      obtain ⟨r, hnew, hopened⟩ := newRangeReader_of_header K src (h := Header.make p salt hp) hwant hmeets hdek
        hfits.first_le
      refine ⟨r, hnew, fun ks => ?_⟩
      have hchunks := hcontent.trans (segmentBytes_extract K dek (Header.make p salt hp) P hae hen)
      have hhonest := hopened.honest hfits hchunks hends
      have hslice : (rangeOf p.log2ChunkSize P.length a e).slice (Header.make p salt hp).chunkSize P
          = P.extract a (e + 1) := by
        have hstart := rangeOf_start p.log2ChunkSize P.length a e
        change (P.drop ((rangeOf p.log2ChunkSize P.length a e).firstChunk * 2 ^ p.log2ChunkSize
          + (rangeOf p.log2ChunkSize P.length a e).skip)).take (e - a + 1) = _
        rw [hstart]
        congr 1
        omega
      rw [hslice] at hhonest
      obtain ⟨h1, h2, h3⟩ := hhonest.run (Opens.of_correct hK dek _ _) hfits (by rw [hopened.fresh]) ks
      refine ⟨h1, h2, fun hlen => h3 (Nat.lt_of_le_of_lt ?_ hlen)⟩
      rw [length_take]
      omega

/-- The bytes from offset 1 on, of an object of three bytes. -/
theorem single_range_slice_abc : parseRange (ascii "bytes=1-") 3 = .ok (1, 2) ∧
    ∃ (rng : Stream.Range) (r : RangeReader (BytesReader GoErr)),
      (readMany r [1, 1, 1, 1]).out = [98, 99] ∧ (readMany r [1, 1, 1, 1]).err = some .eof
        ∧ mapRange 1 2 51 12 = .ok rng := by
  have htext : RangeText [97, 98, 99].length (ascii "bytes=" ++ ([0x31] ++ 0x2D :: [])) (some (1, 2)) :=
    RangeText.from (a := 1) (by decide +kernel) (by decide)
  obtain ⟨-, hsel⟩ := single_range_slice (σ := BytesReader GoErr) (K := plainCrypto) Aead.openAead_correct
    (show (replicate keySize (7 : UInt8)).length = keySize from length_replicate)
    (p := smallParams) (by decide) zeroSalt (P := [97, 98, 99]) (by decide) (by decide) htext
  obtain ⟨hparse, rng, hmap, -, -, hread⟩ := hsel 1 2 rfl
  obtain ⟨r, -, hrun⟩ := hread ⟨_, .eof⟩ smallParams (fun e he => he) rfl (by decide)
    ⟨.inr rfl, rfl, rfl⟩
  obtain ⟨-, hend, heof⟩ := hrun [1, 1, 1, 1]
  have herr := heof (by decide)
  refine ⟨hparse, rng, r, (hend _ herr).2, herr, ?_⟩
  exact hmap

end

end BlindBucket
