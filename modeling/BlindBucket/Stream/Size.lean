import BlindBucket.Stream.Format
import BlindBucket.Lib.Blocks

/-!
# Sizes

The length of a segment is a function of the length of its plaintext, and the
function is injective, so a ciphertext length either names one plaintext length or is
rejected. Sizes are signed in the source, where a caller may hand over anything;
`sealedLen` is the arithmetic behind them, on natural numbers.
-/

namespace BlindBucket.Stream

open Blocks

/-- Above the ciphertext size of the longest plaintext. -/
def maxSealedPayload : Nat := 2 ^ 47

/-- At least one, since an empty segment is one empty chunk. -/
def chunkCount (plain : Int) (log2C : Nat) : Int :=
  let c : Int := 2 ^ log2C
  let n := (plain + c - 1).tdiv c
  if 0 < n then n else 1

def validateSegmentCount (segments : Int) : Try Unit :=
  if segments < 1 ∨ (maxParts : Int) < segments then
    .error (errorf "stream: segment count %d outside 1..%d" [.int segments, .int maxParts])
  else .ok ()

def sealedSizeSegments (plain : Int) (log2C : Nat) (segments : Int) : Try Int := do
  validateLog2ChunkSize log2C
  validateSegmentCount segments
  if plain < 0 ∨ (maxPlaintextSize : Int) < plain then
    .error (errorf "stream: plaintext size %d outside 0..%d" [.int plain, .int maxPlaintextSize])
  else
    let chunks := (plain + 2 ^ log2C - 1).tdiv (2 ^ log2C)
    -- a segment contributes at least one chunk
    let chunks := if chunks < segments then segments else chunks
    .ok (headerSize * segments + plain + tagSize * chunks)

def sealedSize (plain : Int) (log2C : Nat) : Try Int := sealedSizeSegments plain log2C 1

/-- The last steps of `OpenedSizeSegments`: compute forward again and compare. -/
def openedSizeCheck (sealed plain : Int) (log2C : Nat) (segments : Int) : Try Int :=
  let mismatch : Error := integrityf .size
    "ciphertext size %d corresponds to no plaintext size for %d segment(s)"
    [.int sealed, .int segments]
  match sealedSizeSegments plain log2C segments with
  | .error _ => .error mismatch
  | .ok back => if back = sealed then .ok plain else .error mismatch

def openedSizeSegments (sealed : Int) (log2C : Nat) (segments : Int) : Try Int := do
  validateLog2ChunkSize log2C
  validateSegmentCount segments
  let minimum : Int := headerSize * segments + tagSize
  if sealed < minimum then
    .error (integrityf .size "ciphertext size %d is below the minimum %d for %d segment(s)"
      [.int sealed, .int minimum, .int segments])
  else if (maxSealedPayload : Int) < sealed then
    .error (integrityf .size "ciphertext size %d exceeds the supported maximum" [.int sealed])
  else
    let stride : Int := 2 ^ log2C + tagSize
    let payload := sealed - headerSize * segments
    let r := payload.tmod stride
    -- a bare tag is the one payload whose remainder may fall in the excluded band
    if payload ≠ tagSize ∧ 1 ≤ r ∧ r ≤ tagSize then
      .error (integrityf .size "ciphertext size %d leaves remainder %d, which no encoder produces"
        [.int sealed, .int r])
    else
      let chunks := (payload + stride - 1).tdiv stride
      let plain := payload - tagSize * chunks
      if plain < 0 then
        .error (integrityf .size "ciphertext size %d yields a negative plaintext size" [.int sealed])
      else openedSizeCheck sealed plain log2C segments

def openedSize (sealed : Int) (log2C : Nat) : Try Int := openedSizeSegments sealed log2C 1

/-! ## The arithmetic -/

/-- The length of a segment of `n` plaintext bytes. -/
def sealedLen (log2C n : Nat) : Nat := headerSize + n + tagSize * count (2 ^ log2C) n

theorem two_pow_pos' (c : Nat) : 0 < 2 ^ c := Nat.pow_pos (by decide)

theorem two_pow_cast (c : Nat) : (2 : Int) ^ c = ((2 ^ c : Nat) : Int) := by push_cast; rfl

variable {C m n c k : Nat} {s p : Int}

/-- Rounding up on natural numbers is what the signed division computes. -/
theorem tdiv_ceil (n : Nat) (hC : 0 < C) : ((n : Int) + C - 1).tdiv C = ((n + C - 1) / C : Nat) := by
  have hcast : ((n : Int) + C - 1) = ((n + C - 1 : Nat) : Int) := by omega
  rw [hcast]
  rfl

theorem chunkCount_natCast (n c : Nat) : chunkCount n c = count (2 ^ c) n := by
  unfold chunkCount count
  dsimp only
  rw [two_pow_cast, tdiv_ceil n (two_pow_pos' c)]
  split <;> omega

theorem sealedLen_strictMono (c : Nat) (h : m < n) : sealedLen c m < sealedLen c n := by
  have hle : count (2 ^ c) m ≤ count (2 ^ c) n := by
    unfold count
    have : (m + 2 ^ c - 1) / 2 ^ c ≤ (n + 2 ^ c - 1) / 2 ^ c :=
      Nat.div_le_div_right (by omega)
    omega
  unfold sealedLen
  have := Nat.mul_le_mul_left tagSize hle
  omega

theorem sealedLen_inj (h : sealedLen c m = sealedLen c n) : m = n := by
  rcases Nat.lt_trichotomy m n with hlt | heq | hgt
  · have := sealedLen_strictMono c hlt; omega
  · exact heq
  · have := sealedLen_strictMono c hgt; omega

/-- What is left of a stride-long ceiling once the tags are taken off. -/
theorem count_stride : (n + tagSize * count (2 ^ c) n + (2 ^ c + tagSize) - 1) / (2 ^ c + tagSize)
      = count (2 ^ c) n := by
  have hC := two_pow_pos' c
  have hle := le_count_mul hC n
  obtain ⟨m, hm⟩ : ∃ m, count (2 ^ c) n = m + 1 := ⟨count (2 ^ c) n - 1, by have := count_pos (2 ^ c) n; omega⟩
  -- one stride too few does not reach, one too many overshoots
  have hlow : m * 2 ^ c ≤ n := mul_le_of_lt_count hC (by omega)
  rw [hm] at hle ⊢
  generalize 2 ^ c = C at *
  rw [Nat.add_mul] at hle
  have hstride : (m + 1) * (C + tagSize) = m * C + C + tagSize * (m + 1) := by ring
  have htag : 0 < tagSize := by decide
  apply Nat.div_eq_of_lt_le
  · rw [hstride]; omega
  · have : (m + 1 + 1) * (C + tagSize) = m * C + C + C + tagSize * (m + 1) + tagSize := by ring
    rw [this]; omega

/-- No encoder leaves a remainder of 1 to 16, a bare tag apart. -/
theorem sealed_remainder (hn : n ≠ 0) : ¬ (1 ≤ (n + tagSize * count (2 ^ c) n) % (2 ^ c + tagSize)
      ∧ (n + tagSize * count (2 ^ c) n) % (2 ^ c + tagSize) ≤ tagSize) := by
  have hC := two_pow_pos' c
  obtain ⟨hk, hle, hlast⟩ := (count_eq_iff hC n _).mp rfl
  generalize count (2 ^ c) n = k at *
  generalize 2 ^ c = C at *
  obtain ⟨m, rfl⟩ : ∃ m, k = m + 1 := ⟨k - 1, by omega⟩
  have hlow : m * C < n := by
    rcases hlast with h | h
    · have : m = 0 := by omega
      rw [this, Nat.zero_mul]; omega
    · rwa [Nat.add_sub_cancel] at h
  rw [Nat.add_mul] at hle
  rintro ⟨h1, h2⟩
  -- the payload is `m` strides and a rest that is more than a tag
  have hsplit : n + tagSize * (m + 1) = (n - m * C + tagSize) + m * (C + tagSize) := by
    have : m * (C + tagSize) = m * C + tagSize * m := by ring
    rw [this, Nat.mul_add, Nat.mul_one]; omega
  rw [hsplit, Nat.add_mul_mod_self_right] at h1 h2
  rcases Nat.lt_or_ge (n - m * C + tagSize) (C + tagSize) with hlt | hge
  · rw [Nat.mod_eq_of_lt hlt] at h2; omega
  · have hfull : n - m * C + tagSize = C + tagSize := by omega
    rw [hfull, Nat.mod_self] at h1; omega

/-- The length of an object of `k` segments of which all but the last are whole chunks: the chunks are
those of the whole plaintext. -/
def segmentsLen (log2C k n : Nat) : Nat := headerSize * k + n + tagSize * count (2 ^ log2C) n

theorem segmentsLen_one (c n : Nat) : segmentsLen c 1 n = sealedLen c n := by
  unfold segmentsLen sealedLen
  rw [Nat.mul_one]

theorem segmentsLen_le (hc : ValidLog2 c) (hk : k ≤ maxParts) (hn : n ≤ maxPlaintextSize) :
    segmentsLen c k n ≤ maxSealedPayload := by
  have hC := two_pow_pos' c
  obtain ⟨_, _, hlast⟩ := (count_eq_iff hC n _).mp rfl
  have hmin : 2 ^ minLog2ChunkSize ≤ 2 ^ c := Nat.pow_le_pow_right (by decide) hc.1
  unfold maxPlaintextSize at hn
  unfold maxParts at hk
  unfold segmentsLen headerSize tagSize maxSealedPayload
  -- chunks of at least 4096 bytes: their tags are a small part of the plaintext
  rcases hlast with h | h
  · rw [h]; omega
  · have hmul : (count (2 ^ c) n - 1) * 2 ^ 12 ≤ (count (2 ^ c) n - 1) * 2 ^ c :=
      Nat.mul_le_mul_left _ hmin
    omega

/-- A payload of fewer chunks than segments leaves a remainder of 1 to 16. -/
theorem short_remainder (hC : 0 < C) (hk : 2 ≤ k) (hn : n ≤ (k - 1) * C)
    (hdiv : (n + tagSize * k + (C + tagSize) - 1) / (C + tagSize) = k) :
    1 ≤ (n + tagSize * k) % (C + tagSize) ∧ (n + tagSize * k) % (C + tagSize) ≤ tagSize := by
  obtain ⟨m, rfl⟩ : ∃ m, k = m + 1 := ⟨k - 1, by omega⟩
  rw [Nat.add_sub_cancel] at hn
  have hlow := Nat.div_mul_le_self (n + tagSize * (m + 1) + (C + tagSize) - 1) (C + tagSize)
  rw [hdiv] at hlow
  have hstride : (m + 1) * (C + tagSize) = m * (C + tagSize) + (C + tagSize) := by ring
  have hm : m * (C + tagSize) = m * C + tagSize * m := by ring
  -- the payload is `m` strides and a rest of at most a tag
  have hsplit : n + tagSize * (m + 1) = (n + tagSize * (m + 1) - m * (C + tagSize)) + m * (C + tagSize) := by
    omega
  have hrest : n + tagSize * (m + 1) - m * (C + tagSize) ≤ tagSize := by
    rw [Nat.mul_add]
    omega
  rw [hsplit, Nat.add_mul_mod_self_right, Nat.mod_eq_of_lt (by omega)]
  exact ⟨by omega, hrest⟩

/-! ## The source's functions -/

theorem validateSegmentCount_ok {k : Int} : validateSegmentCount k = .ok () ↔ 1 ≤ k ∧ k ≤ maxParts := by
  unfold validateSegmentCount
  split
  next h =>
    exact ⟨fun h' => absurd h' (by simp), fun h' => by omega⟩
  next h =>
    exact ⟨fun _ => by omega, fun _ => rfl⟩

theorem sealedSizeSegments_eq (hc : ValidLog2 c) (hk : 1 ≤ k ∧ k ≤ maxParts) (hn : n ≤ maxPlaintextSize) :
    sealedSizeSegments n c k
      = .ok ((headerSize * k + n + tagSize * max ((n + 2 ^ c - 1) / 2 ^ c) k : Nat) : Int) := by
  have hlog := validateLog2ChunkSize_ok.mpr hc
  have hseg : validateSegmentCount k = .ok () := validateSegmentCount_ok.mpr (by omega)
  have hrange : ¬ ((n : Int) < 0 ∨ (maxPlaintextSize : Int) < n) := by omega
  have hmax : (if (((n + 2 ^ c - 1) / 2 ^ c : Nat) : Int) < k then (k : Int)
      else ((n + 2 ^ c - 1) / 2 ^ c : Nat)) = (max ((n + 2 ^ c - 1) / 2 ^ c) k : Nat) := by
    split <;> omega
  unfold sealedSizeSegments
  rw [hlog, hseg]
  simp only [bind, Except.bind]
  rw [if_neg hrange, two_pow_cast, tdiv_ceil n (two_pow_pos' c), hmax]
  rfl

theorem sealedSizeSegments_natCast (hc : ValidLog2 c) (hk : 1 ≤ k ∧ k ≤ maxParts) (hn : n ≤ maxPlaintextSize)
    (hfull : k ≤ count (2 ^ c) n) :
    sealedSizeSegments n c k = .ok (segmentsLen c k n) := by
  rw [sealedSizeSegments_eq hc hk hn]
  have hmax : max ((n + 2 ^ c - 1) / 2 ^ c) k = count (2 ^ c) n := by
    unfold count at hfull ⊢
    omega
  rw [hmax]
  rfl

theorem sealedSizeSegments_one (n c : Nat) (hc : ValidLog2 c) (hn : n ≤ maxPlaintextSize) :
    sealedSizeSegments n c 1 = .ok (sealedLen c n) := by
  have h := sealedSizeSegments_natCast hc (by decide) hn (count_pos (2 ^ c) n)
  exact h

/-- **`SealedSize` is `sealedLen`** on every length it accepts. -/
theorem sealedSize_natCast (hc : ValidLog2 c) (hn : n ≤ maxPlaintextSize) :
    sealedSize n c = .ok (sealedLen c n) := sealedSizeSegments_one n c hc hn

theorem sealedSizeSegments_dom {plain k : Int} (h : sealedSizeSegments plain c k = .ok s) :
    (ValidLog2 c ∧ 1 ≤ k ∧ k ≤ maxParts) ∧ 0 ≤ plain ∧ plain ≤ maxPlaintextSize := by
  obtain ⟨_, hlog, h⟩ := bind_ok h
  obtain ⟨_, hseg, h⟩ := bind_ok h
  obtain ⟨hrange, h⟩ := else_ok h
  exact ⟨⟨validateLog2ChunkSize_ok.mp hlog, validateSegmentCount_ok.mp hseg⟩, by omega, by omega⟩

theorem sealedSize_ok_iff {plain : Int} : sealedSize plain c = .ok s ↔
      ValidLog2 c ∧ ∃ n : Nat, plain = n ∧ n ≤ maxPlaintextSize ∧ s = sealedLen c n := by
  constructor
  · intro h
    obtain ⟨⟨hc, -⟩, h0, hmax⟩ := sealedSizeSegments_dom h
    obtain ⟨n, rfl⟩ := Int.eq_ofNat_of_zero_le h0
    have hn : n ≤ maxPlaintextSize := by omega
    rw [sealedSize_natCast hc hn] at h
    exact ⟨hc, n, rfl, hn, (Except.ok.inj h).symm⟩
  · rintro ⟨hc, n, rfl, hn, rfl⟩
    exact sealedSize_natCast hc hn

theorem openedSizeCheck_ok {p' k : Int} (h : openedSizeCheck s p c k = .ok p') :
    p' = p ∧ sealedSizeSegments p c k = .ok s := by
  unfold openedSizeCheck at h
  split at h
  · simp at h
  next back hback =>
    obtain ⟨heq, h⟩ := then_ok h
    rw [heq] at hback
    exact ⟨(Except.ok.inj h).symm, hback⟩

/-- What `OpenedSizeSegments` has checked when it returns. -/
structure OpenedSegments (s : Int) (c : Nat) (k p : Int) : Prop where
  nonneg : 0 ≤ p
  remainder : ¬ (s - headerSize * k ≠ tagSize
    ∧ 1 ≤ (s - headerSize * k).tmod (2 ^ c + tagSize) ∧ (s - headerSize * k).tmod (2 ^ c + tagSize) ≤ tagSize)
  plain : p = s - headerSize * k
    - tagSize * (s - headerSize * k + (2 ^ c + tagSize) - 1).tdiv (2 ^ c + tagSize)
  seals : sealedSizeSegments p c k = .ok s

theorem openedSizeSegments_ok {k : Int} (h : openedSizeSegments s c k = .ok p) : OpenedSegments s c k p := by
  obtain ⟨_, -, h⟩ := bind_ok h
  obtain ⟨_, -, h⟩ := bind_ok h
  obtain ⟨_, h⟩ := else_ok h
  obtain ⟨_, h⟩ := else_ok h
  obtain ⟨hrem, h⟩ := else_ok h
  obtain ⟨hneg, h⟩ := else_ok h
  obtain ⟨rfl, hs⟩ := openedSizeCheck_ok h
  exact ⟨by omega, hrem, rfl, hs⟩

/-- Whatever `OpenedSizeSegments` returns seals to the size it was asked about. -/
theorem openedSizeSegments_sound {k : Int} (h : openedSizeSegments s c k = .ok p) : sealedSizeSegments p c k = .ok s :=
  (openedSizeSegments_ok h).seals

theorem openedSizeSegments_segmentsLen (hc : ValidLog2 c) (hk : 1 ≤ k ∧ k ≤ maxParts) (hn : n ≤ maxPlaintextSize)
    (hfull : k ≤ count (2 ^ c) n) :
    openedSizeSegments (segmentsLen c k n) c k = .ok n := by
  have hC := two_pow_pos' c
  have hlog := validateLog2ChunkSize_ok.mpr hc
  have hseg : validateSegmentCount k = .ok () := validateSegmentCount_ok.mpr (by omega)
  have hle := segmentsLen_le hc hk.2 hn
  have hpay : ((segmentsLen c k n : Nat) : Int) - headerSize * k = ((n + tagSize * count (2 ^ c) n : Nat) : Int) := by
    unfold segmentsLen; push_cast; ring
  have hstride : (2 : Int) ^ c + (tagSize : Int) = ((2 ^ c + tagSize : Nat) : Int) := by
    rw [two_pow_cast]; push_cast; rfl
  have hmin : ¬ (((segmentsLen c k n : Nat) : Int) < headerSize * k + tagSize) := by
    unfold segmentsLen tagSize
    omega
  have hmaximum : ¬ ((maxSealedPayload : Int) < (segmentsLen c k n : Nat)) := by omega
  have hrem : ¬ (((n + tagSize * count (2 ^ c) n : Nat) : Int) ≠ tagSize
      ∧ 1 ≤ ((n + tagSize * count (2 ^ c) n : Nat) : Int).tmod ((2 ^ c + tagSize : Nat) : Int)
      ∧ ((n + tagSize * count (2 ^ c) n : Nat) : Int).tmod ((2 ^ c + tagSize : Nat) : Int) ≤ tagSize) := by
    rintro ⟨hne, h1, h2⟩
    rw [← Int.ofNat_tmod] at h1 h2
    refine sealed_remainder ?_ ⟨by exact_mod_cast h1, by exact_mod_cast h2⟩
    rintro rfl
    -- no plaintext means one chunk, which is the bare tag
    have hone : count (2 ^ c) 0 = 1 := (count_eq_iff hC 0 1).mpr ⟨by omega, by omega, Or.inl rfl⟩
    rw [hone] at hne
    exact hne (by simp)
  have hceil : (((n + tagSize * count (2 ^ c) n : Nat) : Int)
      + ((2 ^ c + tagSize : Nat) : Int) - 1).tdiv ((2 ^ c + tagSize : Nat) : Int)
      = count (2 ^ c) n := by
    rw [tdiv_ceil _ (by omega), count_stride]
  have hplain : ((n + tagSize * count (2 ^ c) n : Nat) : Int) - tagSize * (count (2 ^ c) n : Nat)
      = n := by push_cast; ring
  unfold openedSizeSegments
  rw [hlog, hseg]
  simp only [bind, Except.bind]
  rw [if_neg hmaximum, hpay, hstride, if_neg hrem, hceil, hplain,
    if_neg (by omega)]
  unfold openedSizeCheck
  rw [sealedSizeSegments_natCast hc hk hn hfull]
  simp

/-- A size is accepted only if every segment has a chunk of its own. -/
theorem openedSizeSegments_full (h : openedSizeSegments s c k = .ok (n : Int)) : k ≤ count (2 ^ c) n := by
  have hopen := openedSizeSegments_ok h
  obtain ⟨⟨hc, hk⟩, -, hn⟩ := sealedSizeSegments_dom hopen.seals
  have hC := two_pow_pos' c
  have hseals := hopen.seals
  rw [sealedSizeSegments_eq hc (by omega) (by omega)] at hseals
  by_contra hlt
  have hshort : count (2 ^ c) n < k := by omega
  have hk2 : 2 ≤ k := by
    have := count_pos (2 ^ c) n
    omega
  -- so the chunks that were counted are the segments
  have hmax : max ((n + 2 ^ c - 1) / 2 ^ c) k = k := by
    unfold count at hshort
    omega
  rw [hmax] at hseals
  have hpay : s - headerSize * k = ((n + tagSize * k : Nat) : Int) := by
    rw [← Except.ok.inj hseals]
    push_cast
    ring
  have hstride : (2 : Int) ^ c + (tagSize : Int) = ((2 ^ c + tagSize : Nat) : Int) := by
    rw [two_pow_cast]; push_cast; rfl
  have hplain := hopen.plain
  have hrem := hopen.remainder
  rw [hpay, hstride, tdiv_ceil _ (by omega)] at hplain
  rw [hpay, hstride, ← Int.ofNat_tmod] at hrem
  have htag : tagSize = 16 := rfl
  have hdiv : (n + tagSize * k + (2 ^ c + tagSize) - 1) / (2 ^ c + tagSize) = k := by
    generalize (n + tagSize * k + (2 ^ c + tagSize) - 1) / (2 ^ c + tagSize) = m at hplain ⊢
    rw [htag] at hplain
    omega
  have hle : n ≤ (k - 1) * 2 ^ c := by
    obtain ⟨-, hle, -⟩ := (count_eq_iff hC n _).mp rfl
    exact hle.trans (Nat.mul_le_mul_right _ (by omega))
  obtain ⟨h1, h2⟩ := short_remainder hC hk2 hle hdiv
  refine hrem ⟨?_, by exact_mod_cast h1, by exact_mod_cast h2⟩
  rw [htag]
  omega

/-- **`OpenedSizeSegments` accepts exactly the sizes of objects without empty segments.** -/
theorem openedSizeSegments_ok_iff : openedSizeSegments s c k = .ok p ↔
      (ValidLog2 c ∧ 1 ≤ k ∧ k ≤ maxParts) ∧ ∃ n : Nat, p = n ∧ n ≤ maxPlaintextSize
        ∧ k ≤ count (2 ^ c) n ∧ s = segmentsLen c k n := by
  constructor
  · intro h
    have hseals := openedSizeSegments_sound h
    obtain ⟨⟨hc, hk⟩, h0, hmax⟩ := sealedSizeSegments_dom hseals
    obtain ⟨n, rfl⟩ := Int.eq_ofNat_of_zero_le h0
    have hfull := openedSizeSegments_full h
    have hk : 1 ≤ k ∧ k ≤ maxParts := by omega
    have hn : n ≤ maxPlaintextSize := by omega
    rw [sealedSizeSegments_natCast hc hk hn hfull] at hseals
    exact ⟨⟨hc, hk⟩, n, rfl, hn, hfull, (Except.ok.inj hseals).symm⟩
  · rintro ⟨⟨hc, hk⟩, n, rfl, hn, hfull, rfl⟩
    exact openedSizeSegments_segmentsLen hc hk hn hfull

/-- **`OpenedSize` inverts `SealedSize`.** A size is accepted exactly if an encoder produces it. -/
theorem openedSize_ok_iff : openedSize s c = .ok p ↔
      ValidLog2 c ∧ ∃ n : Nat, p = n ∧ n ≤ maxPlaintextSize ∧ s = sealedLen c n := by
  have hone := openedSizeSegments_ok_iff (s := s) (p := p) (c := c) (k := 1)
  constructor
  · intro h
    obtain ⟨⟨hc, -⟩, n, hp, hn, -, hs⟩ := hone.mp h
    exact ⟨hc, n, hp, hn, by rw [hs, segmentsLen_one]⟩
  · rintro ⟨hc, n, hp, hn, hs⟩
    refine hone.mpr ⟨⟨hc, by decide⟩, n, hp, hn, count_pos _ _, ?_⟩
    rw [hs, segmentsLen_one]

theorem openedSize_sealedLen (hc : ValidLog2 c) (hn : n ≤ maxPlaintextSize) :
    openedSize (sealedLen c n) c = .ok n := openedSize_ok_iff.mpr ⟨hc, n, rfl, hn, rfl⟩

end BlindBucket.Stream
