import Mathlib.Data.Rat.Floor
import BlindBucket.Lib.Int64
import BlindBucket.Stream.Size

/-!
# Sizes as the machine computes them

`SealedSizeSegments` and `OpenedSizeSegments` with every operation on `int64` written out. Whatever
sizes they are given, nothing overflows: sizes that are out of range are refused before they are used.
So the sizes that `OpenedSizeSegments` accepts are those of the format.
-/

namespace BlindBucket.Stream

open Blocks Machine

/-- `SealedSizeSegments`, one operation after another. -/
def sealedSizeSegmentsChecked (plain : Int) (log2C : Nat) (segments : Int) : Checked Error Int := do
  given (validateLog2ChunkSize log2C)
  given (validateSegmentCount segments)
  if plain < 0 ∨ (maxPlaintextSize : Int) < plain then
    given (.error (errorf "stream: plaintext size %d outside 0..%d" [.int plain, .int maxPlaintextSize]))
  else do
    let c ← int64 (2 ^ log2C)
    let up ← int64 (plain + c)
    let up ← int64 (up - 1)
    let chunks ← int64 (up.tdiv c)
    let chunks := if chunks < segments then segments else chunks
    let headers ← int64 (headerSize * segments)
    let sum ← int64 (headers + plain)
    let tags ← int64 (tagSize * chunks)
    int64 (sum + tags)

/-- `OpenedSizeSegments`, one operation after another. -/
def openedSizeSegmentsChecked (sealed : Int) (log2C : Nat) (segments : Int) : Checked Error Int := do
  given (validateLog2ChunkSize log2C)
  given (validateSegmentCount segments)
  let headers ← int64 (headerSize * segments)
  let minimum ← int64 (headers + tagSize)
  if sealed < minimum then
    given (.error (integrityf .size "ciphertext size %d is below the minimum %d for %d segment(s)"
      [.int sealed, .int minimum, .int segments]))
  else if (maxSealedPayload : Int) < sealed then
    given (.error (integrityf .size "ciphertext size %d exceeds the supported maximum" [.int sealed]))
  else do
    let c ← int64 (2 ^ log2C)
    let stride ← int64 (c + tagSize)
    let payload ← int64 (sealed - headers)
    let r ← int64 (payload.tmod stride)
    if payload ≠ tagSize ∧ 1 ≤ r ∧ r ≤ tagSize then
      given (.error (integrityf .size "ciphertext size %d leaves remainder %d, which no encoder produces"
        [.int sealed, .int r]))
    else do
      let up ← int64 (payload + stride)
      let up ← int64 (up - 1)
      let chunks ← int64 (up.tdiv stride)
      let tags ← int64 (tagSize * chunks)
      let plain ← int64 (payload - tags)
      if plain < 0 then
        given (.error (integrityf .size "ciphertext size %d yields a negative plaintext size" [.int sealed]))
      else
        let mismatch : Error := integrityf .size
          "ciphertext size %d corresponds to no plaintext size for %d segment(s)"
          [.int sealed, .int segments]
        -- the forward computation is one of these too
        ExceptT.mk ((sealedSizeSegmentsChecked plain log2C segments).run.map fun forward =>
          match forward with
          | .error _ => .error mismatch
          | .ok back => if back = sealed then .ok plain else .error mismatch)

/-! ## Nothing overflows -/

variable {c k : Nat} {a b : Int}

theorem two_pow_le (hc : ValidLog2 c) : (2 : Int) ^ c ≤ 2 ^ 20 := by
  exact_mod_cast Nat.pow_le_pow_right (by decide) hc.2

theorem two_pow_pos_int (c : Nat) : (0 : Int) < 2 ^ c := by
  exact_mod_cast two_pow_pos' c

theorem tdiv_bounds (ha : 0 ≤ a) (hb : 0 < b) : 0 ≤ a.tdiv b ∧ a.tdiv b ≤ a := by
  rw [Int.tdiv_eq_ediv_of_nonneg ha]
  exact ⟨Int.ediv_nonneg ha hb.le, Int.ediv_le_self b ha⟩

theorem tmod_bounds (ha : 0 ≤ a) (hb : 0 < b) : 0 ≤ a.tmod b ∧ a.tmod b < b := by
  rw [Int.tmod_eq_emod_of_nonneg ha]
  exact ⟨Int.emod_nonneg a hb.ne', Int.emod_lt_of_pos a hb⟩

/-- **`SealedSizeSegments` does not overflow**, whatever it is given. -/
theorem sealedSizeSegmentsChecked_eq (plain : Int) (c : Nat) (k : Int) :
    (sealedSizeSegmentsChecked plain c k).run = some (sealedSizeSegments plain c k) := by
  unfold sealedSizeSegmentsChecked sealedSizeSegments
  cases hlog : validateLog2ChunkSize c with
  | error e => rfl
  | ok _ =>
    cases hseg : validateSegmentCount k with
    | error e => rfl
    | ok _ =>
      simp only [given_ok, pure_bind, ok_bind]
      by_cases hrange : plain < 0 ∨ (maxPlaintextSize : Int) < plain
      · rw [if_pos hrange, if_pos hrange]
        rfl
      · rw [if_neg hrange, if_neg hrange]
        have hc := two_pow_le (validateLog2ChunkSize_ok.mp hlog)
        have hpos := two_pow_pos_int c
        have hk := validateSegmentCount_ok.mp hseg
        unfold maxPlaintextSize at hrange
        unfold maxParts at hk
        unfold headerSize tagSize
        generalize (2 : Int) ^ c = C at hc hpos ⊢
        obtain ⟨hq, hq'⟩ := tdiv_bounds (a := plain + C - 1) (by omega) hpos
        have hchunks : 0 ≤ (if (plain + C - 1).tdiv C < k then k else (plain + C - 1).tdiv C)
            ∧ (if (plain + C - 1).tdiv C < k then k else (plain + C - 1).tdiv C) ≤ 2 ^ 47 := by
          split <;> omega
        simp (disch := omega) only [int64_fits, pure_bind]
        rfl

/-- **`OpenedSizeSegments` does not overflow**, whatever it is given. -/
theorem openedSizeSegmentsChecked_eq (sealed : Int) (c : Nat) (k : Int) :
    (openedSizeSegmentsChecked sealed c k).run = some (openedSizeSegments sealed c k) := by
  unfold openedSizeSegmentsChecked openedSizeSegments
  cases hlog : validateLog2ChunkSize c with
  | error e => rfl
  | ok _ =>
    cases hseg : validateSegmentCount k with
    | error e => rfl
    | ok _ =>
      simp only [given_ok, pure_bind, ok_bind]
      have hc := two_pow_le (validateLog2ChunkSize_ok.mp hlog)
      have hpos := two_pow_pos_int c
      have hk := validateSegmentCount_ok.mp hseg
      unfold maxParts at hk
      unfold headerSize tagSize
      simp (disch := omega) only [int64_fits, pure_bind]
      by_cases hmin : sealed < (32 : Nat) * k + (16 : Nat)
      · rw [if_pos hmin, if_pos hmin]
        rfl
      · rw [if_neg hmin, if_neg hmin]
        by_cases hmax : (maxSealedPayload : Int) < sealed
        · rw [if_pos hmax, if_pos hmax]
          rfl
        · rw [if_neg hmax, if_neg hmax]
          unfold maxSealedPayload at hmax
          have hpayload : 0 ≤ sealed - (32 : Nat) * k := by omega
          have hstride : (0 : Int) < 2 ^ c + (16 : Nat) := by omega
          obtain ⟨hr, hr'⟩ := tmod_bounds hpayload hstride
          simp (disch := omega) only [int64_fits, pure_bind]
          split
          · rfl
          · obtain ⟨hq, hq'⟩ := tdiv_bounds (a := sealed - (32 : Nat) * k + (2 ^ c + (16 : Nat)) - 1) (by omega) hstride
            simp (disch := omega) only [int64_fits, pure_bind]
            split
            · rfl
            · rw [sealedSizeSegmentsChecked_eq]
              rfl

/-! ## The inverse -/

/-- A plaintext size that an object of `n` bytes in `k` segments can have. -/
structure Recovers (n : Int) (c : Nat) (k p : Int) : Prop where
  nonneg : 0 ≤ p
  le_max : p ≤ maxPlaintextSize
  seals : sealedSizeSegments p c k = .ok n
  full : k = 1 ∨ k ≤ ⌈(p : ℚ) / 2 ^ c⌉

theorem le_ceil_iff {C n : Nat} (hC : 0 < C) (hk : 2 ≤ k) : (k : Int) ≤ ⌈((n : Int) : ℚ) / C⌉ ↔ k ≤ count C n := by
  have hC' : (0 : ℚ) < C := by exact_mod_cast hC
  rw [Int.le_ceil_iff, lt_div_iff₀ hC']
  obtain ⟨hpos, hle, hlast⟩ := (count_eq_iff hC n _).mp rfl
  generalize count C n = m at *
  constructor
  · intro h
    have h : (k - 1) * C < n := by
      have : (((k - 1 : Nat) : ℚ)) * C < n := by
        rw [Nat.cast_sub (by omega)]
        exact_mod_cast h
      exact_mod_cast this
    by_contra hlt
    have := Nat.mul_le_mul_right C (show m ≤ k - 1 by omega)
    omega
  · intro h
    have hlt : (k - 1) * C < n := by
      rcases hlast with rfl | hlast
      · omega
      · exact lt_of_le_of_lt (Nat.mul_le_mul_right C (by omega)) hlast
    have : (((k - 1 : Nat) : ℚ)) * C < n := by exact_mod_cast hlt
    rw [Nat.cast_sub (by omega)] at this
    exact_mod_cast this

theorem recovers_iff {n p : Int} (hc : ValidLog2 c) (hk : 1 ≤ k ∧ k ≤ maxParts) :
    Recovers n c k p ↔ ∃ m : Nat, p = m ∧ m ≤ maxPlaintextSize ∧ k ≤ count (2 ^ c) m
      ∧ n = segmentsLen c k m := by
  have hC := two_pow_pos' c
  have hfull : ∀ m : Nat, ((k : Int) = 1 ∨ (k : Int) ≤ ⌈((m : Int) : ℚ) / 2 ^ c⌉) ↔ k ≤ count (2 ^ c) m := by
    intro m
    have hpos := count_pos (2 ^ c) m
    by_cases hone : k = 1
    · exact ⟨fun _ => by omega, fun _ => .inl (by omega)⟩
    · have hceil := le_ceil_iff (n := m) (k := k) hC (by omega)
      push_cast at hceil
      rw [← hceil]
      exact ⟨fun h => h.resolve_left (by omega), .inr⟩
  constructor
  · intro h
    obtain ⟨m, rfl⟩ := Int.eq_ofNat_of_zero_le h.nonneg
    have hm : m ≤ maxPlaintextSize := by
      have := h.le_max
      omega
    have hcount := (hfull m).mp h.full
    have hseals := h.seals
    rw [sealedSizeSegments_natCast hc hk hm hcount] at hseals
    exact ⟨m, rfl, hm, hcount, (Except.ok.inj hseals).symm⟩
  · rintro ⟨m, rfl, hm, hcount, rfl⟩
    exact ⟨by omega, by omega, sealedSizeSegments_natCast hc hk hm hcount, (hfull m).mpr hcount⟩

/-- **Size inversion is exact.** `OpenedSizeSegments` returns the one plaintext size that seals to the
size it is given in that many segments, none of them empty, and neither function overflows. -/
theorem openedSizeSegments_exact {c : Nat} (hc : ValidLog2 c) {k : Int} (hk : 1 ≤ k ∧ k ≤ maxParts) (n p : Int) :
    (openedSizeSegments n c k = .ok p ↔ Recovers n c k p)
      ∧ (∀ p', Recovers n c k p → Recovers n c k p' → p = p')
      ∧ (openedSizeSegmentsChecked n c k).run = some (openedSizeSegments n c k)
      ∧ (sealedSizeSegmentsChecked p c k).run = some (sealedSizeSegments p c k) := by
  obtain ⟨s, rfl⟩ := Int.eq_ofNat_of_zero_le (show 0 ≤ k by omega)
  have hs : 1 ≤ s ∧ s ≤ maxParts := by omega
  have hiff : ∀ p, openedSizeSegments n c s = .ok p ↔ Recovers n c s p := by
    intro p
    rw [recovers_iff hc hs, openedSizeSegments_ok_iff]
    exact ⟨fun h => h.2, fun h => ⟨⟨hc, hs⟩, h⟩⟩
  refine ⟨hiff p, fun p' h h' => ?_, openedSizeSegmentsChecked_eq n c s, sealedSizeSegmentsChecked_eq p c s⟩
  exact Except.ok.inj (((hiff p).mpr h).symm.trans ((hiff p').mpr h'))

theorem openedSizeSegments_exact_two : openedSizeSegments 4193 12 2 = .ok 4097 ∧ Recovers 4193 12 2 4097 := by
  have hopen : openedSizeSegments 4193 12 2 = .ok 4097 := by decide
  exact ⟨hopen, (openedSizeSegments_exact (by decide) (by decide) 4193 4097).1.mp hopen⟩

end BlindBucket.Stream
