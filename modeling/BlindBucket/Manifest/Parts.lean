import Mathlib.Data.List.Forall2
import BlindBucket.Manifest.Manifest

/-!
# Part lists from the provider

At completion the sizes of the parts come from the provider's listing, as ciphertext
sizes. `PartsFromUpstream` inverts each one and enforces the size rules: no part is
empty, and all but the last are multiples of the chunk size.
-/

namespace BlindBucket

open ByteIo BlindBucket.Stream List

namespace Manifest

/-- S3's limit on the size of a part: 5 GiB. -/
def maxPartCiphertext : Int := 5 * 2 ^ 30

/-- A part as the provider lists it, with the salt the client's tag carries. -/
structure UploadedPart where
  number : Nat
  cipherSize : Int
  salt : Salt
deriving DecidableEq

/-- One round of the loop of `PartsFromUpstream`. -/
def partFromUpstream (log2C : Nat) (last : Bool) (up : UploadedPart) : Try Part :=
  let chunk : Int := 2 ^ log2C
  if maxPartCiphertext < up.cipherSize then
    .error (wrapf .partTooLarge "%w: part %d is %d bytes of ciphertext, the maximum is %d"
      [.int up.number, .int up.cipherSize, .int maxPartCiphertext])
  else
    match openedSize up.cipherSize log2C with
    | .error _ =>
      .error (wrapf .partRules
        "%w: part %d is %d bytes, which is not a size this format produces at chunk size %d"
        [.int up.number, .int up.cipherSize, .int chunk])
    | .ok plain =>
      if last ∧ plain = 0 then .error (wrapf .partRules "%w: the last part is empty" [])
      else if ¬ last ∧ plain = 0 then
        .error (wrapf .partRules "%w: part %d is empty" [.int up.number])
      else if ¬ last ∧ plain.tmod chunk ≠ 0 then
        .error (wrapf .partRules ("%w: part %d is %d bytes, which is not a multiple of the "
          ++ "chunk size %d; configure a part size that is a multiple of %d")
          [.int up.number, .int plain, .int chunk, .int chunk])
      else .ok ⟨up.number, plain, up.salt⟩

/-- The loop of `PartsFromUpstream`. -/
def partsLoop (log2C : Nat) : List UploadedPart → Try (List Part)
  | [] => .ok []
  | up :: ups => do
      let p ← partFromUpstream log2C ups.isEmpty up
      let ps ← partsLoop log2C ups
      .ok (p :: ps)

def partsFromUpstream (uploaded : List UploadedPart) (log2C : Nat) : Try (List Part) := do
  validateLog2ChunkSize log2C
  if uploaded.length = 0 then .error (wrapf .partRules "%w: the upload has no parts" [])
  else if maxParts < uploaded.length then
    .error (wrapf .partRules "%w: %d parts exceeds the maximum of %d"
      [.int uploaded.length, .int maxParts])
  else
    let parts ← partsLoop log2C uploaded
    match (⟨[], [], ⟨replicate idSize 0, length_zeroId⟩, parts, false⟩ : Manifest).validate with
    | .error e => .error (wrapErr .partRules "%w: %w" [] e)
    | .ok _ => .ok parts

/-- The loop of `MaxPartPlaintext`, from `k` chunks downwards. -/
def maxPartLoop (log2C : Nat) : (k : Nat) → Try Int
  | 0 => .error (errorf "manifest: no part size fits at chunk size %d" [.int (2 ^ log2C)])
  | k + 1 =>
    match sealedSize ((k + 1 : Nat) * 2 ^ log2C) log2C with
    | .ok s =>
      if s ≤ maxPartCiphertext then .ok ((k + 1 : Nat) * 2 ^ log2C) else maxPartLoop log2C k
    | .error _ => maxPartLoop log2C k

/-- The largest plaintext that a part of whole chunks may carry. -/
def maxPartPlaintext (log2C : Nat) : Try Int := do
  validateLog2ChunkSize log2C
  maxPartLoop log2C (maxPartCiphertext.tdiv (2 ^ log2C)).toNat

/-- What a part that was accepted is. -/
structure FromUpstream (log2C : Nat) (up : UploadedPart) (p : Part) : Prop where
  number : p.number = up.number
  salt : p.salt = up.salt
  size : ∃ n : Nat, p.plainSize = n ∧ 0 < n ∧ n ≤ maxPlaintextSize
    ∧ up.cipherSize = sealedLen log2C n

variable {log2C : Nat} {last : Bool} {up : UploadedPart} {p : Part} {ups uploaded : List UploadedPart} {ps : List Part}

theorem partFromUpstream_ok (h : partFromUpstream log2C last up = .ok p) : FromUpstream log2C up p := by
  obtain ⟨_, h⟩ := else_ok h
  split at h
  · simp at h
  next plain hopen =>
    obtain ⟨_, n, hplain, hn, hsize⟩ := openedSize_ok_iff.mp hopen
    obtain ⟨h1, h⟩ := else_ok h
    obtain ⟨h2, h⟩ := else_ok h
    obtain ⟨_, h⟩ := else_ok h
    cases h
    refine ⟨rfl, rfl, n, hplain, ?_, hn, hsize⟩
    -- an empty part is refused whether it is the last one or not
    have hne : plain ≠ 0 := by
      intro h0
      cases last with
      | true => exact h1 ⟨rfl, h0⟩
      | false => exact h2 ⟨by simp, h0⟩
    omega

theorem partFromUpstream_rules (h : partFromUpstream log2C last up = .ok p) :
    up.cipherSize ≤ maxPartCiphertext ∧ (last = false → p.plainSize.tmod (2 ^ log2C) = 0) := by
  obtain ⟨hmax, h⟩ := else_ok h
  split at h
  · simp at h
  · obtain ⟨_, h⟩ := else_ok h
    obtain ⟨_, h⟩ := else_ok h
    split at h
    · simp at h
    next hmod =>
      cases h
      refine ⟨by omega, fun hlast => ?_⟩
      by_contra hne
      exact hmod ⟨by simp [hlast], hne⟩

theorem partsLoop_ok (h : partsLoop log2C ups = .ok ps) : Forall₂ (FromUpstream log2C) ups ps := by
  induction ups generalizing ps with
  | nil =>
    cases h
    exact Forall₂.nil
  | cons up ups ih =>
    obtain ⟨p, hp, h⟩ := bind_ok h
    obtain ⟨qs, hqs, h⟩ := bind_ok h
    cases h
    exact Forall₂.cons (partFromUpstream_ok hp) (ih hqs)

theorem partsFromUpstream_ok {parts : List Part} (h : partsFromUpstream uploaded log2C = .ok parts) :
    ValidLog2 log2C ∧ Forall₂ (FromUpstream log2C) uploaded parts
      ∧ parts ≠ [] ∧ (∀ p ∈ parts, p.Ok) ∧ parts.Pairwise (fun p q => p.number < q.number) := by
  obtain ⟨_, hlog, h⟩ := bind_ok h
  obtain ⟨_, h⟩ := else_ok h
  obtain ⟨_, h⟩ := else_ok h
  obtain ⟨ps, hps, h⟩ := bind_ok h
  split at h
  · simp at h
  next hv =>
    cases h
    obtain ⟨hne, _, hok, hpair⟩ := validate_ok hv
    exact ⟨validateLog2ChunkSize_ok.mp hlog, partsLoop_ok hps, hne, hok, hpair⟩

theorem partsFromUpstream_loop {parts : List Part} (h : partsFromUpstream uploaded log2C = .ok parts) :
    uploaded ≠ [] ∧ uploaded.length ≤ maxParts ∧ partsLoop log2C uploaded = .ok parts := by
  obtain ⟨_, -, h⟩ := bind_ok h
  obtain ⟨hne, h⟩ := else_ok h
  obtain ⟨hmax, h⟩ := else_ok h
  obtain ⟨ps, hps, h⟩ := bind_ok h
  split at h
  · simp at h
  · cases h
    exact ⟨fun h0 => hne (by rw [h0]; rfl), by omega, hps⟩

theorem partsLoop_total (h : partsLoop log2C ups = .ok ps) (hne : ups ≠ []) :
    ∃ n : Nat, (ps.map Part.plainSize).sum = n ∧ 0 < n ∧ ps.length ≤ Blocks.count (2 ^ log2C) n
      ∧ (ups.map UploadedPart.cipherSize).sum = segmentsLen log2C ps.length n := by
  induction ups generalizing ps with
  | nil => exact absurd rfl hne
  | cons up ups ih =>
    obtain ⟨p, hp, h⟩ := bind_ok h
    obtain ⟨qs, hqs, h⟩ := bind_ok h
    cases h
    obtain ⟨a, hpa, hapos, -, hsize⟩ := (partFromUpstream_ok hp).size
    cases ups with
    | nil =>
      cases hqs
      refine ⟨a, by simp [hpa], hapos, Blocks.count_pos _ _, ?_⟩
      rw [length_singleton, segmentsLen_one]
      simp [hsize]
    | cons up' ups =>
      obtain ⟨b, hb, hbpos, hcount, htotal⟩ := ih hqs (by simp)
      -- the part is not the last one, so it is made of whole chunks
      have hmod := (partFromUpstream_rules hp).2 rfl
      have hdvd : 2 ^ log2C ∣ a := by
        rw [hpa, two_pow_cast, ← Int.ofNat_tmod] at hmod
        exact Nat.dvd_of_mod_eq_zero (by exact_mod_cast hmod)
      have hadd := Blocks.count_add (two_pow_pos' log2C) hdvd hapos hbpos
      have hone := Blocks.count_pos (2 ^ log2C) a
      refine ⟨a + b, by simp [hpa, hb], by omega, ?_, ?_⟩
      · rw [length_cons]
        omega
      · rw [map_cons, sum_cons, htotal, hsize]
        unfold segmentsLen sealedLen
        rw [length_cons, hadd]
        push_cast
        ring

theorem partsFromUpstream_total {parts : List Part} (h : partsFromUpstream uploaded log2C = .ok parts) :
    ∃ n : Nat, (parts.map Part.plainSize).sum = n ∧ n ≤ maxPlaintextSize
      ∧ (1 ≤ parts.length ∧ parts.length ≤ maxParts) ∧ parts.length ≤ Blocks.count (2 ^ log2C) n
      ∧ (uploaded.map UploadedPart.cipherSize).sum = segmentsLen log2C parts.length n := by
  obtain ⟨hne, hmax, hloop⟩ := partsFromUpstream_loop h
  obtain ⟨n, hn, hpos, hcount, htotal⟩ := partsLoop_total hloop hne
  obtain ⟨hlog, hall, hparts, -⟩ := partsFromUpstream_ok h
  have hlen := hall.length_eq
  have hbound : ∀ {ups : List UploadedPart} {ps : List Part}, partsLoop log2C ups = .ok ps →
      (ups.map UploadedPart.cipherSize).sum ≤ maxPartCiphertext * ups.length := by
    intro ups
    induction ups with
    | nil => exact fun _ => by simp
    | cons up ups ih =>
      intro ps h
      obtain ⟨p, hp, h⟩ := bind_ok h
      obtain ⟨qs, hqs, -⟩ := bind_ok h
      have hone := (partFromUpstream_rules hp).1
      have hrest := ih hqs
      rw [map_cons, sum_cons, length_cons]
      push_cast
      rw [mul_add]
      omega
  refine ⟨n, hn, ?_, ⟨length_pos_iff.mpr hparts, by omega⟩, hcount, htotal⟩
  -- 10000 parts of 5 GiB are below the limit of an object
  have hsum := hbound hloop
  rw [htotal] at hsum
  unfold segmentsLen at hsum
  unfold maxPartCiphertext at hsum
  unfold maxParts at hmax
  unfold maxPlaintextSize
  omega

end Manifest

end BlindBucket
