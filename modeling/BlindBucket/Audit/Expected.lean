import BlindBucket.Audit.Verify
import Mathlib.Data.List.TakeWhile

/-!
# A checkpoint recorded elsewhere

`checkExpected` of `cmd/blindbucket/audit.go`. The sequence numbers start again in every file, so several checkpoints
may have the number that was recorded. The search stops at the first of them, whatever its hash is.
-/

namespace BlindBucket.Audit

open GoText List

/-- `fmt.Sscanf` with `%d` into a `uint64`: blanks, then digits. What follows them is not read. -/
def scanUint (s : Bytes) : Option Nat :=
  parseUint ((dropWords (spaces.filter (· ≠ [0x0A])) s.length s).takeWhile fun b => (digit b).isSome)

/-- What `OnCheckpoint` collects: the checkpoints, each with its chain. -/
def seen (results : List Result) : List (Bytes × Checkpoint) :=
  results.flatMap fun result => result.points.map fun point => (result.chain, point)

def checkExpected (expect : Bytes) (seen : List (Bytes × Checkpoint)) (signaturesChecked : Bool) :
    Try Unit :=
  if signaturesChecked = false then
    .error (errorf "--expect needs --public-key or --keyring: comparing against a checkpoint means nothing if the checkpoints in the file were never verified" [])
  else
    match cut 0x3A expect with
    | none => .error (errorf "--expect must be <seq>:<hash>, got %q" [.bytes expect])
    | some (seqText, hash) =>
      match scanUint seqText with
      | none => .error (errorf "--expect: %q is not a sequence number" [.bytes seqText])
      | some seq =>
        match seen.find? fun point => point.2.seq = seq with
        | none =>
          .error (errorf "none of the files given contains the checkpoint recorded elsewhere (entry %d); entries have been removed from the end, or a file is missing" [.int seq])
        | some (chain, point) =>
          if point.hash = hash then .ok ()
          else
            .error (errorf "a checkpoint at entry %d exists in chain %s, but its hash is %s where the one recorded elsewhere says %s: this is not the same log"
              [.int seq, .bytes chain, .bytes point.hash, .bytes hash])

/-- The checkpoints in the files, in their order. -/
def pointsIn (V : Verifier) (files : List (Bytes × Bytes)) : List Checkpoint :=
  files.flatMap fun file => (records V file.2).filterMap Record.point?

variable {V : Verifier} {key : Bytes} {files : List (Bytes × Bytes)} {results : List Result}

theorem seen_eq_pointsIn (hv : verifyChain V (some key) files = .ok results) :
    (seen results).map Prod.snd = pointsIn V files := by
  obtain ⟨-, hv⟩ := else_ok hv
  rw [pointsIn, ← verifyAfter_points hv, seen, map_flatMap]
  simp

theorem scanUint_decimal {q : Nat} (hq : q < 2 ^ 64) : scanUint (decimal q) = some q := by
  have hgraphic : ∀ b ∈ decimal q, Graphic b := by
    intro b hb
    obtain ⟨hlo, hhi⟩ := mem_decimal hb
    exact ⟨le_trans (show 0x21 ≤ 0x30 by decide) hlo, le_trans hhi (show 0x39 ≤ 0x7E by decide)⟩
  have hdigits : (decimal q).takeWhile (fun b => (digit b).isSome) = decimal q := by
    rw [takeWhile_eq_self_iff]
    intro b hb
    simp [digit, mem_decimal hb]
  have hwords : (spaces.filter (· ≠ [0x0A])).all startsDark = true := by decide
  rw [scanUint, dropWords_graphic (of_startsDark hwords) hgraphic, hdigits, parseUint, if_neg (decimal_ne_nil q),
    parseDigits_decimal]
  simpa using hq

/-- The check succeeds exactly if the first checkpoint with the number has the hash. -/
theorem checkExpected_iff {q : Nat} (hq : q < 2 ^ 64) (h : Bytes) (points : List (Bytes × Checkpoint)) :
    checkExpected (decimal q ++ 0x3A :: h) points true = .ok () ↔
      ∃ p ∈ (points.map Prod.snd).find? fun p => p.seq = q, p.hash = h := by
  unfold checkExpected
  have hcolon : 0x3A ∉ decimal q := fun hm => absurd (mem_decimal hm).2 (by decide)
  rw [cut_append hcolon]
  dsimp only
  rw [scanUint_decimal hq, find?_map]
  dsimp only [Function.comp_def]
  cases points.find? fun point => point.2.seq = q with
  | none => simp
  | some point =>
    by_cases hhash : point.2.hash = h
    · simp [hhash]
    · simp [hhash]

/-- Against the files that were verified, the check is exact for `q` and `h` if and only if the first checkpoint with
the number `q` has the hash `h` or none has. -/
theorem checkExpected_exact_iff (hv : verifyChain V (some key) files = .ok results) {q : Nat} (hq : q < 2 ^ 64)
    (h : Bytes) :
    (checkExpected (decimal q ++ 0x3A :: h) (seen results) true = .ok () ↔
        ∃ p ∈ pointsIn V files, p.seq = q ∧ p.hash = h) ↔
      ((∃ p ∈ pointsIn V files, p.seq = q ∧ p.hash = h) →
        ∀ p ∈ (pointsIn V files).find? fun p => p.seq = q, p.hash = h) := by
  rw [checkExpected_iff hq, seen_eq_pointsIn hv]
  cases hfirst : (pointsIn V files).find? fun p => p.seq = q with
  | none =>
    have hnone := find?_eq_none.mp hfirst
    simp only [decide_eq_true_eq] at hnone
    simpa using fun p hp hseq => absurd hseq (hnone p hp)
  | some first =>
    have hseq : first.seq = q := by simpa using find?_some hfirst
    simp only [Option.mem_def, Option.some.injEq, exists_eq_left', forall_eq']
    exact ⟨fun hiff => hiff.mpr, fun hthere => ⟨fun hhash => ⟨first, mem_of_find?_eq_some hfirst, hseq, hhash⟩, hthere⟩⟩

/-- The checkpoint of the first file is found. -/
theorem checkExpected_exact_iff_first :
    (∃ p ∈ pointsIn sampleVerifier twoFiles, p.seq = 1 ∧ p.hash = ascii "6f") ∧
      checkExpected (decimal 1 ++ 0x3A :: ascii "6f") (seen twoResults) true = .ok () := by
  have hthere : ∃ p ∈ pointsIn sampleVerifier twoFiles, p.seq = 1 ∧ p.hash = ascii "6f" := by decide +kernel
  have hfirst : ∀ p ∈ (pointsIn sampleVerifier twoFiles).find? fun p => p.seq = 1, p.hash = ascii "6f" := by
    decide +kernel
  exact ⟨hthere, ((checkExpected_exact_iff verifyChain_twoFiles (by decide) _).mpr fun _ => hfirst).mpr hthere⟩

/-- The checkpoint of the second file is there and is not found: the first file has one with the same number. -/
theorem checkExpected_second_file : verifyChain sampleVerifier (some []) twoFiles = .ok twoResults ∧
      checkExpected (ascii "1:a0") (seen twoResults) true ≠ .ok () ∧
      ∃ p ∈ pointsIn sampleVerifier twoFiles, p.seq = 1 ∧ p.hash = ascii "a0" :=
  ⟨verifyChain_twoFiles, by decide +kernel, by decide +kernel⟩

end BlindBucket.Audit
