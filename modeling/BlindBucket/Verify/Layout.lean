import BlindBucket.Manifest.Parts
import BlindBucket.Lib.Slices

/-!
# The geometry of a multipart object

A multipart object is the concatenation of one segment per part, so where each part
stands follows from the plaintext sizes in the manifest and the chunk size. `layoutOf`
says what `NewLayout` computes in terms of `Slices.start`, and `locate_spec` that the
part it finds is the one an offset lies in.
-/

namespace BlindBucket

open ByteIo BlindBucket.Stream Slices List

/-- A part and where it stands: the size of its segment, and its offsets in the object. -/
structure Placed where
  part : Part
  sealed : Int
  cipherStart : Int
  plainStart : Int
deriving DecidableEq

instance : Inhabited Placed := ⟨⟨0, 0, zeroSalt⟩, 0, 0, 0⟩

/-- `Layout`. The slices of the source that run in parallel are one list. -/
structure Layout where
  entries : List Placed
  totalCipher : Int
  totalPlain : Int
  log2C : Nat
  hasSalts : Bool
deriving DecidableEq

/-- The loop of `NewLayout`, with the totals so far. -/
def placeParts (log2C : Nat) : (totalCipher totalPlain : Int) → List Part → Try (List Placed × Int × Int)
  | c, p, [] => .ok ([], c, p)
  | c, p, part :: parts =>
    match sealedSize part.plainSize log2C with
    | .error e =>
      .error (wrapErr .manifestVerify "%w: part %d has an impossible size: %w"
        [.int part.number] e)
    | .ok sealed => do
        let (placed, c', p') ← placeParts log2C (c + sealed) (p + part.plainSize) parts
        .ok (⟨part, sealed, c, p⟩ :: placed, c', p')

def newLayout (parts : List Part) (log2C : Nat) (hasSalts : Bool) : Try Layout :=
  if parts.length = 0 then .error (wrapf .manifestVerify "%w: the manifest lists no parts" [])
  else do
    let (placed, c, p) ← placeParts log2C 0 0 parts
    .ok ⟨placed, c, p, log2C, hasSalts⟩

namespace Layout

/-- Part `i` and where it stands. -/
def entry (l : Layout) (i : Nat) : Placed := l.entries.getD i default

/-- Refuse a segment that is not the attempt the manifest names. -/
def checkSalt (l : Layout) (i : Nat) (got : Salt) : Try Unit :=
  if l.hasSalts = false then .ok ()
  else if got ≠ (l.entry i).part.salt then
    .error (wrapf .manifestVerify "%w: part %d is a different attempt than the manifest names"
      [.int (l.entry i).part.number])
  else .ok ()

/-- The size the provider announces has to be the one the manifest describes. -/
def checkAgainst (l : Layout) (storedCipher : Int) : Try Unit :=
  if storedCipher ≠ l.totalCipher then
    .error (wrapf .manifestVerify
      "%w: the object is %d bytes of ciphertext, the manifest describes %d"
      [.int storedCipher, .int l.totalCipher])
  else .ok ()

/-- The part salts in part order, unless the manifest is of the format without them. -/
def salts (l : Layout) : List Salt := if l.hasSalts then l.entries.map (·.part.salt) else []

/-- The loop of `Locate`, from part `i - 1` downwards. -/
def locateBelow (l : Layout) (offset : Int) : Nat → Nat
  | 0 => 0
  | i + 1 => if (l.entry i).plainStart ≤ offset then i else locateBelow l offset i

/-- The part that holds a plaintext offset. -/
def locate (l : Layout) (offset : Int) : Nat := l.locateBelow offset l.entries.length

end Layout

/-! ## What a layout is -/

def plainSizes (parts : List Part) : List Nat := parts.map (·.plainSize.toNat)

def sealedSizes (log2C : Nat) (parts : List Part) : List Nat :=
  parts.map (fun p => sealedLen log2C p.plainSize.toNat)

/-- Where the parts of an object stand. -/
def layoutOf (parts : List Part) (log2C : Nat) (hasSalts : Bool) : Layout where
  entries := parts.mapIdx (fun i p => ⟨p, sealedLen log2C p.plainSize.toNat,
    start (sealedSizes log2C parts) i, start (plainSizes parts) i⟩)
  totalCipher := (sealedSizes log2C parts).sum
  totalPlain := (plainSizes parts).sum
  log2C := log2C
  hasSalts := hasSalts

/-- A part of a size that a segment can have. -/
def Part.Sized (p : Part) : Prop := ∃ n : Nat, p.plainSize = n ∧ n ≤ maxPlaintextSize

variable {p : Part}

theorem Part.Sized.toNat (h : p.Sized) : ((p.plainSize.toNat : Nat) : Int) = p.plainSize
    ∧ p.plainSize.toNat ≤ maxPlaintextSize := by
  obtain ⟨n, hn, hle⟩ := h
  rw [hn]
  exact ⟨rfl, hle⟩

theorem Part.Ok.sized (h : p.Ok) : p.Sized := by
  have h0 := h.size_nonneg
  have h1 := h.size_le
  exact ⟨p.plainSize.toNat, by omega, by omega⟩

theorem placeParts_eq {log2C : Nat} (hc : ValidLog2 log2C) {parts : List Part} (c p : Int) (hs : ∀ q ∈ parts, q.Sized) :
    placeParts log2C c p parts = .ok (parts.mapIdx (fun i q => ⟨q, sealedLen log2C q.plainSize.toNat,
        c + start (sealedSizes log2C parts) i, p + start (plainSizes parts) i⟩),
      c + (sealedSizes log2C parts).sum, p + (plainSizes parts).sum) := by
  induction parts generalizing c p with
  | nil => simp [placeParts, sealedSizes, plainSizes]
  | cons q parts ih =>
    obtain ⟨hcast, hle⟩ := (hs q mem_cons_self).toNat
    have hsize := sealedSize_natCast hc hle
    rw [hcast] at hsize
    unfold placeParts
    rw [hsize]
    dsimp only
    rw [ih _ _ (fun r hr => hs r (mem_cons_of_mem q hr)), ok_bind, mapIdx_cons]
    simp only [sealedSizes, plainSizes, map_cons, start_cons_succ, start_zero, sum_cons]
    push_cast
    simp only [hcast, add_assoc, add_zero]

theorem placeParts_dom {log2C : Nat} {parts : List Part} {c p : Int} {r : List Placed × Int × Int}
    (h : placeParts log2C c p parts = .ok r) :
    ∀ q ∈ parts, ValidLog2 log2C ∧ q.Sized := by
  induction parts generalizing c p r with
  | nil => intro q hq; simp at hq
  | cons part parts ih =>
    unfold placeParts at h
    split at h
    · simp at h
    next sealed hsealed =>
      obtain ⟨hc, n, hn, hle, _⟩ := sealedSize_ok_iff.mp hsealed
      obtain ⟨r', hr', _⟩ := bind_ok h
      intro q hq
      rcases mem_cons.mp hq with rfl | hq
      · exact ⟨hc, n, hn, hle⟩
      · exact ih hr' q hq

/-- **What `NewLayout` computes.** -/
theorem newLayout_ok_iff {parts : List Part} {log2C : Nat} {hasSalts : Bool} {l : Layout} :
    newLayout parts log2C hasSalts = .ok l ↔
      parts ≠ [] ∧ ValidLog2 log2C ∧ (∀ p ∈ parts, p.Sized) ∧ l = layoutOf parts log2C hasSalts := by
  have heq : ValidLog2 log2C → (∀ p ∈ parts, p.Sized) →
      placeParts log2C 0 0 parts = .ok ((layoutOf parts log2C hasSalts).entries,
        (layoutOf parts log2C hasSalts).totalCipher, (layoutOf parts log2C hasSalts).totalPlain) := by
    intro hc hs
    rw [placeParts_eq hc 0 0 hs]
    simp only [layoutOf, Int.zero_add]
  unfold newLayout
  constructor
  · intro h
    obtain ⟨hne, h⟩ := else_ok h
    obtain ⟨r, hr, h⟩ := bind_ok h
    have hdom := placeParts_dom hr
    have hnil : parts ≠ [] := fun h0 => hne (by rw [h0]; rfl)
    obtain ⟨q, hq⟩ := exists_mem_of_ne_nil parts hnil
    have hs := fun p hp => (hdom p hp).2
    refine ⟨hnil, (hdom q hq).1, hs, ?_⟩
    rw [heq (hdom q hq).1 hs] at hr
    cases hr
    exact (Except.ok.inj h).symm
  · intro ⟨hnil, hc, hs, hl⟩
    rw [if_neg (fun h0 => hnil (length_eq_zero_iff.mp h0)), heq hc hs, hl]
    rfl

variable {parts : List Part} {log2C : Nat} {hasSalts : Bool}

theorem entry_layoutOf {i : Nat} (h : parts[i]? = some p) :
    (layoutOf parts log2C hasSalts).entry i = ⟨p, sealedLen log2C p.plainSize.toNat,
      start (sealedSizes log2C parts) i, start (plainSizes parts) i⟩ := by
  unfold Layout.entry layoutOf
  rw [getD_eq_getElem?_getD, getElem?_mapIdx, h]
  rfl

theorem layoutOf_length : (layoutOf parts log2C hasSalts).entries.length = parts.length :=
  length_mapIdx

/-- **`Locate` finds the part an offset lies in.** -/
theorem locate_spec (parts : List Part) (log2C : Nat) (hasSalts : Bool) {off : Nat} (h : off < (plainSizes parts).sum) :
    (layoutOf parts log2C hasSalts).locate off < parts.length
      ∧ start (plainSizes parts) ((layoutOf parts log2C hasSalts).locate off) ≤ off
      ∧ off < start (plainSizes parts) ((layoutOf parts log2C hasSalts).locate off + 1) := by
  have hlen : (plainSizes parts).length = parts.length := length_map _
  -- going down, the offset lies before everything that was passed
  have hbelow : ∀ n, n ≤ parts.length → off < start (plainSizes parts) n →
      (layoutOf parts log2C hasSalts).locateBelow off n < n
        ∧ start (plainSizes parts) ((layoutOf parts log2C hasSalts).locateBelow off n) ≤ off
        ∧ off < start (plainSizes parts) ((layoutOf parts log2C hasSalts).locateBelow off n + 1) := by
    intro n
    induction n with
    | zero => intro _ h0; rw [start_zero] at h0; omega
    | succ i ih =>
      intro hn hoff
      obtain ⟨p, hp⟩ : ∃ p, parts[i]? = some p := ⟨_, getElem?_eq_getElem (by omega)⟩
      have hstart : ((layoutOf parts log2C hasSalts).entry i).plainStart
          = start (plainSizes parts) i := by rw [entry_layoutOf hp]
      rw [Layout.locateBelow]
      split
      next hle =>
        exact ⟨by omega, by omega, hoff⟩
      next hle =>
        obtain ⟨h1, h2⟩ := ih (by omega) (by omega)
        exact ⟨by omega, h2⟩
  have htotal : start (plainSizes parts) parts.length = (plainSizes parts).sum := by
    rw [← hlen, start_length]
  unfold Layout.locate
  rw [layoutOf_length]
  exact hbelow parts.length le_rfl (by rw [htotal]; exact h)

end BlindBucket
