import Mathlib.Data.List.Forall2
import BlindBucket.Stream.Segment
import BlindBucket.Verify.Layout

/-!
# Multipart objects as they are stored

What a part list stands for: one segment per part, with the part's number and size, and
with its salt where the manifest records salts. The object is their concatenation.
-/

namespace BlindBucket

open ByteIo BlindBucket.Stream Slices List

/-- A segment with the plaintext it was made from. -/
structure Segment where
  header : Header
  plain : Bytes

def Segment.bytes (K : Crypto) (dek : Bytes) (s : Segment) : Bytes :=
  segmentBytes K dek s.header s.plain

/-- The segment is the one a manifest entry describes. -/
structure Part.Describes (log2C : Nat) (hasSalts : Bool) (p : Part) (s : Segment) : Prop where
  params : s.header.params = ⟨log2C, true, p.number⟩
  salt : hasSalts = true → s.header.salt = p.salt
  size : p.plainSize = s.plain.length

def objectBytes (K : Crypto) (dek : Bytes) (segs : List Segment) : Bytes :=
  (segs.map (Segment.bytes K dek)).flatten

def objectPlain (segs : List Segment) : Bytes := (segs.map Segment.plain).flatten

variable {K : Crypto} {dek : Bytes} {log2C : Nat} {hasSalts : Bool} {parts : List Part}
  {segs : List Segment}

variable {s : Segment} {i x y : Nat}

theorem Part.Describes.sealed {p : Part} (h : p.Describes log2C hasSalts s) :
    (s.bytes K dek).length = sealedLen log2C p.plainSize.toNat := by
  unfold Segment.bytes
  rw [segmentBytes_length, h.params, h.size]
  rfl

theorem plainSizes_eq (h : Forall₂ (Part.Describes log2C hasSalts) parts segs) :
    plainSizes parts = (segs.map Segment.plain).map length := by
  induction h with
  | nil => rfl
  | cons hps _ ih =>
    rw [map_cons, map_cons, ← ih]
    unfold plainSizes
    rw [map_cons, hps.size]
    rfl

theorem sealedSizes_eq (K : Crypto) (dek : Bytes) (h : Forall₂ (Part.Describes log2C hasSalts) parts segs) :
    sealedSizes log2C parts = (segs.map (Segment.bytes K dek)).map length := by
  induction h with
  | nil => rfl
  | cons hps _ ih =>
    rw [map_cons, map_cons, ← ih, hps.sealed]
    rfl

theorem describes_at (h : Forall₂ (Part.Describes log2C hasSalts) parts segs) (hi : i < parts.length) :
    ∃ p s, parts[i]? = some p ∧ segs[i]? = some s ∧ p.Describes log2C hasSalts s := by
  have hlen := h.length_eq
  refine ⟨parts[i], segs[i], getElem?_eq_getElem hi, getElem?_eq_getElem (by omega), ?_⟩
  exact (forall₂_iff_get.mp h).2 i hi (by omega)

theorem objectBytes_extract (h : Forall₂ (Part.Describes log2C hasSalts) parts segs) (hs : segs[i]? = some s)
    (hy : y ≤ (s.bytes K dek).length) :
    (objectBytes K dek segs).extract (start (sealedSizes log2C parts) i + x)
        (start (sealedSizes log2C parts) i + y) = (s.bytes K dek).extract x y := by
  rw [sealedSizes_eq K dek h]
  exact extract_flatten (by rw [getElem?_map, hs]; rfl) hy

theorem objectPlain_extract (h : Forall₂ (Part.Describes log2C hasSalts) parts segs) (hs : segs[i]? = some s)
    (hy : y ≤ s.plain.length) :
    (objectPlain segs).extract (start (plainSizes parts) i + x) (start (plainSizes parts) i + y)
      = s.plain.extract x y := by
  rw [plainSizes_eq h]
  exact extract_flatten (by rw [getElem?_map, hs]; rfl) hy

theorem objectPlain_length (h : Forall₂ (Part.Describes log2C hasSalts) parts segs) :
    (objectPlain segs).length = (plainSizes parts).sum := by
  unfold objectPlain
  rw [plainSizes_eq h, length_flatten]

end BlindBucket
