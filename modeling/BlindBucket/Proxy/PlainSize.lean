import BlindBucket.ObjectMeta
import BlindBucket.Stream.SizeExact
import BlindBucket.Verify.Layout

/-!
# Sizes without opening the object

The stored size of an object and the number of its parts say how long its plaintext is. The number of
parts is what S3 appends to the entity tag of an object that was uploaded in parts. `HEAD` and listings
answer with this size, and for an object whose part list was accepted at completion it is the size that
the manifest records.
-/

namespace BlindBucket

open ByteIo BlindBucket.Stream GoText List

namespace Proxy

/-- `strings.Trim` with one byte to take off. -/
def trimByte (c : UInt8) (s : Bytes) : Bytes :=
  ((s.dropWhile (· == c)).reverse.dropWhile (· == c)).reverse

/-- The number of parts in an entity tag of the form `"<hash>-<M>"`. -/
def partCountFromETag (etag : Bytes) : Option Int :=
  match cut 0x2D (trimByte 0x22 etag) with
  | none => none
  | some (_, suffix) =>
    match parseInt suffix with
    | none => none
    | some count => if count < 1 ∨ (maxParts : Int) < count then none else some count

/-- The plaintext size of an object whose metadata is known. -/
def plainSize (cipherLen : Int) (etag : Bytes) (m : Meta) : Try Int :=
  if m.multipart = false then openedSize cipherLen m.log2ChunkSize
  else
    match partCountFromETag etag with
    | none =>
      .error (errorf "object names a manifest but its ETag %q carries no part count" [.bytes etag])
    | some segments => openedSizeSegments cipherLen m.log2ChunkSize segments

/-- `convertListedSizes`, for one entry of a listing: its size is left as it is if it is not one that the
format produces. -/
def convertListedSize (log2C : Nat) (size : Int) (etag : Bytes) : Int :=
  let segments := (partCountFromETag etag).getD 1
  match openedSizeSegments size log2C segments with
  | .error _ => size
  | .ok plain => plain

theorem fromUpstream_totals {log2C : Nat} {uploaded : List Manifest.UploadedPart} {parts : List Part}
    (h : Forall₂ (Manifest.FromUpstream log2C) uploaded parts) :
    ((sealedSizes log2C parts).sum : Int) = (uploaded.map Manifest.UploadedPart.cipherSize).sum
      ∧ ((plainSizes parts).sum : Int) = (parts.map Part.plainSize).sum := by
  induction h with
  | nil => exact ⟨rfl, rfl⟩
  | cons hup _ ih =>
    obtain ⟨n, hn, -, -, hsize⟩ := hup.size
    unfold sealedSizes plainSizes at ih ⊢
    simp only [map_cons, sum_cons, Int.natCast_add]
    rw [ih.1, ih.2, hsize, hn]
    exact ⟨rfl, rfl⟩

/-- **Sizes can be recovered without opening the object.** For a part list that was accepted, the stored
size and the number of parts name the plaintext size that the manifest records. -/
theorem accepted_parts_size {uploaded : List Manifest.UploadedPart} {log2C : Nat} {parts : List Part}
    (h : Manifest.partsFromUpstream uploaded log2C = .ok parts) :
    sealedSizeSegments (parts.map Part.plainSize).sum log2C parts.length
        = .ok (uploaded.map Manifest.UploadedPart.cipherSize).sum
      ∧ openedSizeSegments (uploaded.map Manifest.UploadedPart.cipherSize).sum log2C parts.length
        = .ok (parts.map Part.plainSize).sum
      ∧ (∀ etag, partCountFromETag etag = some (parts.length : Int) →
        (∀ m : Meta, m.multipart = true → m.log2ChunkSize = log2C →
          plainSize (uploaded.map Manifest.UploadedPart.cipherSize).sum etag m
            = .ok (parts.map Part.plainSize).sum)
        ∧ convertListedSize log2C (uploaded.map Manifest.UploadedPart.cipherSize).sum etag
            = (parts.map Part.plainSize).sum)
      ∧ (∀ m : Manifest, m.parts = parts → m.plainSize = (parts.map Part.plainSize).sum)
      ∧ ∀ hasSalts, ∃ l, newLayout parts log2C hasSalts = .ok l
        ∧ l.totalCipher = (uploaded.map Manifest.UploadedPart.cipherSize).sum
        ∧ l.totalPlain = (parts.map Part.plainSize).sum := by
  obtain ⟨n, hn, hmax, hk, hcount, htotal⟩ := Manifest.partsFromUpstream_total h
  obtain ⟨hlog, hall, hne, hok, -⟩ := Manifest.partsFromUpstream_ok h
  have hopen := openedSizeSegments_segmentsLen hlog hk hmax hcount
  rw [htotal, hn]
  refine ⟨sealedSizeSegments_natCast hlog hk hmax hcount, hopen, fun etag htag => ⟨?_, ?_⟩, ?_, ?_⟩
  · intro m hm hlog2
    unfold plainSize
    rw [if_neg (by rw [hm]; simp), htag, hlog2]
    exact hopen
  · unfold convertListedSize
    rw [htag, Option.getD_some]
    dsimp only
    rw [hopen]
  · intro m hm
    rw [Manifest.plainSize, hm, hn]
  · intro hasSalts
    have hs : ∀ p ∈ parts, p.Sized := fun p hp => (hok p hp).sized
    obtain ⟨hcipher, hplain⟩ := fromUpstream_totals hall
    refine ⟨_, newLayout_ok_iff.mpr ⟨hne, hlog, hs, rfl⟩, ?_, ?_⟩
    · exact hcipher.trans htotal
    · exact hplain.trans hn

theorem accepted_parts_size_two : openedSizeSegments 4193 12 2 = .ok 4097
      ∧ convertListedSize 12 4193 (0x22 :: ([0x61] ++ 0x2D :: decimal 2) ++ [0x22]) = 4097 := by
  have h : Manifest.partsFromUpstream [⟨1, 4144, zeroSalt⟩, ⟨2, 49, zeroSalt⟩] 12
      = .ok [⟨1, 4096, zeroSalt⟩, ⟨2, 1, zeroSalt⟩] := by decide
  obtain ⟨-, hopen, htag, -⟩ := accepted_parts_size h
  exact ⟨hopen, (htag _ (by decide +kernel)).2⟩

end Proxy

end BlindBucket
