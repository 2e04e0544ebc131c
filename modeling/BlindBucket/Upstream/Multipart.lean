import BlindBucket.Errors
import BlindBucket.Lib.Pager

/-!
# Listing parts and open uploads at the provider

`ListParts` and `ListMultipartUploads` follow the markers that the provider returns. The pages are an
arbitrary sequence, whatever was asked for. A repeated marker ends neither loop: `ListParts` does not compare
markers, and `ListMultipartUploads` compares a marker with the one before it only.
-/

namespace BlindBucket.Upstream

open Pager List

/-- A part as `ListParts` reports it. -/
structure Part where
  partNumber : Int
  eTag : Bytes
  size : Int
deriving DecidableEq

structure ListPartsResult where
  isTruncated : Bool
  nextPartNumberMarker : Bytes
  parts : List Part
deriving DecidableEq

/-- The variables of the loop of `ListParts`. -/
structure PartsLoop where
  all : List Part := []
  marker : Bytes := []

def listPartsTurn (l : PartsLoop) :
    Try ListPartsResult → Turn PartsLoop (Try (List Part))
  | .error e => .returns (.error e)
  | .ok page =>
    if 10000 < (l.all ++ page.parts).length then
      .returns (.error (errorf "upstream: the provider reported more than 10000 parts" []))
    else if !page.isTruncated || page.nextPartNumberMarker == [] then
      .returns (.ok (l.all ++ page.parts))
    else
      .again ⟨l.all ++ page.parts, page.nextPartNumberMarker⟩

/-- `ListParts`, on the answers to its requests. -/
def listParts (answers : List (Try ListPartsResult)) :
    Turn PartsLoop (Try (List Part)) :=
  turns listPartsTurn {} answers

/-- An open upload as `ListMultipartUploads` reports it. -/
structure MultipartUpload where
  key : Bytes
  uploadID : Bytes
deriving DecidableEq

structure ListUploadsResult where
  isTruncated : Bool
  nextKeyMarker : Bytes
  nextUploadIDMarker : Bytes
  uploads : List MultipartUpload
deriving DecidableEq

/-- The variables of the loop of `ListMultipartUploads`. -/
structure UploadsLoop where
  all : List MultipartUpload := []
  keyMarker : Bytes := []
  idMarker : Bytes := []

def listUploadsTurn (l : UploadsLoop) :
    Try ListUploadsResult → Turn UploadsLoop (Try (List MultipartUpload))
  | .error e => .returns (.error e)
  | .ok page =>
    if !page.isTruncated || (page.nextKeyMarker == [] && page.nextUploadIDMarker == []) then
      .returns (.ok (l.all ++ page.uploads))
    -- a marker that stalls is the end
    else if page.nextKeyMarker == l.keyMarker && page.nextUploadIDMarker == l.idMarker then
      .returns (.ok (l.all ++ page.uploads))
    else
      .again ⟨l.all ++ page.uploads, page.nextKeyMarker, page.nextUploadIDMarker⟩

/-- `ListMultipartUploads`, on the answers to its requests. -/
def listMultipartUploads (answers : List (Try ListUploadsResult)) :
    Turn UploadsLoop (Try (List MultipartUpload)) :=
  turns listUploadsTurn {} answers

def ListPartsResult.entries (page : ListPartsResult) : Nat := page.parts.length

def ListUploadsResult.entries (page : ListUploadsResult) : Nat := page.uploads.length

/-- The two markers that a page of uploads goes on with. -/
def ListUploadsResult.marker (page : ListUploadsResult) : Bytes × Bytes :=
  (page.nextKeyMarker, page.nextUploadIDMarker)

theorem listParts_length_le {answers : List (Try ListPartsResult)} {all : List Part}
    (h : listParts answers = .returns (.ok all)) : all.length ≤ 10000 := by
  obtain ⟨l, answer, hr⟩ := turns_returns h
  cases answer with
  | error e => cases hr
  | ok page =>
    rw [listPartsTurn] at hr
    split at hr
    · cases hr
    next hfew =>
      split at hr
      · cases hr
        exact Nat.not_lt.mp hfew
      · cases hr

/-- The pages on which `ListParts` goes on: each claims truncation and has a marker, and the parts are not
too many. -/
def PartsGoOn (pages : List ListPartsResult) : Prop :=
  (∀ p ∈ pages, p.isTruncated = true ∧ p.nextPartNumberMarker ≠ [])
    ∧ (pages.map ListPartsResult.entries).sum ≤ 10000

/-- The pages on which `ListMultipartUploads` goes on: each claims truncation and has another marker than the
one before. -/
def UploadsGoOn (pages : List ListUploadsResult) : Prop :=
  (∀ p ∈ pages, p.isTruncated = true ∧ p.marker ≠ ([], []))
    ∧ IsChain (· ≠ ·) (([], []) :: pages.map ListUploadsResult.marker)

theorem listParts_again_iff (pages : List ListPartsResult) :
    (∃ l, listParts (pages.map .ok) = .again l) ↔ PartsGoOn pages := by
  suffices ∀ l : PartsLoop, l.all.length ≤ 10000 →
      ((∃ l', turns listPartsTurn l (pages.map .ok) = .again l')
        ↔ (∀ p ∈ pages, p.isTruncated = true ∧ p.nextPartNumberMarker ≠ [])
          ∧ l.all.length + (pages.map ListPartsResult.entries).sum ≤ 10000) by
    simpa [listParts, PartsGoOn] using this {} (by decide)
  induction pages with
  | nil => exact fun l hl => ⟨fun _ => ⟨by simp, by simpa using hl⟩, fun _ => ⟨l, rfl⟩⟩
  | cons p ps ih =>
    intro l hl
    rw [map_cons, turns, listPartsTurn, map_cons, sum_cons, forall_mem_cons,
      ListPartsResult.entries]
    by_cases hmany : 10000 < (l.all ++ p.parts).length
    · rw [if_pos hmany]
      rw [length_append] at hmany
      exact ⟨by simp, fun h => by omega⟩
    rw [if_neg hmany]
    by_cases hlast : (!p.isTruncated || p.nextPartNumberMarker == []) = true
    · rw [if_pos hlast]
      exact ⟨by simp, fun h => by simp [h.1.1] at hlast⟩
    · rw [if_neg hlast]
      have hgo : p.isTruncated = true ∧ p.nextPartNumberMarker ≠ [] := by simpa using hlast
      refine (ih _ (Nat.not_lt.mp hmany)).trans ?_
      rw [length_append, Nat.add_assoc]
      exact ⟨fun h => ⟨⟨hgo, h.1⟩, h.2⟩, fun h => ⟨h.1.2, h.2⟩⟩

theorem listUploads_again_iff (pages : List ListUploadsResult) :
    (∃ l, listMultipartUploads (pages.map .ok) = .again l) ↔ UploadsGoOn pages := by
  suffices ∀ l : UploadsLoop, (∃ l', turns listUploadsTurn l (pages.map .ok) = .again l')
      ↔ (∀ p ∈ pages, p.isTruncated = true ∧ p.marker ≠ ([], []))
        ∧ IsChain (· ≠ ·) ((l.keyMarker, l.idMarker) :: pages.map ListUploadsResult.marker) from this {}
  induction pages with
  | nil => exact fun l => ⟨fun _ => ⟨by simp, .singleton _⟩, fun _ => ⟨l, rfl⟩⟩
  | cons p ps ih =>
    intro l
    rw [map_cons, turns, listUploadsTurn, map_cons, isChain_cons_cons, forall_mem_cons,
      ListUploadsResult.marker]
    by_cases hlast : (!p.isTruncated || (p.nextKeyMarker == [] && p.nextUploadIDMarker == [])) = true
    · rw [if_pos hlast]
      refine ⟨by simp, fun h => ?_⟩
      simp_all
    rw [if_neg hlast]
    have hgo : p.isTruncated = true ∧ (p.nextKeyMarker, p.nextUploadIDMarker) ≠ ([], []) := by
      simpa using hlast
    by_cases hstall : (p.nextKeyMarker == l.keyMarker && p.nextUploadIDMarker == l.idMarker) = true
    · rw [if_pos hstall]
      refine ⟨by simp, fun h => ?_⟩
      simp_all
    · rw [if_neg hstall]
      have hnew : (l.keyMarker, l.idMarker) ≠ (p.nextKeyMarker, p.nextUploadIDMarker) := by
        intro heq
        simp [Prod.mk.inj heq] at hstall
      exact (ih _).trans ⟨fun h => ⟨⟨hgo, h.1⟩, hnew, h.2⟩, fun h => ⟨h.1.2, h.2.2⟩⟩

/-- The two listings return after a number of requests that the entries and the distinct markers of the
pages bound, exactly if these bound the number of empty pages with a marker that came before. -/
theorem provider_paging_returns_iff (S : Set (List ListPartsResult)) (S' : Set (List ListUploadsResult)) :
    (ReturnsWithin ListPartsResult.entries ListPartsResult.nextPartNumberMarker
        (fun pages => listParts (pages.map .ok)) S
      ↔ FewIdle ListPartsResult.entries ListPartsResult.nextPartNumberMarker PartsGoOn S)
    ∧ (ReturnsWithin ListUploadsResult.entries ListUploadsResult.marker
        (fun pages => listMultipartUploads (pages.map .ok)) S'
      ↔ FewIdle ListUploadsResult.entries ListUploadsResult.marker UploadsGoOn S')
    ∧ ∀ answers all, listParts answers = .returns (.ok all) → all.length ≤ 10000 :=
  ⟨returnsWithin_iff_fewIdle _ _ listParts_again_iff S, returnsWithin_iff_fewIdle _ _ listUploads_again_iff S',
    fun _ _ => listParts_length_le⟩

/-- An empty page that claims truncation. -/
def stalledParts : ListPartsResult := ⟨true, [0x31], []⟩

/-- Two empty pages that name each other. -/
def cycledUploads : List ListUploadsResult := [⟨true, [0x61], [], []⟩, ⟨true, [0x62], [], []⟩]

/-- However many requests they make, the listings do not return. -/
theorem repeated_marker_loops :
    (∀ n, ∃ l, listParts ((replicate n stalledParts).map .ok) = .again l)
    ∧ ∀ n, ∃ l, listMultipartUploads ((replicate n cycledUploads).flatten.map .ok) = .again l := by
  refine ⟨fun n => ?_, fun n => ?_⟩
  · suffices ∀ k, ∃ l, turns listPartsTurn ⟨[], k⟩ ((replicate n stalledParts).map .ok) = .again l from
      this []
    induction n with
    | zero => exact fun k => ⟨_, rfl⟩
    | succ n ih => exact fun k => ih [0x31]
  · -- the marker that a page is compared with is always the other one
    suffices ∀ k, k = [] ∨ k = [0x62] → ∃ l, turns listUploadsTurn ⟨[], k, []⟩
        ((replicate n cycledUploads).flatten.map .ok) = .again l from this [] (.inl rfl)
    induction n with
    | zero => exact fun k _ => ⟨_, rfl⟩
    | succ n ih =>
      rintro k (rfl | rfl)
      · exact ih [0x62] (.inr rfl)
      · exact ih [0x62] (.inr rfl)

end BlindBucket.Upstream
