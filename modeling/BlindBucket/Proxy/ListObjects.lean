import BlindBucket.Proxy.Listing
import BlindBucket.Proxy.PlainSize

/-!
# Listings with names in clear

The gateway forwards a listing and takes its own objects out of the answer: the keys under the reserved
prefix, and the common prefixes that lie under it or that it begins with. The provider has folded the keys
by then, with whatever delimiter the client asked for, and has cut the page.

A client walks the pages with what the answer gives it to go on: the continuation token of version 2, the
next marker of version 1, or, since a provider need not name a next marker where there is no delimiter,
the last key it was shown.
-/

namespace BlindBucket.Proxy

open ByteIo GoText List

def reservedPrefix : Bytes := ascii ".blindbucket/"

/-- Whether a key is one of the gateway's own. -/
def isReserved (key : Bytes) : Bool := reservedPrefix.isPrefixOf key

def touchesReservedPrefix (pre : Bytes) : Bool :=
  if pre = [] then false
  else if reservedPrefix.isPrefixOf pre then true
  else decide (pre.length < reservedPrefix.length ∧ reservedPrefix.take pre.length = pre)

/-- What a client asks for in every request of a walk. -/
structure ListRequest where
  v2 : Bool
  pre : Bytes
  delim : Bytes
  maxKeys : Nat

/-- A provider: what it holds, and whether it names a next marker where there is no delimiter. -/
structure Provider extends Stored where
  marksAlways : Bool

/-- Whether the answers of the provider say where to go on. -/
def Provider.marks (P : Provider) (q : ListRequest) : Bool :=
  q.v2 || P.marksAlways || decide (q.delim ≠ [])

/-- A page of the provider, after a cursor. Its continuation token is its own affair, and stands for the
last row it has listed. -/
def Provider.list (P : Provider) (q : ListRequest) (c : Option Bytes) : ListBucketResult :=
  let xs := Paging.beyond ListingRow.key c (P.rows q.pre q.delim)
  let page := xs.take q.maxKeys
  let last := ((page.getLast?).map ListingRow.key).getD []
  let truncated := decide (q.maxKeys < xs.length)
  { maxKeys := q.maxKeys, isTruncated := truncated
    nextMarker := if truncated && !q.v2 && P.marks q then last else []
    nextContinuationToken := if truncated && q.v2 then last else []
    contents := objectsOf page, commonPrefixes := prefixesOf page
    keyCount := if q.v2 then page.length else 0 }

/-- `convertListedSizes`, for one entry. -/
def convertEntry (log2C : Nat) (entry : ObjectEntry) : ObjectEntry :=
  { entry with size := convertListedSize log2C entry.size entry.etag }

/-- `listObjects` with names in clear, from the provider's answer on. -/
def listObjects (log2C : Nat) (v2 : Bool) (result : ListBucketResult) : ListBucketResult :=
  let kept := result.contents.filter fun entry => !isReserved entry.key
  let prefixes := result.commonPrefixes.filter fun cp => !touchesReservedPrefix cp
  { result with
    contents := kept.map (convertEntry log2C), commonPrefixes := prefixes
    keyCount := if 0 < result.keyCount ∨ v2 then kept.length + prefixes.length else result.keyCount }

/-- Where a client goes on after a truncated answer, if it is told. -/
def nextCursor (q : ListRequest) (result : ListBucketResult) : Option Bytes :=
  if q.v2 then some result.nextContinuationToken
  else if result.nextMarker ≠ [] then some result.nextMarker
  else (result.contents.getLast?).map ObjectEntry.key

/-- The answers of a walk through the gateway: it goes on while an answer is truncated and says where.
Nothing if that takes more than `m` requests. -/
def walkObjects (log2C : Nat) (P : Provider) (q : ListRequest) : Nat → Option Bytes →
    Option (List ListBucketResult)
  | 0, _ => none
  | m + 1, c =>
    let result := listObjects log2C q.v2 (P.list q c)
    if result.isTruncated then
      match nextCursor q result with
      | none => some [result]
      | some c' => (walkObjects log2C P q m (some c')).map fun results => result :: results
    else
      some [result]

/-! ## The reserved prefix -/

variable {key cp : Bytes} {row : ListingRow} {m : Nat} {results : List ListBucketResult}

theorem isReserved_iff : isReserved key = true ↔ reservedPrefix <+: key :=
  isPrefixOf_iff_prefix

theorem touchesReservedPrefix_iff {pre : Bytes} (h : pre ≠ []) :
    touchesReservedPrefix pre = true ↔ reservedPrefix <+: pre ∨ pre <+: reservedPrefix := by
  unfold touchesReservedPrefix
  rw [if_neg h]
  by_cases hres : reservedPrefix <+: pre
  · simp [hres]
  · rw [if_neg (fun hp => hres <| isPrefixOf_iff_prefix.mp hp), decide_eq_true_iff]
    constructor
    · rintro ⟨-, htake⟩
      exact .inr (htake ▸ take_prefix _ _)
    · rintro (hp | hp)
      · exact absurd hp hres
      · refine ⟨?_, (prefix_iff_eq_take.mp hp).symm⟩
        -- a beginning of the same length is the whole, which begins itself
        rcases Nat.lt_or_ge pre.length reservedPrefix.length with hlt | hge
        · exact hlt
        · have heq : pre = reservedPrefix := hp.eq_of_length_le hge
          exact absurd (heq ▸ prefix_refl _) hres

theorem not_isReserved_of_shown (hne : cp ≠ []) (hcp : cp <+: key) (h : touchesReservedPrefix cp = false) :
    isReserved key = false := by
  by_contra hres
  have hres' := isReserved_iff.mp (Bool.not_eq_false _ ▸ hres)
  have htouch := (touchesReservedPrefix_iff hne).mpr <| prefix_or_prefix_of_prefix hres' hcp
  rw [h] at htouch
  simp at htouch

/-! ## One answer -/

variable {log2C : Nat} {P : Provider} {q : ListRequest}

/-- What the gateway leaves of the objects of a page. -/
def keptObjects (log2C : Nat) (page : List ListingRow) : List ObjectEntry :=
  ((objectsOf page).filter fun entry => !isReserved entry.key).map (convertEntry log2C)

/-- What the gateway leaves of the common prefixes of a page. -/
def keptPrefixes (page : List ListingRow) : List Bytes :=
  (prefixesOf page).filter fun cp => !touchesReservedPrefix cp

theorem keptObjects_append (xs ys : List ListingRow) :
    keptObjects log2C (xs ++ ys) = keptObjects log2C xs ++ keptObjects log2C ys := by
  unfold keptObjects
  rw [objectsOf_append, filter_append, map_append]

theorem keptPrefixes_append (xs ys : List ListingRow) :
    keptPrefixes (xs ++ ys) = keptPrefixes xs ++ keptPrefixes ys := by
  unfold keptPrefixes
  rw [prefixesOf_append, filter_append]

/-- The page that an answer is about. -/
def Provider.page (P : Provider) (q : ListRequest) (c : Option Bytes) : List ListingRow :=
  (Paging.beyond ListingRow.key c (P.rows q.pre q.delim)).take q.maxKeys

theorem listed_contents (c : Option Bytes) :
    (listObjects log2C q.v2 (P.list q c)).contents = keptObjects log2C (P.page q c) := rfl

theorem listed_commonPrefixes (c : Option Bytes) :
    (listObjects log2C q.v2 (P.list q c)).commonPrefixes = keptPrefixes (P.page q c) := rfl

theorem listed_isTruncated (c : Option Bytes) : (listObjects log2C q.v2 (P.list q c)).isTruncated = true
      ↔ q.maxKeys < (Paging.beyond ListingRow.key c (P.rows q.pre q.delim)).length := decide_eq_true_iff

variable {c : Option Bytes}

theorem mem_page (h : row ∈ P.page q c) : row ∈ P.rows q.pre q.delim := (Paging.mem_beyond.mp (mem_of_mem_take h)).1

theorem mem_keptObjects {page : List ListingRow} {entry : ObjectEntry} (h : entry ∈ keptObjects log2C page) :
    isReserved entry.key = false := by
  obtain ⟨o, ho, rfl⟩ := mem_map.mp h
  simpa [convertEntry] using (mem_filter.mp ho).2

theorem mem_keptObjects_of_row {page : List ListingRow} {o : ObjectEntry}
    (ho : (⟨o.key, some o, by simp⟩ : ListingRow) ∈ page) (hres : isReserved o.key = false) :
    ∃ entry ∈ keptObjects log2C page, entry.key = o.key := by
  refine ⟨convertEntry log2C o, mem_map.mpr ⟨o, mem_filter.mpr ⟨?_, by rw [hres]; rfl⟩, rfl⟩, rfl⟩
  exact mem_filterMap.mpr ⟨_, ho, rfl⟩

theorem mem_keptPrefixes (h : cp ∈ keptPrefixes (P.page q c)) :
    ∃ o ∈ P.matching q.pre, commonPrefix q.pre q.delim o.key = some cp ∧ isReserved o.key = false := by
  obtain ⟨hcp, hshown⟩ := mem_filter.mp h
  obtain ⟨row, hrow, rfl⟩ := mem_map.mp hcp
  obtain ⟨hmem, hnone⟩ := mem_filter.mp hrow
  obtain ⟨o, ho, rfl⟩ := P.mem_rows.mp (mem_page hmem)
  cases hfold : commonPrefix q.pre q.delim o.key with
  | none =>
    rw [rowOf_of_none hfold] at hnone
    simp at hnone
  | some cp =>
    rw [rowOf_of_some hfold] at hshown ⊢
    obtain ⟨hbegins, hne⟩ := commonPrefix_begins hfold
    exact ⟨o, ho, hfold, not_isReserved_of_shown hne hbegins (by simpa using hshown)⟩

theorem mem_walkObjects (h : walkObjects log2C P q m c = some results) {result : ListBucketResult}
    (hr : result ∈ results) :
    ∃ c', result = listObjects log2C q.v2 (P.list q c') := by
  induction m generalizing c results with
  | zero => simp [walkObjects] at h
  | succ m ih =>
    unfold walkObjects at h
    dsimp only at h
    split at h
    · split at h
      · rw [← Option.some.inj h] at hr
        exact ⟨c, mem_singleton.mp hr⟩
      · obtain ⟨rest, hrest, rfl⟩ := Option.map_eq_some_iff.mp h
        rcases mem_cons.mp hr with rfl | hr
        · exact ⟨c, rfl⟩
        · exact ih hrest hr
    · rw [← Option.some.inj h] at hr
      exact ⟨c, mem_singleton.mp hr⟩

/-! ## A walk that is told where to go on -/

/-- The cursor of the next page is the last row the provider listed, shown or not. -/
theorem nextCursor_marked (hmarks : P.marks q = true) {r : ListingRow}
    (hlt : q.maxKeys < (Paging.beyond ListingRow.key c (P.rows q.pre q.delim)).length)
    (hr : (P.page q c).getLast? = some r) :
    nextCursor q (listObjects log2C q.v2 (P.list q c)) = some r.key := by
  have hne : r.key ≠ [] := P.rows_named r (mem_page (mem_of_getLast? hr))
  unfold Provider.page at hr
  unfold nextCursor
  cases hv : q.v2 with
  | true => simp [listObjects, Provider.list, hv, hlt, hr]
  | false =>
    have hnext : (listObjects log2C false (P.list q c)).nextMarker = r.key := by
      simp [listObjects, Provider.list, hv, hlt, hr, hmarks]
    rw [if_neg (by simp), hnext, if_pos hne]

theorem walkObjects_marked (hmarks : P.marks q = true) {pages : List (List ListingRow)}
    (h : Paging.walk ListingRow.key q.maxKeys (List.replicate m (P.rows q.pre q.delim)) c = some pages) :
    ∃ results, walkObjects log2C P q m c = some results
      ∧ results.flatMap ListBucketResult.contents = keptObjects log2C pages.flatten
      ∧ results.flatMap ListBucketResult.commonPrefixes = keptPrefixes pages.flatten := by
  induction m generalizing c pages with
  | zero => simp [Paging.walk] at h
  | succ m ih =>
    unfold walkObjects
    rcases Paging.walk_cases h with ⟨hle, rfl⟩ | ⟨r, rest, hlt, hr, hrest, rfl⟩
    · have hpage : P.page q c = Paging.beyond ListingRow.key c (P.rows q.pre q.delim) :=
        take_of_length_le hle
      rw [if_neg (fun ht => absurd (listed_isTruncated c |>.mp ht) (Nat.not_lt.mpr hle))]
      refine ⟨_, rfl, ?_, ?_⟩
      · rw [flatMap_singleton, listed_contents, hpage, flatten_singleton]
      · rw [flatMap_singleton, listed_commonPrefixes, hpage, flatten_singleton]
    · rw [if_pos (listed_isTruncated c |>.mpr hlt), nextCursor_marked hmarks hlt hr]
      obtain ⟨results, hwalk, hcontents, hprefixes⟩ := ih hrest
      dsimp only
      rw [hwalk]
      refine ⟨_, rfl, ?_, ?_⟩
      · rw [flatMap_cons, hcontents, flatten_cons, keptObjects_append]
        rfl
      · rw [flatMap_cons, hprefixes, flatten_cons, keptPrefixes_append]
        rfl

/-! ## A walk that goes on after the last key shown -/

theorem marks_eq_false (h : P.marks q = false) : q.v2 = false ∧ P.marksAlways = false ∧ q.delim = [] := by
  unfold Provider.marks at h
  simpa [and_assoc] using h

theorem rows_of_no_delim (hdelim : q.delim = []) (h : row ∈ P.rows q.pre q.delim) :
    ∃ o ∈ P.matching q.pre, row = ⟨o.key, some o, by simp⟩ := by
  obtain ⟨o, ho, rfl⟩ := P.mem_rows.mp h
  rw [hdelim]
  exact ⟨o, ho, rowOf_of_none (commonPrefix_nil _ _)⟩

theorem keptObjects_keys {page : List ListingRow} (h : ∀ row ∈ page, row.object.isSome = true) :
    (keptObjects log2C page).map ObjectEntry.key
      = (page.filter fun row => !isReserved row.key).map ListingRow.key := by
  unfold keptObjects objectsOf
  induction page with
  | nil => rfl
  | cons row page ih =>
    obtain ⟨o, ho⟩ := Option.isSome_iff_exists.mp (h row mem_cons_self)
    have hkey : o.key = row.key := row.named o ho
    have hrest := ih fun r hr => h r (mem_cons_of_mem _ hr)
    rw [filterMap_cons_some ho]
    by_cases hres : isReserved row.key = true
    · rw [filter_cons_of_neg (by simp [hkey, hres]), filter_cons_of_neg (by simp [hres]), hrest]
    · rw [filter_cons_of_pos (by simp [hkey, hres]), filter_cons_of_pos (by simp [hres]), map_cons, map_cons]
      congr 1

/-- **Where the provider names no next marker, the walk is one whose cursor is the last row shown.** -/
theorem walkObjects_unmarked (hmarks : P.marks q = false) (m : Nat) (c : Option Bytes) :
    (walkObjects log2C P q m c).map (fun results =>
        (results.flatMap ListBucketResult.contents).map ObjectEntry.key)
      = (Paging.walkShown ListingRow.key (fun row => !isReserved row.key) q.maxKeys (P.rows q.pre q.delim) m
          c).map (List.map ListingRow.key) := by
  obtain ⟨hv, -, hdelim⟩ := marks_eq_false hmarks
  have hkeys : ∀ c, (keptObjects log2C (P.page q c)).map ObjectEntry.key
      = ((P.page q c).filter fun row => !isReserved row.key).map ListingRow.key := by
    intro c
    refine keptObjects_keys fun row hrow => ?_
    obtain ⟨o, -, rfl⟩ := rows_of_no_delim hdelim (mem_page hrow)
    rfl
  induction m generalizing c with
  | zero => rfl
  | succ m ih =>
    unfold walkObjects Paging.walkShown
    by_cases hlt : q.maxKeys < (Paging.beyond ListingRow.key c (P.rows q.pre q.delim)).length
    · have hcursor : nextCursor q (listObjects log2C q.v2 (P.list q c))
          = ((((P.page q c).filter fun row => !isReserved row.key).map ListingRow.key).getLast?) := by
        have hnext : (listObjects log2C q.v2 (P.list q c)).nextMarker = [] := by
          simp [listObjects, Provider.list, hmarks]
        unfold nextCursor
        rw [hnext, hv, if_neg (by simp), if_neg (by simp), ← hkeys c, getLast?_map, ← listed_contents, hv]
      rw [if_pos (listed_isTruncated c |>.mpr hlt), if_pos hlt, hcursor, getLast?_map]
      unfold Provider.page
      cases hlast : (((Paging.beyond ListingRow.key c (P.rows q.pre q.delim)).take q.maxKeys).filter
          fun row => !isReserved row.key).getLast? with
      | none =>
        have hnil := getLast?_eq_none_iff.mp hlast
        have hcontents := hkeys c
        unfold Provider.page at hcontents
        rw [hnil] at hcontents
        simp only [Option.map_none, Option.map_some, flatMap_singleton, listed_contents]
        unfold Provider.page
        rw [hcontents]
      | some r =>
        simp only [Option.map_some]
        have hrest := ih (some r.key)
        have hsplit : ∀ rest : List ListBucketResult,
            ((listObjects log2C q.v2 (P.list q c) :: rest).flatMap ListBucketResult.contents).map ObjectEntry.key
              = ((P.page q c).filter fun row => !isReserved row.key).map ListingRow.key
                ++ (rest.flatMap ListBucketResult.contents).map ObjectEntry.key := by
          intro rest
          rw [flatMap_cons, map_append, listed_contents, hkeys]
        cases hw : walkObjects log2C P q m (some r.key) with
        | none =>
          rw [hw] at hrest
          have hnone := Option.map_eq_none_iff.mp hrest.symm
          rw [hnone]
          rfl
        | some results =>
          rw [hw] at hrest
          obtain ⟨out, hout, hmap⟩ := Option.map_eq_some_iff.mp hrest.symm
          rw [hout]
          simp only [Option.map_some, hsplit, map_append, hmap]
          rfl
    · have hpage : P.page q c = Paging.beyond ListingRow.key c (P.rows q.pre q.delim) :=
        take_of_length_le (Nat.le_of_not_lt hlt)
      rw [if_neg (fun ht => hlt (listed_isTruncated c |>.mp ht)), if_neg hlt]
      simp only [Option.map_some, flatMap_singleton, listed_contents, ← hpage, hkeys]

/-! ## What a walk hides -/

/-- A walk hides the gateway's own objects and nothing else. -/
structure HidesOnlyOwn (B : Stored) (q : ListRequest) (results : List ListBucketResult) : Prop where
  /-- A client's key under the prefix is listed, or covered by a common prefix. -/
  complete : ∀ o ∈ B.objects, isReserved o.key = false → q.pre <+: o.key →
    (∃ entry ∈ results.flatMap ListBucketResult.contents, entry.key = o.key)
      ∨ ∃ cp ∈ results.flatMap ListBucketResult.commonPrefixes, cp <+: o.key
  /-- No reserved key is listed. -/
  entries : ∀ entry ∈ results.flatMap ListBucketResult.contents, isReserved entry.key = false
  /-- No common prefix has only reserved keys under it. -/
  prefixes : ∀ cp ∈ results.flatMap ListBucketResult.commonPrefixes,
    ∃ o ∈ B.objects, cp <+: o.key ∧ isReserved o.key = false

/-- When a listing can be served by hiding rows of it. -/
structure ListsPlainly (P : Provider) (q : ListRequest) : Prop where
  /-- No client's key is folded into a common prefix that the reserved prefix begins with. -/
  apart : ∀ o ∈ P.matching q.pre, isReserved o.key = false → ∀ cp,
    commonPrefix q.pre q.delim o.key = some cp → ¬ cp <+: reservedPrefix
  /-- Where no next marker is named, the reserved keys do not fill a page, or no client's key comes after
  one of them. -/
  room : P.marks q = false →
    ((P.matching q.pre).filter fun o => isReserved o.key).length < q.maxKeys
      ∨ ∀ o ∈ P.matching q.pre, isReserved o.key = false →
          ∀ r ∈ P.matching q.pre, isReserved r.key = true → o.key < r.key

theorem walkObjects_sound (h : walkObjects log2C P q m none = some results) :
    (∀ entry ∈ results.flatMap ListBucketResult.contents, isReserved entry.key = false)
      ∧ ∀ cp ∈ results.flatMap ListBucketResult.commonPrefixes,
          ∃ o ∈ P.objects, cp <+: o.key ∧ isReserved o.key = false := by
  constructor
  · intro entry hentry
    obtain ⟨result, hresult, hmem⟩ := mem_flatMap.mp hentry
    obtain ⟨c, rfl⟩ := mem_walkObjects h hresult
    exact mem_keptObjects hmem
  · intro cp hcp
    obtain ⟨result, hresult, hmem⟩ := mem_flatMap.mp hcp
    obtain ⟨c, rfl⟩ := mem_walkObjects h hresult
    obtain ⟨o, ho, hfold, hres⟩ := mem_keptPrefixes hmem
    exact ⟨o, (P.mem_matching.mp ho).1, (commonPrefix_begins hfold).1, hres⟩

/-- A walk that is told where to go on shows every client's key that is not folded into a common prefix of
the reserved prefix, and no other. -/
theorem marked_complete_iff
    (hcontents : results.flatMap ListBucketResult.contents = keptObjects log2C (P.rows q.pre q.delim))
    (hprefixes : results.flatMap ListBucketResult.commonPrefixes = keptPrefixes (P.rows q.pre q.delim)) :
    (∀ o ∈ P.objects, isReserved o.key = false → q.pre <+: o.key →
        (∃ entry ∈ results.flatMap ListBucketResult.contents, entry.key = o.key)
          ∨ ∃ cp ∈ results.flatMap ListBucketResult.commonPrefixes, cp <+: o.key)
      ↔ ∀ o ∈ P.matching q.pre, isReserved o.key = false → ∀ cp,
          commonPrefix q.pre q.delim o.key = some cp → ¬ cp <+: reservedPrefix := by
  rw [hcontents, hprefixes]
  constructor
  · intro hall o ho hres cp hfold hbad
    obtain ⟨hmem, hpre⟩ := P.mem_matching.mp ho
    rcases hall o hmem hres hpre with ⟨entry, hentry, hkey⟩ | ⟨cp', hcp', hbegins⟩
    · -- a key that is listed has no common prefix
      obtain ⟨x, hx, rfl⟩ := mem_map.mp hentry
      obtain ⟨row, hrow, hobj⟩ := mem_filterMap.mp (mem_filter.mp hx).1
      obtain ⟨o', ho', rfl⟩ := P.mem_rows.mp hrow
      cases hfold' : commonPrefix q.pre q.delim o'.key with
      | none =>
        rw [rowOf_of_none hfold'] at hobj
        have hx' : o' = x := Option.some.inj hobj
        have hsame : o'.key = o.key := by rw [hx']; exact hkey
        rw [hsame, hfold] at hfold'
        simp at hfold'
      | some cp' =>
        rw [rowOf_of_some hfold'] at hobj
        simp at hobj
    · -- a common prefix that covers it is the one it is folded into
      obtain ⟨hcp', hshown⟩ := mem_filter.mp hcp'
      obtain ⟨row, hrow, rfl⟩ := mem_map.mp hcp'
      obtain ⟨hrows, hnone⟩ := mem_filter.mp hrow
      obtain ⟨o', ho', rfl⟩ := P.mem_rows.mp hrows
      cases hfold' : commonPrefix q.pre q.delim o'.key with
      | none =>
        rw [rowOf_of_none hfold'] at hnone
        simp at hnone
      | some cp' =>
        rw [rowOf_of_some hfold'] at hbegins hshown
        have hsame := commonPrefix_unique (P.mem_matching.mp ho').2 hpre hfold' hbegins
        rw [hfold] at hsame
        have hcp : cp = cp' := Option.some.inj hsame
        have htouch := (touchesReservedPrefix_iff (commonPrefix_begins hfold').2).mpr (.inr (hcp ▸ hbad))
        rw [htouch] at hshown
        simp at hshown
  · intro hapart o hmem hres hpre
    have ho : o ∈ P.matching q.pre := P.mem_matching.mpr ⟨hmem, hpre⟩
    have hrow : rowOf q.pre q.delim o ∈ P.rows q.pre q.delim := P.rowOf_mem_rows ho
    cases hfold : commonPrefix q.pre q.delim o.key with
    | none =>
      rw [rowOf_of_none hfold] at hrow
      exact .inl (mem_keptObjects_of_row hrow hres)
    | some cp =>
      rw [rowOf_of_some hfold] at hrow
      obtain ⟨hbegins, hne⟩ := commonPrefix_begins hfold
      refine .inr ⟨cp, mem_filter.mpr ⟨?_, ?_⟩, hbegins⟩
      · exact mem_map.mpr ⟨_, mem_filter.mpr ⟨hrow, rfl⟩, rfl⟩
      · rw [Bool.not_eq_true']
        by_contra htouch
        rcases (touchesReservedPrefix_iff hne).mp (Bool.not_eq_false _ ▸ htouch) with hp | hp
        · rw [isReserved_iff.mpr (hp.trans hbegins)] at hres
          simp at hres
        · exact hapart o ho hres cp hfold hp

/-- A walk that goes on after the last key shown misses a client's key exactly if the reserved keys fill a
page and a client's key comes after them. -/
theorem unmarked_complete_iff (hn : 0 < q.maxKeys) (hmarks : P.marks q = false)
    (h : walkObjects log2C P q m none = some results) :
    (∀ o ∈ P.objects, isReserved o.key = false → q.pre <+: o.key →
        (∃ entry ∈ results.flatMap ListBucketResult.contents, entry.key = o.key)
          ∨ ∃ cp ∈ results.flatMap ListBucketResult.commonPrefixes, cp <+: o.key)
      ↔ ((P.matching q.pre).filter fun o => isReserved o.key).length < q.maxKeys
          ∨ ∀ o ∈ P.matching q.pre, isReserved o.key = false →
              ∀ r ∈ P.matching q.pre, isReserved r.key = true → o.key < r.key := by
  obtain ⟨-, -, hdelim⟩ := marks_eq_false hmarks
  have hwalk : (walkObjects log2C P q m none).map (fun results =>
      (results.flatMap ListBucketResult.contents).map ObjectEntry.key) = _ := walkObjects_unmarked hmarks m none
  rw [h] at hwalk
  obtain ⟨out, hout, hkeys⟩ := Option.map_eq_some_iff.mp hwalk.symm
  have hsorted := P.rows_sorted q.pre q.delim
  -- rows and objects are the same thing here
  have hrow : ∀ o ∈ P.matching q.pre, (⟨o.key, some o, by simp⟩ : ListingRow) ∈ P.rows q.pre q.delim := by
    intro o ho
    rw [hdelim]
    exact P.mem_rows.mpr ⟨o, ho, rowOf_of_none (commonPrefix_nil _ _)⟩
  have hcount : ((P.rows q.pre q.delim).filter fun row => !!isReserved row.key).length
      = ((P.matching q.pre).filter fun o => isReserved o.key).length := by
    rw [hdelim, ((P.rows_perm q.pre).filter _).length_eq, filter_map, length_map]
    congr 1
    refine filter_congr fun o _ => ?_
    rw [Function.comp_apply, rowOf_of_none (commonPrefix_nil _ _), Bool.not_not]
  constructor
  · intro hall
    by_contra hnot
    rw [not_or, Nat.not_lt] at hnot
    obtain ⟨hfull, hlate⟩ := hnot
    obtain ⟨o, ho, hres, r, hr, hrres, hro⟩ : ∃ o ∈ P.matching q.pre, isReserved o.key = false ∧
        ∃ r ∈ P.matching q.pre, isReserved r.key = true ∧ ¬ o.key < r.key := by
      by_contra hno
      refine hlate fun o ho hres r hr hrres => ?_
      by_contra hlt
      exact hno ⟨o, ho, hres, r, hr, hrres, hlt⟩
    have hlt : r.key < o.key := by
      by_contra hnlt
      have heq := Std.le_antisymm (Std.not_lt.mp hro) (Std.not_lt.mp hnlt)
      rw [heq, hres] at hrres
      simp at hrres
    have hmiss := Paging.walkShown_misses
      hsorted ?_ (by rw [hcount]; exact hfull) (hrow o ho) (by simp [hres]) (hrow r hr) (by simp [hrres]) hlt
      (fun d _ _ => rfl) hout
    · obtain ⟨hmem, hpre⟩ := P.mem_matching.mp ho
      rcases hall o hmem hres hpre with ⟨entry, hentry, hkey⟩ | ⟨cp, hcp, -⟩
      · have hin : o.key ∈ out.map ListingRow.key := by
          rw [hkeys, ← hkey]
          exact mem_map_of_mem hentry
        obtain ⟨row, hrowmem, hrowkey⟩ := mem_map.mp hin
        have hsame := hsorted.key_inj (Paging.walkShown_subset hout hrowmem) (hrow o ho) hrowkey
        exact hmiss (hsame ▸ hrowmem)
      · obtain ⟨result, hresult, hmem'⟩ := mem_flatMap.mp hcp
        obtain ⟨c, rfl⟩ := mem_walkObjects h hresult
        obtain ⟨o', -, hfold, -⟩ := mem_keptPrefixes hmem'
        rw [hdelim, commonPrefix_nil] at hfold
        simp at hfold
    · -- what lies between two reserved keys is reserved
      intro a _ b _ d _ hab hbd hares hdres
      simp only [Bool.not_eq_false'] at hares hdres ⊢
      exact isReserved_iff.mpr
        (begins_of_between (isReserved_iff.mp hares) (isReserved_iff.mp hdres) hab hbd)
  · intro hroom o hmem hres hpre
    have ho : o ∈ P.matching q.pre := P.mem_matching.mpr ⟨hmem, hpre⟩
    have hin := Paging.walkShown_complete hn hsorted (by
      rw [hcount]
      refine hroom.imp id fun hbefore a ha hshown b hb hhidden => ?_
      obtain ⟨x, hx, rfl⟩ := rows_of_no_delim hdelim ha
      obtain ⟨y, hy, rfl⟩ := rows_of_no_delim hdelim hb
      exact hbefore x hx (by simpa using hshown) y hy (by simpa using hhidden)) hout (hrow o ho)
      (by simp [hres]) rfl
    have hkey : o.key ∈ out.map ListingRow.key := mem_map.mpr ⟨_, hin, rfl⟩
    rw [hkeys] at hkey
    obtain ⟨entry, hentry, heq⟩ := mem_map.mp hkey
    exact .inl ⟨entry, hentry, heq⟩

/-- **What a plain listing hides.** For every set of stored keys, prefix, delimiter and page size, the walk
of a client ends, and it hides only the gateway's own objects exactly if no client's key is folded into a
common prefix that the reserved prefix begins with and, where the provider names no next marker, no page of
reserved keys cuts the walk off. -/
theorem listObjects_hides_iff (hn : 0 < q.maxKeys) :
    ∃ results, walkObjects log2C P q ((P.rows q.pre q.delim).length + 1) none = some results
      ∧ (HidesOnlyOwn P.toStored q results ↔ ListsPlainly P q) := by
  have hsorted := P.rows_sorted q.pre q.delim
  have hlen : (Paging.beyond ListingRow.key none (P.rows q.pre q.delim)).length
      = (P.rows q.pre q.delim).length := by rw [Paging.beyond_none]
  cases hmarks : P.marks q with
  | true =>
    obtain ⟨pages, hwalk, hflat, -⟩ := Paging.walk_replicate hn hsorted
      (Paging.pageCount_le hn _)
    rw [hlen] at hwalk
    rw [Paging.beyond_none] at hflat
    obtain ⟨results, hresults, hcontents, hprefixes⟩ := walkObjects_marked hmarks hwalk
    rw [hflat] at hcontents hprefixes
    have hiff := marked_complete_iff hcontents hprefixes
    obtain ⟨hentries, hshown⟩ := walkObjects_sound hresults
    refine ⟨results, hresults, fun h => ⟨hiff.mp h.complete, fun hm => ?_⟩, fun h => ?_⟩
    · rw [hmarks] at hm
      simp at hm
    · exact ⟨hiff.mpr h.apart, hentries, hshown⟩
  | false =>
    obtain ⟨out, hout⟩ : ∃ out, Paging.walkShown ListingRow.key (fun row => !isReserved row.key) q.maxKeys
        (P.rows q.pre q.delim) ((P.rows q.pre q.delim).length + 1) none = some out :=
      Paging.walkShown_ends hsorted (by rw [hlen]; omega)
    have hwalk : (walkObjects log2C P q ((P.rows q.pre q.delim).length + 1) none).map (fun results =>
        (results.flatMap ListBucketResult.contents).map ObjectEntry.key) = _ :=
      walkObjects_unmarked hmarks _ none
    rw [hout] at hwalk
    obtain ⟨results, hresults, -⟩ := Option.map_eq_some_iff.mp hwalk
    have hiff := unmarked_complete_iff hn hmarks hresults
    obtain ⟨hentries, hshown⟩ := walkObjects_sound hresults
    refine ⟨results, hresults, fun h => ⟨?_, fun _ => hiff.mp h.complete⟩, fun h => ?_⟩
    · intro o _ _ cp hfold
      rw [(marks_eq_false hmarks).2.2, commonPrefix_nil] at hfold
      simp at hfold
    · exact ⟨hiff.mpr (h.room hmarks), hentries, hshown⟩

/-- A bucket with one object of a client. -/
def blobProvider : Provider where
  objects := [⟨ascii ".blob", [], [], 0, []⟩]
  distinct := by decide
  named := by decide
  marksAlways := true

/-- A listing that folds at the letter `l`. -/
def foldedRequest : ListRequest where
  v2 := true
  pre := []
  delim := ascii "l"
  maxKeys := 1000

/-- The key `.blob` is folded into `.bl`, which the reserved prefix begins with, so it is not listed. -/
theorem blob_hidden : ∃ results, walkObjects 16 blobProvider foldedRequest 2 none = some results
      ∧ ¬ HidesOnlyOwn blobProvider.toStored foldedRequest results := by
  have hwalk : (walkObjects 16 blobProvider foldedRequest 2 none).map (fun results =>
      (results.flatMap ListBucketResult.contents, results.flatMap ListBucketResult.commonPrefixes))
      = some ([], []) := by decide +kernel
  obtain ⟨results, hresults, hshown⟩ := Option.map_eq_some_iff.mp hwalk
  obtain ⟨hcontents, hprefixes⟩ := Prod.mk.inj hshown
  refine ⟨results, hresults, fun h => ?_⟩
  have hlost := h.complete ⟨ascii ".blob", [], [], 0, []⟩ (mem_singleton.mpr rfl) (by decide)
    nil_prefix
  rw [hcontents, hprefixes] at hlost
  simp at hlost

/-- One that folds at a letter which the key does not have. -/
def unfoldedRequest : ListRequest := { foldedRequest with delim := ascii "x" }

theorem listObjects_hides_iff_blob : ListsPlainly blobProvider unfoldedRequest
      ∧ ∃ results, walkObjects 16 blobProvider unfoldedRequest 2 none = some results
        ∧ HidesOnlyOwn blobProvider.toStored unfoldedRequest results := by
  have hplain : ListsPlainly blobProvider unfoldedRequest := by
    refine ⟨fun o ho _ cp hfold => ?_, fun hmarks => absurd hmarks (by decide)⟩
    obtain rfl := mem_singleton.mp (mem_of_mem_filter ho)
    exact absurd hfold (by decide +revert)
  obtain ⟨results, hwalk, hiff⟩ : ∃ results, walkObjects 16 blobProvider unfoldedRequest 2 none = some results ∧ _ :=
    listObjects_hides_iff (by decide)
  exact ⟨hplain, results, hwalk, hiff.mpr hplain⟩

end BlindBucket.Proxy
