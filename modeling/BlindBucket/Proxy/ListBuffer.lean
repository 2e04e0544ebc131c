import BlindBucket.Lib.Paging
import BlindBucket.Proxy.RangeGet

/-!
# Pages of an encrypted listing

With names encrypted the gateway reads a whole prefix, sorts it by the plaintext keys and cuts the pages
out of that. All that a page needs to know of the one before is its last key, which the client hands back
as a marker or inside a continuation token. `servePage` finds the place by binary search.

`walkListing` is a client that follows the answers to the end. It is the walk of a sorted list page by
page, so it returns every row once, also when rows come and go between its requests.
-/

namespace BlindBucket.Proxy

open ByteIo GoText BaseText ObjectMeta List Option

structure ObjectEntry where
  key : Bytes
  lastModified : Bytes
  etag : Bytes
  size : Int
  storageClass : Bytes
deriving DecidableEq

/-- An object, which is listed under its key, or a common prefix. -/
structure ListingRow where
  key : Bytes
  object : Option ObjectEntry
  named : ∀ entry ∈ object, entry.key = key
deriving DecidableEq

variable (page : List ListingRow) (after : Bytes) (key : Bytes)

theorem ListingRow.named_none : ∀ entry ∈ (none : Option ObjectEntry), entry.key = key := by simp

/-- The fields of `upstream.ListBucketResult` that a page fills in. -/
structure ListBucketResult where
  maxKeys : Nat
  isTruncated : Bool
  nextMarker : Bytes
  nextContinuationToken : Bytes
  contents : List ObjectEntry
  commonPrefixes : List Bytes
  keyCount : Nat := 0
deriving DecidableEq

def encodeCursor : Bytes := rawURLEncoding.encode after

def decodeCursor (token : Bytes) : Except ApiError Bytes :=
  match rawURLEncoding.decodeStrict token with
  | none => .error (.invalidArgument ⟨"the continuation token is not one this gateway issued", []⟩)
  | some raw => .ok raw

/-- The loop of `slices.BinarySearchFunc`. -/
def searchRows (rows : List ListingRow) (target : Bytes) : Nat → Nat → Nat → Nat
  | 0, i, _ => i
  | fuel + 1, i, j =>
    if i < j then
      match rows[(i + j) / 2]? with
      | none => i
      | some r =>
        if r.key < target then searchRows rows target fuel ((i + j) / 2 + 1) j
        else searchRows rows target fuel i ((i + j) / 2)
    else i

def pageStart (rows : List ListingRow) (after : Bytes) : Nat :=
  if after = [] then 0
  else
    let start := searchRows rows after rows.length 0 rows.length
    -- the search lands on the cursor itself when it is still there, and its row has been served
    if (rows[start]?).map ListingRow.key = some after then start + 1 else start

def objectsOf : List ObjectEntry := page.filterMap ListingRow.object

def prefixesOf : List Bytes :=
  (page.filter fun row => row.object.isNone).map ListingRow.key

/-- `servePage`; nothing where it panics, on the last row of a page that has none. -/
def servePage (rows : List ListingRow) (after : Bytes) (maxKeys : Nat) (v2 : Bool) : Option ListBucketResult :=
  let start := pageStart rows after
  let page := (rows.drop start).take maxKeys
  let result : ListBucketResult :=
    { maxKeys, isTruncated := decide (min (start + maxKeys) rows.length < rows.length)
      nextMarker := [], nextContinuationToken := []
      contents := objectsOf page, commonPrefixes := prefixesOf page }
  if result.isTruncated then
    match page.getLast? with
    | none => none
    | some last =>
      if v2 then some { result with nextContinuationToken := encodeCursor last.key }
      else some { result with nextMarker := last.key }
  else
    some result

/-- The parameters of a listing that say where it goes on. -/
structure ListQuery where
  continuationToken : Bytes := []
  startAfter : Bytes := []
  marker : Bytes := []

def listingCursor (query : ListQuery) (v2 : Bool) : Except ApiError Bytes :=
  if v2 then
    if query.continuationToken ≠ [] then decodeCursor query.continuationToken
    else .ok query.startAfter
  else
    .ok query.marker

/-- What the client asks for after an answer. -/
def ListQuery.next (query : ListQuery) (result : ListBucketResult) (v2 : Bool) : ListQuery :=
  if v2 then { query with continuationToken := result.nextContinuationToken }
  else { query with marker := result.nextMarker }

/-- The answers that a client gets who goes on for as long as `IsTruncated` is true. The rows of the
prefix are `rs`, request by request; nothing if the walk is not over after these. -/
def walkListing (v2 : Bool) (maxKeys : Nat) : List (List ListingRow) → ListQuery → Option (List ListBucketResult)
  | [], _ => none
  | rows :: later, query =>
    match listingCursor query v2 with
    | .error _ => none
    | .ok after =>
      match servePage rows after maxKeys v2 with
      | none => none
      | some result =>
        if result.isTruncated then
          (walkListing v2 maxKeys later (query.next result v2)).map fun results => result :: results
        else
          some [result]

/-! ## The cursor -/

/-- Rows as a listing has them: sorted bytewise by distinct keys, none of them empty. -/
structure Listed (rows : List ListingRow) : Prop where
  /-- In order. -/
  sorted : Paging.Sorted ListingRow.key rows
  /-- A row has a key. -/
  named : ∀ r ∈ rows, r.key ≠ []

/-- The cursor that a resume point stands for. -/
def cursorOf : Option Bytes := if after = [] then none else some after

theorem decodeCursor_encodeCursor : decodeCursor (encodeCursor after) = .ok after := by
  unfold decodeCursor encodeCursor
  rw [rawURLEncoding.decodeStrict_encode]

theorem encodeCursor_ne_nil {after : Bytes} (h : after ≠ []) : encodeCursor after ≠ [] := by
  intro hnil
  have hdec := rawURLEncoding.decode_encode after
  rw [show rawURLEncoding.encode after = [] from hnil] at hdec
  exact h (some.inj hdec).symm

/-- Rows as `slices.SortFunc` leaves them; a key may come more than once. -/
def InOrder (rows : List ListingRow) : Prop := rows.Pairwise fun a b => ¬ b.key < a.key

variable {rows : List ListingRow}

theorem inOrder_of_sorted (hs : Paging.Sorted ListingRow.key rows) : InOrder rows :=
  hs.imp fun hab hba => Std.lt_irrefl (Std.lt_trans hab hba)

variable {i j maxKeys : Nat} {v2 : Bool} {rs pages : List (List ListingRow)} {query : ListQuery}

theorem searchRows_le (rows : List ListingRow) (target : Bytes) (fuel : Nat) (hij : i ≤ j) :
    searchRows rows target fuel i j ≤ j := by
  induction fuel generalizing i j with
  | zero => exact hij
  | succ fuel ih =>
    unfold searchRows
    by_cases hlt : i < j
    · rw [if_pos hlt]
      split
      · exact hij
      · split
        · exact ih (by omega)
        · exact Nat.le_trans (ih (by omega)) (by omega)
    · rw [if_neg hlt]
      exact hij

/-- The search stops between the rows before the target and the others. -/
theorem searchRows_splits {target : Bytes} (hs : InOrder rows) {fuel : Nat} (hfuel : j - i ≤ fuel) (hij : i ≤ j)
    (hj : j ≤ rows.length) (hlow : ∀ r ∈ rows.take i, r.key < target) (hhigh : ∀ r ∈ rows.drop j, ¬ r.key < target) :
    (∀ r ∈ rows.take (searchRows rows target fuel i j), r.key < target)
      ∧ ∀ r ∈ rows.drop (searchRows rows target fuel i j), ¬ r.key < target := by
  induction fuel generalizing i j with
  | zero =>
    have heq : i = j := by omega
    subst heq
    exact ⟨hlow, hhigh⟩
  | succ fuel ih =>
    unfold searchRows
    by_cases hlt : i < j
    · rw [if_pos hlt]
      have hmid : (i + j) / 2 < rows.length := by omega
      have hsplit : rows.take ((i + j) / 2) ++ rows[(i + j) / 2] :: rows.drop ((i + j) / 2 + 1) = rows := by
        rw [← drop_eq_getElem_cons hmid, take_append_drop]
      obtain ⟨-, hright, hcross⟩ := pairwise_append.mp (hsplit.symm ▸ hs)
      rw [getElem?_eq_getElem hmid]
      simp only
      split
      next hkey =>
        refine ih (by omega) (by omega) hj ?_ hhigh
        -- the rows in front of the middle are before it, and it is before the target
        intro r hr
        rw [take_succ_eq_append_getElem hmid] at hr
        rcases mem_append.mp hr with hr | hr
        · exact Std.lt_of_le_of_lt (Std.not_lt.mp (hcross r hr _ mem_cons_self)) hkey
        · rw [mem_singleton.mp hr]
          exact hkey
      next hkey =>
        refine ih (by omega) (by omega) (by omega) hlow ?_
        intro r hr
        rw [drop_eq_getElem_cons hmid] at hr
        rcases mem_cons.mp hr with rfl | hr
        · exact hkey
        · intro hlt'
          exact hkey (Std.lt_of_le_of_lt (Std.not_lt.mp ((pairwise_cons.mp hright).1 r hr)) hlt')
    · rw [if_neg hlt]
      have heq : i = j := by omega
      subst heq
      exact ⟨hlow, hhigh⟩

/-- **A page starts at the first row after the cursor.** -/
theorem drop_pageStart (hs : Paging.Sorted ListingRow.key rows) (after : Bytes) :
    rows.drop (pageStart rows after) = Paging.beyond ListingRow.key (cursorOf after) rows := by
  unfold pageStart cursorOf
  by_cases hnil : after = []
  · rw [if_pos hnil, if_pos hnil, drop_zero, Paging.beyond_none]
  · rw [if_neg hnil, if_neg hnil]
    obtain ⟨hlow, hhigh⟩ : (∀ r ∈ rows.take (searchRows rows after rows.length 0 rows.length), r.key < after)
        ∧ ∀ r ∈ rows.drop (searchRows rows after rows.length 0 rows.length), ¬ r.key < after :=
      searchRows_splits (inOrder_of_sorted hs) (Nat.le_of_eq (Nat.sub_zero _)) (Nat.zero_le _) le_rfl (by simp) (by simp)
    dsimp only
    generalize searchRows rows after rows.length 0 rows.length = start at hlow hhigh ⊢
    -- what has to be left out and what has to be kept, for a place that may be one further
    have hcut : ∀ p, (∀ r ∈ rows.take p, ¬ after < r.key) → (∀ r ∈ rows.drop p, after < r.key) →
        rows.drop p = Paging.beyond ListingRow.key (some after) rows := by
      intro p hout hin
      unfold Paging.beyond
      conv_rhs => rw [← take_append_drop p rows]
      rw [filter_append, filter_eq_nil_iff.mpr fun r hr h => hout r hr (Paging.isBeyond_some.mp h),
        nil_append, filter_eq_self.mpr fun r hr => Paging.isBeyond_some.mpr (hin r hr)]
    by_cases hlen : start < rows.length
    · rw [getElem?_eq_getElem hlen]
      have hdrop := drop_eq_getElem_cons hlen
      have htail : ∀ r ∈ rows.drop (start + 1), rows[start].key < r.key := by
        have hsorted : Paging.Sorted ListingRow.key (rows.drop start) := hs.sublist (drop_sublist _ _)
        rw [hdrop] at hsorted
        exact (pairwise_cons.mp hsorted).1
      have hfirst : ¬ rows[start].key < after := hhigh _ (hdrop ▸ mem_cons_self ..)
      split
      next heq =>
        have hkey : rows[start].key = after := some.inj heq
        refine hcut _ ?_ (fun r hr => hkey ▸ htail r hr)
        intro r hr hlt
        rw [take_succ_eq_append_getElem hlen] at hr
        rcases mem_append.mp hr with hr | hr
        · exact Std.lt_irrefl (Std.lt_trans hlt (hlow r hr))
        · rw [mem_singleton.mp hr, hkey] at hlt
          exact Std.lt_irrefl hlt
      next hne =>
        have hgt : after < rows[start].key := by
          rcases Std.lt_trichotomy after rows[start].key with h | h | h
          · exact h
          · exact absurd (congrArg some h.symm) hne
          · exact absurd h hfirst
        refine hcut _ (fun r hr hlt => Std.lt_irrefl (Std.lt_trans hlt (hlow r hr))) ?_
        intro r hr
        rw [hdrop] at hr
        rcases mem_cons.mp hr with rfl | hr
        · exact hgt
        · exact Std.lt_trans hgt (htail r hr)
    · rw [getElem?_eq_none (Nat.le_of_not_lt hlen), if_neg (by simp)]
      refine hcut _ (fun r hr hlt => Std.lt_irrefl (Std.lt_trans hlt (hlow r hr))) ?_
      intro r hr
      rw [drop_eq_nil_of_le (Nat.le_of_not_lt hlen)] at hr
      simp at hr

/-! ## The walk -/

def resultOf (v2 truncated : Bool) (maxKeys : Nat) (page : List ListingRow) : ListBucketResult where
  maxKeys := maxKeys
  isTruncated := truncated
  nextMarker := if truncated && !v2 then ((page.getLast?).map ListingRow.key).getD [] else []
  nextContinuationToken :=
    if truncated && v2 then ((page.getLast?).map fun r => encodeCursor r.key).getD [] else []
  contents := objectsOf page
  commonPrefixes := prefixesOf page

@[simp] theorem resultOf_isTruncated (v2 truncated : Bool) (maxKeys : Nat) (page : List ListingRow) :
    (resultOf v2 truncated maxKeys page).isTruncated = truncated := rfl

/-- The answers that show the pages of a walk: all but the last are truncated. -/
def resultsOf (v2 : Bool) (maxKeys : Nat) : List (List ListingRow) → List ListBucketResult
  | [] => []
  | [page] => [resultOf v2 false maxKeys page]
  | page :: next :: rest => resultOf v2 true maxKeys page :: resultsOf v2 maxKeys (next :: rest)

/-- What `servePage` answers: all that is after the cursor, or a full page of it. -/
theorem servePage_eq (hs : Paging.Sorted ListingRow.key rows) (hn : 0 < maxKeys) (after : Bytes) (v2 : Bool) :
    let xs := Paging.beyond ListingRow.key (cursorOf after) rows
    servePage rows after maxKeys v2
      = some (if maxKeys < xs.length then resultOf v2 true maxKeys (xs.take maxKeys)
          else resultOf v2 false maxKeys xs) := by
  intro xs
  have hxs : rows.drop (pageStart rows after) = xs := drop_pageStart hs after
  have hlen : rows.length - pageStart rows after = xs.length := by rw [← hxs, length_drop]
  unfold servePage
  dsimp only
  rw [hxs]
  by_cases hlt : maxKeys < xs.length
  · have htrunc : min (pageStart rows after + maxKeys) rows.length < rows.length := by omega
    obtain ⟨r, hr⟩ := Paging.getLast?_page hn hlt
    rw [if_pos hlt, decide_eq_true htrunc]
    cases v2 <;> simp [resultOf, hr]
  · have htrunc : ¬ min (pageStart rows after + maxKeys) rows.length < rows.length := by omega
    rw [if_neg hlt, decide_eq_false htrunc, take_of_length_le (Nat.le_of_not_lt hlt)]
    simp [resultOf]

/-- The next request resumes after the last row of a truncated page. -/
theorem listingCursor_next {page : List ListingRow} {r : ListingRow} (hr : page.getLast? = some r)
    (hne : r.key ≠ []) (query : ListQuery) (v2 : Bool) (maxKeys : Nat) :
    listingCursor (query.next (resultOf v2 true maxKeys page) v2) v2 = .ok r.key := by
  cases v2 with
  | false => simp [listingCursor, ListQuery.next, resultOf, hr]
  | true =>
    have hsome := encodeCursor_ne_nil hne
    simp [listingCursor, ListQuery.next, resultOf, hr, hsome, decodeCursor_encodeCursor]

/-- **The walk of a client is the walk of a sorted list page by page.** -/
theorem walkListing_eq (hn : 0 < maxKeys) (hs : ∀ rows ∈ rs, Listed rows) {after : Bytes}
    (hq : listingCursor query v2 = .ok after) :
    walkListing v2 maxKeys rs query
      = (Paging.walk ListingRow.key maxKeys rs (cursorOf after)).map (resultsOf v2 maxKeys) := by
  induction rs generalizing query after with
  | nil => rfl
  | cons rows later ih =>
    have hrows := hs rows mem_cons_self
    rw [walkListing, hq]
    dsimp only
    rw [servePage_eq hrows.sorted hn]
    unfold Paging.walk
    by_cases hlt : maxKeys < (Paging.beyond ListingRow.key (cursorOf after) rows).length
    · obtain ⟨r, hr⟩ := Paging.getLast?_page hn hlt
      have hmem := mem_of_mem_take (mem_of_getLast? hr)
      have hne : r.key ≠ [] := hrows.named r (Paging.mem_beyond.mp hmem).1
      rw [if_pos hlt, if_pos hlt, hr]
      dsimp only
      rw [ih (fun t ht => hs t (mem_cons_of_mem _ ht)) (listingCursor_next hr hne ..)]
      unfold cursorOf
      rw [if_neg hne, Option.map_map, Option.map_map]
      refine map_congr fun pages hpages => ?_
      -- a walk has a page, so this one is not the last
      cases pages with
      | nil =>
        cases later with
        | nil => simp [Paging.walk] at hpages
        | cons t later => rcases Paging.walk_cases hpages with ⟨_, h⟩ | ⟨_, _, _, _, _, h⟩ <;> simp at h
      | cons page rest => rfl
    · rw [if_neg hlt, if_neg hlt]
      rfl

/-! ## What the answers show -/

theorem resultsOf_length (v2 : Bool) (maxKeys : Nat) (pages : List (List ListingRow)) :
    (resultsOf v2 maxKeys pages).length = pages.length := by
  induction pages with
  | nil => rfl
  | cons page rest ih =>
    cases rest with
    | nil => rfl
    | cons next rest =>
      rw [resultsOf, length_cons, ih]
      rfl

theorem mem_resultsOf {result : ListBucketResult} (h : result ∈ resultsOf v2 maxKeys pages) :
    ∃ page ∈ pages, ∃ truncated, result = resultOf v2 truncated maxKeys page := by
  induction pages with
  | nil => simp [resultsOf] at h
  | cons page rest ih =>
    cases rest with
    | nil => exact ⟨page, mem_cons_self .., false, mem_singleton.mp h⟩
    | cons next rest =>
      rcases mem_cons.mp h with rfl | h
      · exact ⟨page, mem_cons_self .., true, rfl⟩
      · obtain ⟨p, hp, hresult⟩ := ih h
        exact ⟨p, mem_cons_of_mem _ hp, hresult⟩

theorem objectsOf_append (xs ys : List ListingRow) :
    objectsOf (xs ++ ys) = objectsOf xs ++ objectsOf ys := filterMap_append

theorem prefixesOf_append (xs ys : List ListingRow) : prefixesOf (xs ++ ys) = prefixesOf xs ++ prefixesOf ys := by
  unfold prefixesOf
  rw [filter_append, map_append]

theorem resultsOf_contents (v2 : Bool) (maxKeys : Nat) (pages : List (List ListingRow)) :
    (resultsOf v2 maxKeys pages).flatMap ListBucketResult.contents = objectsOf pages.flatten := by
  induction pages with
  | nil => rfl
  | cons page rest ih =>
    cases rest with
    | nil => simp [resultsOf, resultOf]
    | cons next rest =>
      rw [resultsOf, flatMap_cons, ih]
      exact (objectsOf_append page _).symm

theorem resultsOf_commonPrefixes (v2 : Bool) (maxKeys : Nat) (pages : List (List ListingRow)) :
    (resultsOf v2 maxKeys pages).flatMap ListBucketResult.commonPrefixes = prefixesOf pages.flatten := by
  induction pages with
  | nil => rfl
  | cons page rest ih =>
    cases rest with
    | nil => simp [resultsOf, resultOf]
    | cons next rest =>
      rw [resultsOf, flatMap_cons, ih]
      exact (prefixesOf_append page _).symm

theorem objectsOf_length_add :
    (objectsOf page).length + (prefixesOf page).length = page.length := by
  induction page with
  | nil => rfl
  | cons row rest ih =>
    unfold objectsOf prefixesOf at ih ⊢
    cases h : row.object with
    | none =>
      rw [filterMap_cons_none h, filter_cons_of_pos (by rw [h]; rfl), map_cons,
        length_cons, length_cons]
      omega
    | some entry =>
      rw [filterMap_cons_some h, filter_cons_of_neg (by rw [h]; simp), length_cons,
        length_cons]
      omega

theorem objectsOf_nodup (hs : Paging.Sorted ListingRow.key rows) : (objectsOf rows).Nodup := by
  refine Pairwise.filterMap ListingRow.object ?_ hs
  intro a b hab x hx y hy heq
  rw [← a.named x hx, ← b.named y hy, heq] at hab
  exact Std.lt_irrefl hab

theorem prefixesOf_nodup (hs : Paging.Sorted ListingRow.key rows) : (prefixesOf rows).Nodup := by
  refine Pairwise.map ListingRow.key ?_ (hs.filter _)
  intro a b hab heq
  rw [heq] at hab
  exact Std.lt_irrefl hab

def timesShown (results : List ListBucketResult) (row : ListingRow) : Nat :=
  match row.object with
  | some entry => (results.flatMap ListBucketResult.contents).count entry
  | none => (results.flatMap ListBucketResult.commonPrefixes).count row.key

theorem timesShown_resultsOf {row : ListingRow} (hs : Paging.Sorted ListingRow.key pages.flatten)
    (hr : row ∈ pages.flatten) :
    timesShown (resultsOf v2 maxKeys pages) row = 1 := by
  unfold timesShown
  split
  next entry h =>
    rw [resultsOf_contents]
    exact count_eq_one_of_mem (objectsOf_nodup hs) (mem_filterMap.mpr ⟨row, hr, h⟩)
  next h =>
    rw [resultsOf_commonPrefixes]
    refine count_eq_one_of_mem (prefixesOf_nodup hs) (mem_map.mpr ⟨row, ?_, rfl⟩)
    exact mem_filter.mpr ⟨hr, by rw [h]; rfl⟩

theorem walkListing_ends {results : List ListBucketResult} (h : walkListing v2 maxKeys rs query = some results) :
    ∃ front last, results = front ++ [last] ∧ last.isTruncated = false
      ∧ ∀ result ∈ front, result.isTruncated = true := by
  induction rs generalizing query results with
  | nil => simp [walkListing] at h
  | cons rows later ih =>
    unfold walkListing at h
    split at h
    · simp at h
    · split at h
      · simp at h
      next result _ =>
        split at h
        next htrunc =>
          obtain ⟨rest, hrest, rfl⟩ := map_eq_some_iff.mp h
          obtain ⟨front, last, rfl, hlast, hfront⟩ := ih hrest
          refine ⟨result :: front, last, rfl, hlast, ?_⟩
          intro r hr
          rcases mem_cons.mp hr with rfl | hr
          · exact htrunc
          · exact hfront r hr
        next htrunc =>
          refine ⟨[], result, (some.inj h).symm, ?_, by simp⟩
          exact Bool.not_eq_true _ ▸ htrunc

/-- What a walk over rows that stay the same gives: the rows cut into pages, a page full at most in each
answer, and as many answers as the rows fill pages, of which the last one only is not truncated. -/
structure CompleteWalk (v2 : Bool) (maxKeys : Nat) (rows : List ListingRow)
    (results : List ListBucketResult) : Prop where
  /-- The answers show consecutive runs of the rows, objects and common prefixes alike. -/
  inOrder : ∃ pages, pages.flatten = rows ∧ results = resultsOf v2 maxKeys pages
  /-- No page is longer than the client asked for. -/
  fits : ∀ result ∈ results, result.contents.length + result.commonPrefixes.length ≤ maxKeys
  /-- As many pages as the rows fill, and at least one. -/
  pages : results.length = max 1 ((rows.length + maxKeys - 1) / maxKeys)
  /-- The walk ends there. -/
  ends : ∃ front last, results = front ++ [last] ∧ last.isTruncated = false
    ∧ ∀ result ∈ front, result.isTruncated = true

/-- **Walking an encrypted listing is complete**, with either version and any page size. Over rows that
stay, a client that goes on to the end gets all of them; over rows that come and go between its requests,
it gets each row that is there throughout exactly once. -/
theorem walkListing_complete {v2 : Bool} {maxKeys : Nat} (hn : 0 < maxKeys) :
    (∀ rows, Listed rows → ∀ m, max 1 ((rows.length + maxKeys - 1) / maxKeys) ≤ m →
        ∃ results, walkListing v2 maxKeys (List.replicate m rows) {} = some results
          ∧ CompleteWalk v2 maxKeys rows results)
      ∧ ∀ rs results, (∀ rows ∈ rs, Listed rows) → walkListing v2 maxKeys rs {} = some results →
          ∀ row, (∀ rows ∈ rs, row ∈ rows) → timesShown results row = 1 := by
  have hstart : listingCursor {} v2 = .ok [] := by cases v2 <;> rfl
  constructor
  · intro rows hrows m hm
    have hbeyond : Paging.beyond ListingRow.key (cursorOf []) rows = rows := Paging.beyond_none rows
    have hcount : Paging.pageCount maxKeys (Paging.beyond ListingRow.key (cursorOf []) rows).length ≤ m := by
      rw [hbeyond]
      exact hm
    obtain ⟨pages, hwalk, hflat, hlen⟩ := Paging.walk_replicate hn hrows.sorted hcount
    rw [hbeyond] at hflat hlen
    have hlisted : ∀ t ∈ List.replicate m rows, Listed t := fun t ht => eq_of_mem_replicate ht ▸ hrows
    have heq := walkListing_eq hn hlisted hstart
    rw [hwalk] at heq
    refine ⟨_, heq, ⟨pages, hflat, rfl⟩, ?_, ?_, walkListing_ends heq⟩
    · intro result hresult
      obtain ⟨page, hpage, truncated, rfl⟩ := mem_resultsOf hresult
      have hadd := objectsOf_length_add page
      have hle := Paging.walk_length_le hwalk page hpage
      exact Nat.le_trans (Nat.le_of_eq hadd) hle
    · rw [resultsOf_length, hlen]
      rfl
  · intro rs results hrs h row hrow
    rw [walkListing_eq hn hrs hstart] at h
    obtain ⟨pages, hwalk, rfl⟩ := map_eq_some_iff.mp h
    have hsorted := fun rows hrows => (hrs rows hrows).sorted
    exact timesShown_resultsOf (Paging.walk_sorted hsorted hwalk).1
      (Paging.walk_complete hsorted hwalk hrow rfl)

/-- An object and a common prefix, as rows. -/
def plainRow : ListingRow :=
  ⟨key, some ⟨key, [], [], 0, []⟩, by simp⟩

def prefixRow : ListingRow := ⟨key, none, ListingRow.named_none key⟩

theorem walkListing_complete_two :
    ∃ results, walkListing true 1 (List.replicate 2 [plainRow [0x61], prefixRow [0x62, 0x2F]]) {} = some results
      ∧ CompleteWalk true 1 [plainRow [0x61], prefixRow [0x62, 0x2F]] results := by
  have hlisted : Listed [plainRow [0x61], prefixRow [0x62, 0x2F]] := by
    constructor
    · simp [Paging.Sorted, plainRow, prefixRow]
      decide
    · simp [plainRow, prefixRow]
  exact (walkListing_complete (by decide)).1 _ hlisted 2 (by decide)

end BlindBucket.Proxy
