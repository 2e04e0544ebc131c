import BlindBucket.Proxy.ListBuffer

/-!
# One page of an encrypted listing

`servePage` takes the rows of a page out of a slice and the resume point from the last of them. The page size is
whatever `listingMaxKeys` lets through, and it lets 0 through: then there is no last row to read.

What makes the resume point work is stated over the rows themselves. It is the key of the row the page ends with,
and the next request goes on after the first row of that key.
-/

namespace BlindBucket.Proxy

open ByteIo GoText List Option

/-- `listingMaxKeys`, of what the query says for `max-keys`. -/
def listingMaxKeys (raw : Bytes) : Except ApiError Nat :=
  if raw = [] then .ok 1000
  else
    match parseInt raw with
    | none => .error (.invalidArgument ⟨"max-keys is not a number", []⟩)
    | some n =>
      if n < 0 then .error (.invalidArgument ⟨"max-keys is not a number", []⟩)
      else .ok (min n.toNat 1000)

theorem listingMaxKeys_le {raw : Bytes} {n : Nat} (h : listingMaxKeys raw = .ok n) : n ≤ 1000 := by
  unfold listingMaxKeys at h
  split at h
  · exact Nat.le_of_eq (Except.ok.inj h).symm
  · split at h
    · simp at h
    · obtain ⟨_, h⟩ := else_ok h
      rw [← Except.ok.inj h]
      exact Nat.min_le_right _ _

/-- How many rows a cursor leaves behind: those before it, and one of its own key. -/
def passed (rows : List ListingRow) (after : Bytes) : Nat :=
  if after = [] then 0
  else rows.countP (fun r => r.key < after) + if ∃ r ∈ rows, r.key = after then 1 else 0

theorem pageStart_le (rows : List ListingRow) (after : Bytes) : pageStart rows after ≤ rows.length := by
  unfold pageStart
  split
  · exact Nat.zero_le _
  · have hle := searchRows_le rows after rows.length (Nat.zero_le rows.length)
    dsimp only
    split
    next hkey =>
      obtain ⟨r, hr, _⟩ := map_eq_some_iff.mp hkey
      exact (List.getElem?_eq_some_iff.mp hr).1
    · exact hle

variable {rows : List ListingRow}

variable {m maxKeys : Nat} {r : ListingRow}

/-- Where everything before a place is smaller and nothing behind it is, the place is the number of smaller rows. -/
theorem countP_of_splits {k : Bytes} (hm : m ≤ rows.length) (hlow : ∀ r ∈ rows.take m, r.key < k)
    (hhigh : ∀ r ∈ rows.drop m, ¬ r.key < k) :
    rows.countP (fun r => r.key < k) = m := by
  have hfront : (rows.take m).countP (fun r => r.key < k) = (rows.take m).length :=
    countP_eq_length.mpr fun r hr => decide_eq_true (hlow r hr)
  have hback : (rows.drop m).countP (fun r => r.key < k) = 0 :=
    countP_eq_zero.mpr fun r hr h => hhigh r hr (of_decide_eq_true h)
  rw [← take_append_drop m rows, countP_append, hfront, length_take]
  omega

/-- **The search finds the place that the cursor means**, whether its row is still there or not. -/
theorem pageStart_eq_passed (h : InOrder rows) (after : Bytes) : pageStart rows after = passed rows after := by
  unfold pageStart passed
  by_cases hnil : after = []
  · rw [if_pos hnil, if_pos hnil]
  rw [if_neg hnil, if_neg hnil]
  have hle := searchRows_le rows after rows.length (Nat.zero_le rows.length)
  obtain ⟨hlow, hhigh⟩ : (∀ r ∈ rows.take (searchRows rows after rows.length 0 rows.length), r.key < after)
      ∧ ∀ r ∈ rows.drop (searchRows rows after rows.length 0 rows.length), ¬ r.key < after :=
    searchRows_splits h (Nat.le_of_eq (Nat.sub_zero _)) (Nat.zero_le _) le_rfl (by simp) (by simp)
  generalize searchRows rows after rows.length 0 rows.length = start at hle hlow hhigh ⊢
  rw [countP_of_splits hle hlow hhigh]
  by_cases hkey : (rows[start]?).map ListingRow.key = some after
  · obtain ⟨r, hr, hrkey⟩ := map_eq_some_iff.mp hkey
    rw [if_pos hkey, if_pos ⟨r, mem_of_getElem? hr, hrkey⟩]
  · rw [if_neg hkey, if_neg]
    · rfl
    intro ⟨r, hr, hrkey⟩
    -- a row of that key is not in front, and the first row behind is not greater, so it has that key as well
    rw [← take_append_drop start rows] at hr
    rcases mem_append.mp hr with hr | hr
    · exact Std.lt_irrefl (hrkey ▸ hlow r hr)
    · have hlen : start < rows.length := by
        by_contra hge
        rw [drop_eq_nil_of_le (Nat.le_of_not_lt hge)] at hr
        simp at hr
      have hdrop := drop_eq_getElem_cons hlen
      have hfirst : ¬ rows[start].key < after := hhigh _ (hdrop ▸ mem_cons_self ..)
      refine hkey ?_
      rw [getElem?_eq_getElem hlen, map_some, some_inj]
      rw [hdrop] at hr
      rcases mem_cons.mp hr with rfl | hr
      · exact hrkey
      · have hafter : ¬ after < rows[start].key := by
          have hrest : InOrder (rows.drop start) := h.sublist (drop_sublist _ _)
          rw [hdrop] at hrest
          exact hrkey ▸ (pairwise_cons.mp hrest).1 r hr
        rcases Std.lt_trichotomy after rows[start].key with hlt | heq | hlt
        · exact absurd hlt hafter
        · exact heq.symm
        · exact absurd hlt hfirst

/-- A row's key, as a cursor, leaves the rows up to it behind if it is the first of its key. -/
theorem passed_row (h : InOrder rows) (hr : rows[m]? = some r) (hne : r.key ≠ []) :
    passed rows r.key = m + 1 ↔ ∀ a ∈ rows.take m, a.key ≠ r.key := by
  obtain ⟨hm, hget⟩ := List.getElem?_eq_some_iff.mp hr
  have hsplit : InOrder (rows.take m ++ r :: rows.drop (m + 1)) := by
    rw [← hget, ← drop_eq_getElem_cons hm, take_append_drop]
    exact h
  obtain ⟨-, hback, hcross⟩ := pairwise_append.mp hsplit
  have hfront : ∀ a ∈ rows.take m, ¬ r.key < a.key := fun a ha => hcross a ha r mem_cons_self
  have hhigh : ∀ a ∈ rows.drop m, ¬ a.key < r.key := by
    intro a ha
    rw [drop_eq_getElem_cons hm, hget] at ha
    rcases mem_cons.mp ha with rfl | ha
    · exact Std.lt_irrefl
    · exact (pairwise_cons.mp hback).1 a ha
  unfold passed
  rw [if_neg hne, if_pos ⟨r, mem_of_getElem? hr, rfl⟩]
  constructor
  · intro hcount a ha heq
    have hall : (rows.take m).countP (fun a => a.key < r.key) = (rows.take m).length := by
      have hzero : (rows.drop m).countP (fun a => a.key < r.key) = 0 :=
        countP_eq_zero.mpr fun b hb hlt => hhigh b hb (of_decide_eq_true hlt)
      rw [← take_append_drop m rows, countP_append] at hcount
      rw [length_take]
      omega
    have hlt := of_decide_eq_true (countP_eq_length.mp hall a ha)
    rw [heq] at hlt
    exact Std.lt_irrefl hlt
  · intro hfirst
    rw [countP_of_splits (hm.le) ?_ hhigh]
    intro a ha
    rcases Std.lt_trichotomy a.key r.key with hlt | heq | hlt
    · exact hlt
    · exact absurd heq (hfirst a ha)
    · exact absurd hlt (hfront a ha)

/-- The resume point of an answer, in the field of its version. -/
def ListBucketResult.resumePoint (result : ListBucketResult) (v2 : Bool) : Bytes :=
  if v2 then result.nextContinuationToken else result.nextMarker

def ListBucketResult.shown (result : ListBucketResult) : Nat :=
  result.contents.length + result.commonPrefixes.length

/-- **A page that is served**: the slice is inside the rows, the page has at most the rows that were asked for, and a
truncated one says where to go on, which is after the rows it has shown. -/
structure ServedPage (rows : List ListingRow) (after : Bytes) (maxKeys : Nat) (v2 : Bool)
    (result : ListBucketResult) : Prop where
  served : servePage rows after maxKeys v2 = some result
  inside : pageStart rows after ≤ rows.length
  fits : result.shown ≤ maxKeys
  resumes : result.isTruncated = true → result.resumePoint v2 ≠ [] ∧
    ∀ query : ListQuery, ∃ k, listingCursor (query.next result v2) v2 = .ok k
      ∧ pageStart rows k = pageStart rows after + result.shown

/-- If rows are left behind the page, it has a last row, and that one has a key and is the first of its key. -/
def Resumable (rows : List ListingRow) (after : Bytes) (maxKeys : Nat) : Prop :=
  passed rows after + maxKeys < rows.length → 0 < maxKeys ∧
    ∀ r, rows[passed rows after + maxKeys - 1]? = some r →
      r.key ≠ [] ∧ ∀ a ∈ rows.take (passed rows after + maxKeys - 1), a.key ≠ r.key

theorem servePage_last {after : Bytes} (v2 : Bool) (hmore : pageStart rows after + maxKeys ≥ rows.length) :
    servePage rows after maxKeys v2
      = some (resultOf v2 false maxKeys ((rows.drop (pageStart rows after)).take maxKeys)) := by
  unfold servePage
  dsimp only
  rw [decide_eq_false (by omega)]
  simp [resultOf]

/-- A page with rows behind it ends with the row in front of them; if it has none, the read of its last row fails. -/
theorem servePage_truncated {after : Bytes} (v2 : Bool) (hmore : pageStart rows after + maxKeys < rows.length) :
    servePage rows after maxKeys v2
      = ((rows.drop (pageStart rows after)).take maxKeys).getLast?.map fun _ =>
          resultOf v2 true maxKeys ((rows.drop (pageStart rows after)).take maxKeys) := by
  unfold servePage
  dsimp only
  rw [decide_eq_true (by omega)]
  cases hl : ((rows.drop (pageStart rows after)).take maxKeys).getLast? with
  | none => rfl
  | some r => cases v2 <;> simp [resultOf, hl]

theorem resumePoint_resultOf {page : List ListingRow} (hr : page.getLast? = some r) (v2 : Bool) (maxKeys : Nat) :
    (resultOf v2 true maxKeys page).resumePoint v2 ≠ [] ↔ r.key ≠ [] := by
  cases v2 with
  | false => simp [ListBucketResult.resumePoint, resultOf, hr]
  | true =>
    simp only [ListBucketResult.resumePoint, resultOf, hr, Bool.and_self, if_true, map_some,
      getD_some]
    constructor
    · intro h hnil
      rw [hnil] at h
      exact h (by decide)
    · exact encodeCursor_ne_nil

/-- **A page is served exactly when it can be resumed.** The sizes that `listingMaxKeys` lets through are those up to
1000, and 0 is one of them. -/
theorem servePage_safe_iff {raw : Bytes} {maxKeys : Nat} (hraw : listingMaxKeys raw = .ok maxKeys)
    {rows : List ListingRow} (h : InOrder rows) (after : Bytes) (v2 : Bool) :
    maxKeys ≤ 1000 ∧ ((∃ result, ServedPage rows after maxKeys v2 result) ↔ Resumable rows after maxKeys) := by
  refine ⟨listingMaxKeys_le hraw, ?_⟩
  have hstart := pageStart_eq_passed h after
  have hshown : ∀ truncated, (resultOf v2 truncated maxKeys ((rows.drop (pageStart rows after)).take maxKeys)).shown
      = ((rows.drop (pageStart rows after)).take maxKeys).length := fun _ => objectsOf_length_add _
  unfold Resumable
  rw [← hstart]
  by_cases hmore : pageStart rows after + maxKeys < rows.length
  · have hlen : ((rows.drop (pageStart rows after)).take maxKeys).length = maxKeys := by
      rw [length_take, length_drop]
      omega
    rcases Nat.eq_zero_or_pos maxKeys with hzero | hpos
    · subst hzero
      refine ⟨?_, fun hres => absurd (hres hmore).1 (Nat.lt_irrefl 0)⟩
      intro ⟨result, hresult⟩
      have hserved := hresult.served
      rw [servePage_truncated v2 hmore] at hserved
      simp at hserved
    · -- the last row of the page is the one before the place where the next page should start
      have hlast : ((rows.drop (pageStart rows after)).take maxKeys).getLast?
          = rows[pageStart rows after + maxKeys - 1]? := by
        rw [getLast?_eq_getElem?, getElem?_take_of_lt (by omega), getElem?_drop]
        congr 1
        omega
      obtain ⟨r, hr⟩ : ∃ r, rows[pageStart rows after + maxKeys - 1]? = some r :=
        ⟨_, getElem?_eq_getElem (by omega)⟩
      rw [hr] at hlast
      have hserved := servePage_truncated v2 hmore
      rw [hlast] at hserved
      have hplace : r.key ≠ [] → (pageStart rows r.key = pageStart rows after + maxKeys
          ↔ ∀ a ∈ rows.take (pageStart rows after + maxKeys - 1), a.key ≠ r.key) := by
        intro hne
        rw [← passed_row h hr hne, ← pageStart_eq_passed h]
        omega
      constructor
      · intro ⟨result, hresult⟩ _
        refine ⟨hpos, ?_⟩
        intro r' hr'
        rw [hr] at hr'
        rw [← some.inj hr']
        have heq : result = _ := some.inj (hresult.served.symm.trans hserved)
        obtain ⟨hpoint, hgo⟩ := hresult.resumes (by rw [heq, resultOf_isTruncated])
        rw [heq] at hpoint hgo
        have hne := (resumePoint_resultOf hlast v2 maxKeys).mp hpoint
        obtain ⟨k, hk, hplaced⟩ := hgo {}
        rw [listingCursor_next hlast hne] at hk
        rw [← Except.ok.inj hk, hshown, hlen] at hplaced
        exact ⟨hne, (hplace hne).mp hplaced⟩
      · intro hres
        obtain ⟨hne, hfirst⟩ := (hres hmore).2 r hr
        refine ⟨_, hserved, pageStart_le rows after, ?_, ?_⟩
        · rw [hshown, hlen]
        · intro _
          refine ⟨(resumePoint_resultOf hlast v2 maxKeys).mpr hne, ?_⟩
          intro query
          refine ⟨r.key, listingCursor_next hlast hne query v2 maxKeys, ?_⟩
          rw [hshown, hlen]
          exact (hplace hne).mpr hfirst
  · refine ⟨fun _ hno => absurd hno hmore, fun _ => ?_⟩
    refine ⟨_, servePage_last v2 (Nat.le_of_not_lt hmore), pageStart_le rows after, ?_, ?_⟩
    · rw [hshown]
      exact length_take_le _ _
    · intro htrunc
      simp at htrunc

/-- A page of one row, with another behind it. -/
theorem servePage_safe_iff_one : listingMaxKeys (ascii "1") = .ok 1 ∧
    ∃ result, ServedPage [plainRow [0x61], plainRow [0x62]] [] 1 true result := by
  have hraw : listingMaxKeys (ascii "1") = .ok 1 := by decide
  have hrows : InOrder [plainRow [0x61], plainRow [0x62]] := by
    simp [InOrder, plainRow]
    decide
  refine ⟨hraw, (servePage_safe_iff hraw hrows [] true).2.mpr ?_⟩
  intro _
  refine ⟨by decide, ?_⟩
  intro r hr
  rw [← some.inj hr]
  exact ⟨by simp [plainRow], by simp [passed]⟩

/-- With `max-keys=0` the read of the last row of an empty page fails. -/
theorem servePage_max_keys_zero : listingMaxKeys (ascii "0") = .ok 0 ∧ InOrder [plainRow [0x61]]
    ∧ servePage [plainRow [0x61]] [] 0 true = none ∧ servePage [plainRow [0x61]] [] 0 false = none :=
  ⟨by decide, pairwise_singleton .., by decide, by decide⟩

end BlindBucket.Proxy
