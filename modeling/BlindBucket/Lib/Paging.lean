import Mathlib.Data.List.Nodup
import Mathlib.Data.List.Perm.Subperm

/-!
# Walking a sorted list page by page

Rows have a key in a linear order. A page is the next `n` rows beyond a cursor, and the cursor of the
next page is the key of the last row of this one, so a walk keeps nothing but a key. The rows may be
others at each page: what is there throughout the walk is still met, and met once.

Where some rows are hidden from the one who walks and the cursor has to be a row that was shown, a page of
hidden rows only is the end of the walk. It is a full walk anyway if the hidden rows do not fill a page, or
if nothing that is shown comes after them; if they lie together, it is one in no other case.
-/

namespace Paging

open List

variable {n : Nat}

section

variable {α κ : Type} [LT κ] [DecidableLT κ] (key : α → κ)

/-- In the order of the keys, and no key twice. -/
def Sorted (rows : List α) : Prop := rows.Pairwise fun a b => key a < key b

/-- Whether a key comes after a cursor; a walk starts without one. -/
def isBeyond (c : Option κ) (k : κ) : Bool :=
  match c with
  | none => true
  | some k₀ => decide (k₀ < k)

/-- The rows after a cursor. -/
def beyond (c : Option κ) (rows : List α) : List α := rows.filter fun r => isBeyond c (key r)

/-- The pages of a walk that sees `rs` one after the other; nothing if it is not over after these. -/
def walk (n : Nat) : List (List α) → Option κ → Option (List (List α))
  | [], _ => none
  | rows :: later, c =>
    if n < (beyond key c rows).length then
      match ((beyond key c rows).take n).getLast? with
      | none => none
      | some r => (walk n later (some (key r))).map fun pages => (beyond key c rows).take n :: pages
    else
      some [beyond key c rows]

/-- What a walk shows whose cursor is the last row that was shown, over rows that stay: it ends with a page
that is the last or that shows nothing. Nothing if it is not over after `m` pages. -/
def walkShown (shown : α → Bool) (n : Nat) (rows : List α) : Nat → Option κ → Option (List α)
  | 0, _ => none
  | m + 1, c =>
    if n < (beyond key c rows).length then
      match (((beyond key c rows).take n).filter shown).getLast? with
      | none => some []
      | some r =>
        (walkShown shown n rows m (some (key r))).map fun rest =>
          ((beyond key c rows).take n).filter shown ++ rest
    else
      some ((beyond key c rows).filter shown)

/-- The pages that `len` rows take. -/
def pageCount (n len : Nat) : Nat := max 1 ((len + n - 1) / n)

variable {key} {c : Option κ} {rows : List α}

theorem isBeyond_some {c k : κ} : isBeyond (some c) k = true ↔ c < k := decide_eq_true_iff

theorem mem_beyond {r : α} :
    r ∈ beyond key c rows ↔ r ∈ rows ∧ isBeyond c (key r) = true := mem_filter

theorem Sorted.beyond (h : Sorted key rows) :
    Sorted key (Paging.beyond key c rows) := h.filter _

theorem beyond_none (rows : List α) : beyond key none rows = rows :=
  filter_eq_self.mpr fun _ _ => rfl

/-- What a walk that is over did: its one page is all that is left, or a full page came before the rest. -/
theorem walk_cases {later pages : List (List α)}
    (h : walk key n (rows :: later) c = some pages) :
    ((beyond key c rows).length ≤ n ∧ pages = [beyond key c rows])
      ∨ ∃ r rest, n < (beyond key c rows).length ∧ ((beyond key c rows).take n).getLast? = some r
          ∧ walk key n later (some (key r)) = some rest ∧ pages = (beyond key c rows).take n :: rest := by
  unfold walk at h
  split at h
  next hlt =>
    split at h
    · simp at h
    next r hr =>
      obtain ⟨rest, hrest, rfl⟩ := Option.map_eq_some_iff.mp h
      exact .inr ⟨r, rest, hlt, hr, hrest, rfl⟩
  next hle =>
    exact .inl ⟨Nat.le_of_not_lt hle, (Option.some.inj h).symm⟩

theorem walk_length_le {rs pages : List (List α)}
    (h : walk key n rs c = some pages) : ∀ page ∈ pages, page.length ≤ n := by
  induction rs generalizing c pages with
  | nil => simp [walk] at h
  | cons rows later ih =>
    intro page hp
    rcases walk_cases h with ⟨hle, rfl⟩ | ⟨r, rest, -, -, hrest, rfl⟩
    · rw [mem_singleton.mp hp]
      exact hle
    · rcases mem_cons.mp hp with rfl | hp
      · exact length_take_le _ _
      · exact ih hrest page hp

theorem walkShown_subset {shown : α → Bool} {rows out : List α} {m : Nat}
    (h : walkShown key shown n rows m c = some out) : out ⊆ rows := by
  have hbeyond : ∀ c, beyond key c rows ⊆ rows := fun c a ha => (mem_beyond.mp ha).1
  induction m generalizing c out with
  | zero => simp [walkShown] at h
  | succ m ih =>
    intro a ha
    unfold walkShown at h
    split at h
    · split at h
      · rw [← Option.some.inj h] at ha
        simp at ha
      · obtain ⟨rest, hrest, rfl⟩ := Option.map_eq_some_iff.mp h
        rcases mem_append.mp ha with ha | ha
        · exact hbeyond c (mem_of_mem_take (mem_filter.mp ha).1)
        · exact ih hrest ha
    · rw [← Option.some.inj h] at ha
      exact hbeyond c (mem_filter.mp ha).1

end

/-! ## One page -/

section

variable {α κ : Type} [LE κ] [LT κ] [Std.IsLinearOrder κ] [Std.LawfulOrderLT κ] {key : α → κ}
  {c : Option κ} {rows : List α} {r : α}

omit [Std.IsLinearOrder κ] in
theorem Sorted.nodup (h : Sorted key rows) : rows.Nodup := by
  refine h.imp fun {a b} hab heq => ?_
  rw [heq] at hab
  exact Std.lt_irrefl hab

variable {a : α} {len : Nat}

omit [Std.IsLinearOrder κ] in
theorem Sorted.key_inj {b : α} (h : Sorted key rows) (ha : a ∈ rows) (hb : b ∈ rows)
    (hkey : key a = key b) : a = b := by
  have hnodup : (rows.map key).Nodup := by
    refine Pairwise.map key ?_ h
    intro a b hab heq
    rw [heq] at hab
    exact Std.lt_irrefl hab
  exact inj_on_of_nodup_map hnodup ha hb hkey

/-- What a page leaves out comes after its last row, and what it holds does not. -/
theorem page_split {xs : List α} (h : Sorted key xs) (hr : (xs.take n).getLast? = some r) :
    (∀ a ∈ xs.take n, ¬ key r < key a) ∧ ∀ b ∈ xs.drop n, key r < key b := by
  obtain ⟨front, hfront⟩ := getLast?_eq_some_iff.mp hr
  have hxs : Sorted key (xs.take n ++ xs.drop n) := by rw [take_append_drop]; exact h
  obtain ⟨htake, -, hcross⟩ := pairwise_append.mp hxs
  refine ⟨?_, fun b hb => hcross r (hfront ▸ by simp) b hb⟩
  intro a ha hlt
  rw [hfront] at ha htake
  obtain ⟨-, -, hlast⟩ := pairwise_append.mp htake
  rcases mem_append.mp ha with ha | ha
  · exact Std.lt_irrefl (Std.lt_trans hlt (hlast a ha r (by simp)))
  · rw [mem_singleton.mp ha] at hlt
    exact Std.lt_irrefl hlt

theorem mem_take_of_lt {xs : List α} {d : α} (hs : Sorted key xs) (ha : a ∈ xs) (hd : d ∈ xs.take n)
    (hlt : key a < key d) : a ∈ xs.take n := by
  have hsplit : Sorted key (xs.take n ++ xs.drop n) := by rw [take_append_drop]; exact hs
  rw [← take_append_drop n xs] at ha
  rcases mem_append.mp ha with ha | ha
  · exact ha
  · have hgt := (pairwise_append.mp hsplit).2.2 d hd a ha
    exact absurd (Std.lt_trans hlt hgt) Std.lt_irrefl

variable [DecidableLT κ]

theorem isBeyond_trans {k k' : κ} (h : isBeyond c k = true) (hk : k < k') : isBeyond c k' = true := by
  cases c with
  | none => rfl
  | some k₀ => exact isBeyond_some.mpr (Std.lt_trans (isBeyond_some.mp h) hk)

/-- **The next page starts where this one ends**, while the rows stay as they are. -/
theorem beyond_next (h : Sorted key rows)
    (hr : ((beyond key c rows).take n).getLast? = some r) :
    beyond key (some (key r)) rows = (beyond key c rows).drop n := by
  obtain ⟨htake, hdrop⟩ := page_split h.beyond hr
  have hmem : r ∈ beyond key c rows := mem_of_mem_take (mem_of_getLast? hr)
  -- a row after the page is also after the cursor the page started at
  have hnarrow : beyond key (some (key r)) rows = beyond key (some (key r)) (beyond key c rows) := by
    unfold beyond
    rw [filter_filter]
    refine filter_congr fun a _ => ?_
    by_cases ha : isBeyond (some (key r)) (key a) = true
    · rw [ha, isBeyond_trans (mem_beyond.mp hmem).2 (isBeyond_some.mp ha)]
      rfl
    · rw [Bool.not_eq_true] at ha
      rw [ha]
      rfl
  rw [hnarrow]
  conv_lhs => rw [← take_append_drop n (beyond key c rows)]
  unfold beyond at htake hdrop ⊢
  rw [filter_append, filter_eq_nil_iff.mpr, nil_append, filter_eq_self.mpr]
  · intro b hb
    exact isBeyond_some.mpr (hdrop b hb)
  · intro a ha hlt
    exact htake a ha (isBeyond_some.mp hlt)

theorem getLast?_page {xs : List α} (hn : 0 < n) (h : n < xs.length) : ∃ r, (xs.take n).getLast? = some r := by
  cases hl : (xs.take n).getLast? with
  | some r => exact ⟨r, rfl⟩
  | none =>
    have hlen := congrArg List.length (getLast?_eq_none_iff.mp hl)
    rw [length_take, length_nil] at hlen
    omega

/-! ## A whole walk -/


/-- **A walk goes forward**: its rows are in order across the pages and after the cursor, whatever the
rows are at each page. -/
theorem walk_sorted {rs pages : List (List α)}
    (hs : ∀ rows ∈ rs, Sorted key rows) (h : walk key n rs c = some pages) :
    Sorted key pages.flatten ∧ ∀ r ∈ pages.flatten, isBeyond c (key r) = true := by
  induction rs generalizing c pages with
  | nil => simp [walk] at h
  | cons rows later ih =>
    have hrows : Sorted key (beyond key c rows) := (hs rows mem_cons_self).beyond
    rcases walk_cases h with ⟨-, rfl⟩ | ⟨r, rest, -, hr, hrest, rfl⟩
    · rw [flatten_singleton]
      exact ⟨hrows, fun a ha => (mem_beyond.mp ha).2⟩
    · obtain ⟨hsorted, hbeyond⟩ := ih (fun t ht => hs t (mem_cons_of_mem _ ht)) hrest
      have hpage : ∀ a ∈ (beyond key c rows).take n, isBeyond c (key a) = true := fun a ha =>
        (mem_beyond.mp (mem_of_mem_take ha)).2
      have hlast : isBeyond c (key r) = true := hpage r (mem_of_getLast? hr)
      obtain ⟨hle, -⟩ := page_split hrows hr
      constructor
      · refine pairwise_append.mpr ⟨hrows.sublist (take_sublist _ _), hsorted, ?_⟩
        intro a ha b hb
        -- a row of this page is not after its last row, one of a later page is
        exact Std.lt_of_le_of_lt (Std.not_lt.mp (hle a ha)) (isBeyond_some.mp (hbeyond b hb))
      · intro a ha
        rcases mem_append.mp ha with ha | ha
        · exact hpage a ha
        · exact isBeyond_trans hlast (isBeyond_some.mp (hbeyond a ha))

/-- **A walk misses nothing that is there throughout.** -/
theorem walk_complete {rs pages : List (List α)}
    (hs : ∀ rows ∈ rs, Sorted key rows) (h : walk key n rs c = some pages)
    (hr : ∀ rows ∈ rs, r ∈ rows) (hc : isBeyond c (key r) = true) : r ∈ pages.flatten := by
  induction rs generalizing c pages with
  | nil => simp [walk] at h
  | cons rows later ih =>
    have hmem : r ∈ beyond key c rows := mem_beyond.mpr ⟨hr rows mem_cons_self, hc⟩
    rcases walk_cases h with ⟨-, rfl⟩ | ⟨last, rest, -, hlast, hrest, rfl⟩
    · rw [flatten_singleton]
      exact hmem
    · rw [← take_append_drop n (beyond key c rows)] at hmem
      rcases mem_append.mp hmem with hmem | hmem
      · exact mem_append_left _ hmem
      · refine mem_append_right _ (ih (fun t ht => hs t (mem_cons_of_mem _ ht)) hrest
          (fun t ht => hr t (mem_cons_of_mem _ ht)) ?_)
        obtain ⟨-, hafter⟩ := page_split (hs rows mem_cons_self).beyond hlast
        exact isBeyond_some.mpr (hafter r hmem)

/-! ## Rows that stay -/

theorem pageCount_of_le (hn : 0 < n) (h : len ≤ n) : pageCount n len = 1 := by
  have hlt : (len + n - 1) / n < 2 := (Nat.div_lt_iff_lt_mul hn).mpr (by omega)
  unfold pageCount
  omega

theorem pageCount_le (hn : 0 < n) (len : Nat) : pageCount n len ≤ len + 1 := by
  have hle : (len + n - 1) / n ≤ len := by
    rcases Nat.eq_zero_or_pos len with h0 | hpos
    · exact Nat.le_of_eq (by rw [h0, Nat.zero_add, Nat.div_eq_of_lt (by omega)])
    · refine Nat.div_le_of_le_mul ?_
      have hmul : len - 1 ≤ n * (len - 1) := Nat.le_mul_of_pos_left _ hn
      have hsplit : n * len = n * (len - 1) + n := by
        rw [← Nat.mul_succ, Nat.succ_eq_add_one, Nat.sub_add_cancel hpos]
      omega
  unfold pageCount
  omega

theorem pageCount_of_lt (hn : 0 < n) (h : n < len) : pageCount n len = pageCount n (len - n) + 1 := by
  have hsplit : len + n - 1 = (len - n + n - 1) + n := by omega
  have hpos : 1 ≤ (len - n + n - 1) / n := (Nat.le_div_iff_mul_le hn).mpr (by omega)
  unfold pageCount
  rw [hsplit, Nat.add_div_right _ hn]
  omega

/-- **A walk over rows that stay ends after as many pages as the rows fill, and returns them all.** -/
theorem walk_replicate (hn : 0 < n) (hs : Sorted key rows) {m : Nat}
    (hm : pageCount n (beyond key c rows).length ≤ m) :
    ∃ pages, walk key n (List.replicate m rows) c = some pages ∧ pages.flatten = beyond key c rows
      ∧ pages.length = pageCount n (beyond key c rows).length := by
  induction m generalizing c with
  | zero =>
    have hone : 1 ≤ pageCount n (beyond key c rows).length := Nat.le_max_left _ _
    omega
  | succ m ih =>
    rw [replicate_succ]
    by_cases hlt : n < (beyond key c rows).length
    · obtain ⟨r, hr⟩ := getLast?_page hn hlt
      have hnext := beyond_next hs hr
      have hcount := pageCount_of_lt hn hlt
      have hlen : (beyond key (some (key r)) rows).length = (beyond key c rows).length - n := by
        rw [hnext, length_drop]
      obtain ⟨rest, hwalk, hflat, hpages⟩ := ih (by rw [hlen]; omega)
      refine ⟨(beyond key c rows).take n :: rest, ?_, ?_, ?_⟩
      · rw [walk, if_pos hlt, hr]
        simp only
        rw [hwalk]
        rfl
      · rw [flatten_cons, hflat, hnext, take_append_drop]
      · rw [length_cons, hpages, hlen, hcount]
    · refine ⟨[beyond key c rows], by rw [walk, if_neg hlt], flatten_singleton, ?_⟩
      rw [pageCount_of_le hn (Nat.le_of_not_lt hlt)]
      rfl

/-! ## Hidden rows -/

theorem beyond_subset {k : κ} (h : isBeyond c k = true) :
    beyond key (some k) rows ⊆ beyond key c rows := by
  intro a ha
  obtain ⟨hmem, hlt⟩ := mem_beyond.mp ha
  exact mem_beyond.mpr ⟨hmem, isBeyond_trans h (isBeyond_some.mp hlt)⟩

theorem beyond_length_lt (hs : Sorted key rows)
    (hr : r ∈ beyond key c rows) : (beyond key (some (key r)) rows).length < (beyond key c rows).length := by
  have hnodup : (r :: beyond key (some (key r)) rows).Nodup :=
    nodup_cons.mpr ⟨fun h => Std.lt_irrefl (isBeyond_some.mp (mem_beyond.mp h).2), hs.beyond.nodup⟩
  have hsub : r :: beyond key (some (key r)) rows ⊆ beyond key c rows :=
    cons_subset.mpr ⟨hr, beyond_subset (mem_beyond.mp hr).2⟩
  exact (subperm_of_subset hnodup hsub).length_le

variable {shown : α → Bool}

theorem walkShown_ends (hs : Sorted key rows) {m : Nat}
    (hm : (beyond key c rows).length < m) : ∃ out, walkShown key shown n rows m c = some out := by
  induction m generalizing c with
  | zero => omega
  | succ m ih =>
    unfold walkShown
    split
    · split
      · exact ⟨[], rfl⟩
      next r hr =>
        have hmem := mem_of_mem_take (mem_filter.mp (mem_of_getLast? hr)).1
        have hlt := beyond_length_lt hs hmem
        obtain ⟨rest, hrest⟩ := ih (c := some (key r)) (by omega)
        exact ⟨_, by rw [hrest]; rfl⟩
    · exact ⟨_, rfl⟩

/-- **A walk that sees through the hidden rows is complete**: these do not fill a page, or nothing that is
shown comes after one of them. -/
theorem walkShown_complete {rows out : List α} (hn : 0 < n) (hs : Sorted key rows)
    (hroom : (rows.filter fun a => !shown a).length < n
      ∨ ∀ a ∈ rows, shown a = true → ∀ b ∈ rows, shown b = false → key a < key b)
    {m : Nat} (h : walkShown key shown n rows m c = some out) {a : α} (ha : a ∈ rows)
    (hshown : shown a = true) (hc : isBeyond c (key a) = true) : a ∈ out := by
  induction m generalizing c out with
  | zero => simp [walkShown] at h
  | succ m ih =>
    have hmem : a ∈ beyond key c rows := mem_beyond.mpr ⟨ha, hc⟩
    unfold walkShown at h
    split at h
    next hlt =>
      split at h
      next hnone =>
        -- a full page of hidden rows: there are enough of them, so `a` would have to come before
        have hhidden : ∀ b ∈ (beyond key c rows).take n, shown b = false := by
          intro b hb
          have hnot := filter_eq_nil_iff.mp (getLast?_eq_none_iff.mp hnone) b hb
          exact Bool.not_eq_true _ ▸ hnot
        have hsub : (beyond key c rows).take n ⊆ rows.filter fun b => !shown b := by
          intro b hb
          exact mem_filter.mpr ⟨(mem_beyond.mp (mem_of_mem_take hb)).1, by rw [hhidden b hb]; rfl⟩
        have hle := (subperm_of_subset (hs.beyond.nodup.sublist (take_sublist n _)) hsub).length_le
        rw [length_take] at hle
        rcases hroom with hroom | hroom
        · omega
        · obtain ⟨b, hb⟩ : ∃ b, b ∈ (beyond key c rows).take n :=
            exists_mem_of_length_pos (by rw [length_take]; omega)
          have hba := hroom a ha hshown b (mem_beyond.mp (mem_of_mem_take hb)).1 (hhidden b hb)
          have hin := mem_take_of_lt hs.beyond hmem hb hba
          rw [hhidden a hin] at hshown
          simp at hshown
      next r hr =>
        obtain ⟨rest, hrest, rfl⟩ := Option.map_eq_some_iff.mp h
        by_cases hin : a ∈ (beyond key c rows).take n
        · exact mem_append_left _ (mem_filter.mpr ⟨hin, hshown⟩)
        · refine mem_append_right _ (ih hrest ?_)
          have hpage := (mem_filter.mp (mem_of_getLast? hr)).1
          rw [← take_append_drop n (beyond key c rows)] at hmem
          have hdrop := (mem_append.mp hmem).resolve_left hin
          have hsplit : Sorted key ((beyond key c rows).take n ++ (beyond key c rows).drop n) := by
            rw [take_append_drop]
            exact hs.beyond
          exact isBeyond_some.mpr ((pairwise_append.mp hsplit).2.2 r hpage a hdrop)
    · rw [← Option.some.inj h]
      exact mem_filter.mpr ⟨hmem, hshown⟩

/-- **Hidden rows that fill a page cut a walk off** from what comes after them, if they lie together. -/
theorem walkShown_misses {rows out : List α} (hs : Sorted key rows)
    (htogether : ∀ a ∈ rows, ∀ b ∈ rows, ∀ d ∈ rows, key a < key b → key b < key d → shown a = false →
      shown d = false → shown b = false)
    (hfull : n ≤ (rows.filter fun a => !shown a).length) {a b : α} (ha : a ∈ rows) (hshown : shown a = true)
    (hb : b ∈ rows) (hhidden : shown b = false) (hba : key b < key a) {m : Nat}
    (hc : ∀ d ∈ rows, shown d = false → isBeyond c (key d) = true)
    (h : walkShown key shown n rows m c = some out) : a ∉ out := by
  -- two rows of which one is shown have different keys
  have hless : ∀ x ∈ rows, ∀ y ∈ rows, shown x = true → shown y = false → ¬ key y < key x → key x < key y := by
    intro x hx y hy hxs hys hnot
    by_contra hnot'
    have hkey : key x = key y := Std.le_antisymm (Std.not_lt.mp hnot) (Std.not_lt.mp hnot')
    rw [hs.key_inj hx hy hkey, hys] at hxs
    simp at hxs
  have hafter : ∀ d ∈ rows, shown d = false → key d < key a := by
    intro d hd hds
    by_contra hnot
    have had := hless a ha d hd hshown hds hnot
    rw [htogether b hb a ha d hd hba had hhidden hds] at hshown
    simp at hshown
  induction m generalizing c out with
  | zero => simp [walkShown] at h
  | succ m ih =>
    -- a shown row behind all hidden ones has a full page in front of it
    have hlate : ∀ x ∈ rows, shown x = true → (∀ d ∈ rows, shown d = false → key d < key x) →
        x ∉ (beyond key c rows).take n := by
      intro x hx hxs hall hin
      have hsub : (x :: rows.filter fun d => !shown d) ⊆ (beyond key c rows).take n := by
        refine cons_subset.mpr ⟨hin, fun d hd => ?_⟩
        obtain ⟨hdmem, hdh⟩ := mem_filter.mp hd
        have hds : shown d = false := by simpa using hdh
        exact mem_take_of_lt hs.beyond (mem_beyond.mpr ⟨hdmem, hc d hdmem hds⟩) hin (hall d hdmem hds)
      have hnodup : (x :: rows.filter fun d => !shown d).Nodup :=
        nodup_cons.mpr ⟨fun hmem => by simp [hxs] at hmem, hs.nodup.filter _⟩
      have hle := (subperm_of_subset hnodup hsub).length_le
      rw [length_cons, length_take] at hle
      omega
    unfold walkShown at h
    split at h
    · split at h
      · rw [← Option.some.inj h]
        simp
      next r hr =>
        obtain ⟨rest, hrest, rfl⟩ := Option.map_eq_some_iff.mp h
        obtain ⟨hpage, hrs⟩ := mem_filter.mp (mem_of_getLast? hr)
        have hrmem := (mem_beyond.mp (mem_of_mem_take hpage)).1
        have hcursor : ∀ d ∈ rows, shown d = false → isBeyond (some (key r)) (key d) = true := by
          intro d hd hds
          refine isBeyond_some.mpr (hless r hrmem d hd hrs hds fun hdr => ?_)
          -- then the last row shown would lie behind one hidden row, and so behind all of them
          refine hlate r hrmem hrs (fun d' hd' hds' => ?_) hpage
          by_contra hnot
          have hrd' := hless r hrmem d' hd' hrs hds' hnot
          rw [htogether d hd r hrmem d' hd' hdr hrd' hds hds'] at hrs
          simp at hrs
        intro hmem
        rcases mem_append.mp hmem with hmem | hmem
        · exact hlate a ha hshown hafter (mem_filter.mp hmem).1
        · exact ih hcursor hrest hmem
    next hle =>
      rw [← Option.some.inj h]
      intro hmem
      have hin := hlate a ha hshown hafter
      rw [take_of_length_le (Nat.le_of_not_lt hle)] at hin
      exact hin (mem_filter.mp hmem).1

end

end Paging
