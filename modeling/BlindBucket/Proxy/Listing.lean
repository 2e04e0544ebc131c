import BlindBucket.Proxy.ListBuffer
import Mathlib.Data.List.Dedup
import Mathlib.Data.List.Sort

/-!
# What a provider lists

A provider lists the keys that begin with the prefix it is given, in bytewise order. With a delimiter, all
keys that have it after the prefix are folded into one row for the part up to there, their common prefix.
Objects and common prefixes are rows of one sorted list, which is handed out page by page.
-/

namespace BlindBucket.Proxy

open ByteIo GoText List

/-- The objects of a bucket, as a provider holds them. -/
structure Stored where
  objects : List ObjectEntry
  /-- No key has two objects. -/
  distinct : (objects.map ObjectEntry.key).Nodup
  /-- A key is not empty. -/
  named : ∀ o ∈ objects, o.key ≠ []

/-- The common prefix that a key is folded into. -/
def commonPrefix (pre delim key : Bytes) : Option Bytes :=
  if delim = [] then none
  else (index delim (key.drop pre.length)).map fun i => key.take (pre.length + (i + delim.length))

def rowOf (pre delim : Bytes) (o : ObjectEntry) : ListingRow :=
  match commonPrefix pre delim o.key with
  | none => ⟨o.key, some o, by simp⟩
  | some cp => ⟨cp, none, ListingRow.named_none cp⟩

namespace Stored

variable (B : Stored)

def matching (pre : Bytes) : List ObjectEntry := B.objects.filter fun o => pre.isPrefixOf o.key

def rows (pre delim : Bytes) : List ListingRow :=
  (((B.matching pre).map (rowOf pre delim)).dedup).insertionSort fun a b => a.key ≤ b.key

end Stored

/-! ## Common prefixes -/

theorem commonPrefix_nil (pre key : Bytes) : commonPrefix pre [] key = none := if_pos rfl

variable {key cp : Bytes} {o : ObjectEntry}

theorem commonPrefix_ends {pre delim : Bytes} (h : commonPrefix pre delim key = some cp) :
    ∃ t, cp = t ++ delim ∧ delim ≠ [] := by
  obtain ⟨hdelim, h⟩ := Option.ite_none_left_eq_some.mp h
  obtain ⟨i, hi, rfl⟩ := Option.map_eq_some_iff.mp h
  rw [take_add, take_index hi, ← append_assoc]
  exact ⟨_, rfl, hdelim⟩

theorem commonPrefix_begins {pre delim : Bytes} (h : commonPrefix pre delim key = some cp) :
    cp <+: key ∧ cp ≠ [] := by
  obtain ⟨t, rfl, hdelim⟩ := commonPrefix_ends h
  refine ⟨?_, by simp [hdelim]⟩
  unfold commonPrefix at h
  rw [if_neg hdelim] at h
  obtain ⟨i, -, htake⟩ := Option.map_eq_some_iff.mp h
  rw [← htake]
  exact take_prefix _ _

theorem commonPrefix_unique {pre delim key' : Bytes} (hpre : pre <+: key) (hpre' : pre <+: key')
    (h : commonPrefix pre delim key = some cp) (hcp : cp <+: key') :
    commonPrefix pre delim key' = some cp := by
  unfold commonPrefix at h ⊢
  obtain ⟨hdelim, h⟩ := Option.ite_none_left_eq_some.mp h
  rw [if_neg hdelim]
  obtain ⟨i, hi, rfl⟩ := Option.map_eq_some_iff.mp h
  obtain ⟨s, rfl⟩ := hpre
  obtain ⟨s', rfl⟩ := hpre'
  rw [drop_left] at hi ⊢
  -- behind the prefix the two keys agree up to the end of the first delimiter
  rw [take_length_add_append] at hcp ⊢
  obtain ⟨t, ht⟩ := hcp
  rw [append_assoc, append_cancel_left_eq] at ht
  have hlen : (s.take (i + delim.length)).length = i + delim.length := by
    have hpos : 0 < delim.length := length_pos_iff.mpr hdelim
    have htake := congrArg List.length (take_index hi)
    rw [length_append, length_take, length_take] at htake
    rw [length_take]
    omega
  rw [← ht, index_take_append hi t, Option.map_some, take_length_add_append, take_left' hlen]

/-! ## Rows -/

variable {pre delim : Bytes}

theorem rowOf_of_none (h : commonPrefix pre delim o.key = none) : rowOf pre delim o = ⟨o.key, some o, by simp⟩ := by
  unfold rowOf
  split
  · rfl
  next heq =>
    rw [h] at heq
    simp at heq

theorem rowOf_of_some (h : commonPrefix pre delim o.key = some cp) : rowOf pre delim o = ⟨cp, none, by simp⟩ := by
  unfold rowOf
  split
  next heq =>
    rw [h] at heq
    simp at heq
  next heq =>
    rw [h] at heq
    simp [Option.some.inj heq]

namespace Stored

variable (B : Stored)

theorem mem_matching : o ∈ B.matching pre ↔ o ∈ B.objects ∧ pre <+: o.key := by
  unfold matching
  rw [mem_filter, isPrefixOf_iff_prefix]

theorem mem_rows {row : ListingRow} : row ∈ B.rows pre delim ↔ ∃ o ∈ B.matching pre, rowOf pre delim o = row := by
  unfold rows
  rw [mem_insertionSort, mem_dedup, mem_map]

theorem rowOf_mem_rows (h : o ∈ B.matching pre) : rowOf pre delim o ∈ B.rows pre delim := B.mem_rows.mpr ⟨o, h, rfl⟩

theorem rows_named : ∀ row ∈ B.rows pre delim, row.key ≠ [] := by
  intro row hrow
  obtain ⟨o, ho, rfl⟩ := B.mem_rows.mp hrow
  cases hcp : commonPrefix pre delim o.key with
  | none =>
    rw [rowOf_of_none hcp]
    exact B.named o (B.mem_matching.mp ho).1
  | some cp =>
    rw [rowOf_of_some hcp]
    exact (commonPrefix_begins hcp).2

/-- Rows are told apart by their keys: a key that is listed is not folded, and a common prefix is one that
every key beginning with it is folded into. -/
theorem rows_key_inj {a b : ListingRow} (ha : a ∈ B.rows pre delim)
    (hb : b ∈ B.rows pre delim) (h : a.key = b.key) : a = b := by
  obtain ⟨o, ho, rfl⟩ := B.mem_rows.mp ha
  obtain ⟨o', ho', rfl⟩ := B.mem_rows.mp hb
  obtain ⟨hmem, hpre⟩ := B.mem_matching.mp ho
  obtain ⟨hmem', hpre'⟩ := B.mem_matching.mp ho'
  cases hcp : commonPrefix pre delim o.key with
  | none =>
    cases hcp' : commonPrefix pre delim o'.key with
    | none =>
      rw [rowOf_of_none hcp, rowOf_of_none hcp'] at h
      rw [inj_on_of_nodup_map B.distinct hmem hmem' h]
    | some cp' =>
      rw [rowOf_of_none hcp, rowOf_of_some hcp'] at h
      have hkey : o.key = cp' := h
      have hfold := commonPrefix_unique hpre' hpre hcp' (hkey ▸ prefix_refl o.key)
      rw [hcp] at hfold
      simp at hfold
  | some cp =>
    cases hcp' : commonPrefix pre delim o'.key with
    | none =>
      rw [rowOf_of_some hcp, rowOf_of_none hcp'] at h
      have hkey : cp = o'.key := h
      have hfold := commonPrefix_unique hpre hpre' hcp (hkey ▸ prefix_refl cp)
      rw [hcp'] at hfold
      simp at hfold
    | some cp' =>
      rw [rowOf_of_some hcp, rowOf_of_some hcp'] at h ⊢
      simpa using h

theorem rows_sorted (pre delim : Bytes) : Paging.Sorted ListingRow.key (B.rows pre delim) := by
  have hle : (B.rows pre delim).Pairwise fun a b => a.key ≤ b.key := pairwise_insertionSort _ _
  have hnodup : (B.rows pre delim).Nodup :=
    (perm_insertionSort _ _).nodup_iff.mpr (nodup_dedup _)
  refine (hle.and hnodup).imp_of_mem fun {a b} ha hb h => ?_
  by_contra hlt
  exact h.2 (B.rows_key_inj ha hb (Std.le_antisymm h.1 (Std.not_lt.mp hlt)))

theorem rows_perm (pre : Bytes) : (B.rows pre []).Perm ((B.matching pre).map (rowOf pre [])) := by
  have hnodup : ((B.matching pre).map (rowOf pre [])).Nodup := by
    have hkeys : ((B.matching pre).map ObjectEntry.key).Nodup :=
      B.distinct.sublist (filter_sublist.map _)
    refine Nodup.of_map ListingRow.key ?_
    rw [map_map]
    exact hkeys
  unfold rows
  rw [hnodup.dedup]
  exact perm_insertionSort _ _

end Stored

end BlindBucket.Proxy
