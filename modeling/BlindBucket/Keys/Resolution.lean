import BlindBucket.Keys.Directory
import BlindBucket.Lib.Header

/-!
# Whose a bucket is, in whatever order and spelling

`overlap` compares two entries by their texts. What it decides is whether some bucket is matched by both, so a
directory in which no two entries overlap has at most one entry for each bucket. The answer of `Directory.Tenant` is
then that entry's owner, wherever it stands in the lists.
-/

namespace BlindBucket.Keys

open GoText List

/-! ## What overlapping means -/

/-- A name that a bucket can have, of any length from three on. -/
def BucketName (s : Bytes) : Prop := 3 ≤ s.length ∧ ∀ c ∈ s, bucketChar c = true

variable {e p : Bytes}

theorem validBucketEntry_chars (h : validBucketEntry e = true) : match cutStar e with
    | some p => ∀ c ∈ p, bucketChar c = true
    | none => BucketName e := by
  unfold validBucketEntry at h
  cases hc : cutStar e with
  | some p =>
    rw [hc] at h
    exact all_eq_true.mp (Bool.and_eq_true_iff.mp h).2
  | none =>
    rw [hc] at h
    obtain ⟨hlen, hall⟩ := Bool.and_eq_true_iff.mp h
    exact ⟨(of_decide_eq_true hlen).1, all_eq_true.mp hall⟩

/-- A prefix of names begins one that is long enough. -/
theorem bucketName_of_prefix (h : ∀ c ∈ p, bucketChar c = true) : BucketName (p ++ List.replicate 3 0x61) := by
  refine ⟨by rw [length_append, length_replicate]; omega, ?_⟩
  intro c hc
  rcases mem_append.mp hc with hc | hc
  · exact h c hc
  · rw [eq_of_mem_replicate hc]
    decide

theorem matchesEntry_of_prefix {s : Bytes} (hc : cutStar e = some p) (h : p <+: s) : matchesEntry e s = true := by
  unfold matchesEntry
  rw [hc]
  exact isPrefixOf_iff_prefix.mpr h

theorem matchesEntry_self (hc : cutStar e = none) : matchesEntry e e = true := by
  unfold matchesEntry
  rw [hc]
  exact beq_self_eq_true e

/-- **Two valid entries overlap exactly if a bucket can be matched by both.** -/
theorem overlap_iff {a b : Bytes} (ha : validBucketEntry a = true) (hb : validBucketEntry b = true) :
    overlap a b = true ↔ ∃ s, BucketName s ∧ matchesEntry a s = true ∧ matchesEntry b s = true := by
  constructor
  · intro h
    have ha' := validBucketEntry_chars ha
    have hb' := validBucketEntry_chars hb
    unfold overlap at h
    cases hca : cutStar a with
    | some pa =>
      cases hcb : cutStar b with
      | some pb =>
        rw [hca, hcb] at h
        rw [hca] at ha'
        rw [hcb] at hb'
        -- the longer of the two prefixes begins a name that both match
        rcases Bool.or_eq_true_iff.mp h with h | h
        · have hle := isPrefixOf_iff_prefix.mp h
          exact ⟨_, bucketName_of_prefix ha', matchesEntry_of_prefix hca (prefix_append _ _),
            matchesEntry_of_prefix hcb (hle.trans (prefix_append _ _))⟩
        · have hle := isPrefixOf_iff_prefix.mp h
          exact ⟨_, bucketName_of_prefix hb', matchesEntry_of_prefix hca (hle.trans (prefix_append _ _)),
            matchesEntry_of_prefix hcb (prefix_append _ _)⟩
      | none =>
        rw [hca, hcb] at h
        rw [hcb] at hb'
        have hle := isPrefixOf_iff_prefix.mp h
        exact ⟨b, hb', matchesEntry_of_prefix hca hle, matchesEntry_self hcb⟩
    | none =>
      rw [hca] at ha'
      cases hcb : cutStar b with
      | some pb =>
        rw [hca, hcb] at h
        have hle := isPrefixOf_iff_prefix.mp h
        exact ⟨a, ha', matchesEntry_self hca, matchesEntry_of_prefix hcb hle⟩
      | none =>
        rw [hca, hcb] at h
        have heq : a = b := eq_of_beq h
        exact ⟨a, ha', matchesEntry_self hca, heq ▸ matchesEntry_self hca⟩
  · intro ⟨s, _, hma, hmb⟩
    exact overlap_of_matches hma hmb

/-! ## One entry for a bucket -/

theorem matches_le_one {entries : List Bytes} (h : entries.Pairwise fun a b => overlap a b = false)
    (bucket : Bytes) : (entries.filter fun e => matchesEntry e bucket).length ≤ 1 := by
  induction entries with
  | nil => exact Nat.zero_le 1
  | cons e rest ih =>
    obtain ⟨he, hrest⟩ := pairwise_cons.mp h
    by_cases hm : matchesEntry e bucket = true
    · have hnone : (rest.filter fun e => matchesEntry e bucket) = [] := by
        refine filter_eq_nil_iff.mpr fun x hx hmx => ?_
        have hover := overlap_of_matches hm hmx
        rw [he x hx] at hover
        simp at hover
      rw [filter_cons, if_pos hm, hnone]
      exact le_rfl
    · rw [filter_cons, if_neg hm]
      exact ih hrest

/-- The same tenants and tombstones in some order, each with its entries in some order. -/
structure Reordered (d d' : Directory) : Prop where
  tenants : ∃ g : DirectoryTenant → DirectoryTenant,
    (∀ t, (g t).name = t.name ∧ (g t).buckets.Perm t.buckets) ∧ d'.tenants.Perm (d.tenants.map g)
  tombstones : ∃ g : Tombstone → Tombstone,
    (∀ t, (g t).name = t.name ∧ (g t).buckets.Perm t.buckets) ∧ d'.tombstones.Perm (d.tombstones.map g)

theorem matchesAny_perm {es es' : List Bytes} (h : es.Perm es') (bucket : Bytes) :
    matchesAny es bucket = matchesAny es' bucket := by
  rw [Bool.eq_iff_iff, matchesAny_iff, matchesAny_iff]
  simp only [h.mem_iff]

/-- **The order of a directory does not matter.** -/
theorem Directory.WellFormed.tenant_reordered {d d' : Directory} {defaultKIDs : List Bytes}
    (h : d.WellFormed defaultKIDs) (hr : Reordered d d') (bucket : Bytes) :
    d'.tenant bucket = d.tenant bucket := by
  obtain ⟨g, hg, hlive⟩ := hr.tenants
  obtain ⟨k, hk, hdead⟩ := hr.tombstones
  have hgm : ∀ t, matchesAny (g t).buckets (toLower bucket) = matchesAny t.buckets (toLower bucket) :=
    fun t => matchesAny_perm (hg t).2 _
  have hkm : ∀ t, matchesAny (k t).buckets (toLower bucket) = matchesAny t.buckets (toLower bucket) :=
    fun t => matchesAny_perm (hk t).2 _
  -- whatever is found in the other order is some tenant's of the directory, which is then found as well
  rw [Directory.tenant]
  cases hf : d'.tenants.find? fun t => matchesAny t.buckets (toLower bucket) with
  | some t' =>
    obtain ⟨t, ht, rfl⟩ := mem_map.mp (hlive.subset (mem_of_find?_eq_some hf))
    have hm : matchesAny (g t).buckets (toLower bucket) = true := by simpa using find?_some hf
    rw [h.tenant_of_live ht (hgm t ▸ hm), ← (hg t).1]
  | none =>
    have hno : ∀ t ∈ d.tenants, matchesAny t.buckets (toLower bucket) = false := by
      intro t ht
      have hmem : g t ∈ d'.tenants := hlive.symm.subset (mem_map_of_mem ht)
      rw [← hgm t]
      simpa using find?_eq_none.mp hf (g t) hmem
    cases hs : d'.tombstones.find? fun t => matchesAny t.buckets (toLower bucket) with
    | some s' =>
      obtain ⟨s, hmem, rfl⟩ := mem_map.mp (hdead.subset (mem_of_find?_eq_some hs))
      have hm : matchesAny (k s).buckets (toLower bucket) = true := by simpa using find?_some hs
      rw [h.tenant_of_destroyed hmem (hkm s ▸ hm), ← (hk s).1]
    | none =>
      have hno' : ∀ s ∈ d.tombstones, matchesAny s.buckets (toLower bucket) = false := by
        intro s hmem
        have hmem' : k s ∈ d'.tombstones := hdead.symm.subset (mem_map_of_mem hmem)
        rw [← hkm s]
        simpa using find?_eq_none.mp hs (k s) hmem'
      rw [tenant_of_none hno hno']

theorem toLower_map_lower (s : Bytes) : toLower (s.map lower) = toLower s := by
  have hlow : ∀ b, lower (lower b) = lower b := forall_byte (by decide +kernel)
  have hself : ∀ b, 0x80 ≤ lower b → lower b = b := forall_byte (by decide +kernel)
  induction s using toLower.induct with
  | case1 s ih => exact congrArg (0x6B :: ·) ih
  | case2 s ih => exact congrArg (0x69 :: ·) ih
  | case3 b s hkelvin hdotted ih =>
    rw [map_cons, toLower, toLower, hlow, ih]
    · exact fun s' hs => hkelvin s' hs
    · exact fun s' hs => hdotted s' hs
    · intro s' hb hs
      obtain ⟨x, rest, rfl, hx, hrest⟩ := map_eq_cons_iff.mp hs
      obtain ⟨y, rest', rfl, hy, _⟩ := map_eq_cons_iff.mp hrest
      rw [hself b (by rw [hb]; decide)] at hb
      rw [hself x (by rw [hx]; decide)] at hx
      rw [hself y (by rw [hy]; decide)] at hy
      exact hkelvin rest' hb (by rw [hx, hy])
    · intro s' hb hs
      obtain ⟨x, rest, rfl, hx, _⟩ := map_eq_cons_iff.mp hs
      rw [hself b (by rw [hb]; decide)] at hb
      rw [hself x (by rw [hx]; decide)] at hx
      exact hdotted rest hb (by rw [hx])
  | case4 => rfl

/-- **Bucket resolution is unambiguous.** Overlapping is to have a bucket in common, in either order; a directory that
validates has at most one entry for a bucket; and whose the bucket is depends neither on the order of anything in the
directory nor on the letter case of its name. -/
theorem bucket_resolution : (∀ a b, validBucketEntry a = true → validBucketEntry b = true →
      (overlap a b = true ↔ ∃ s, BucketName s ∧ matchesEntry a s = true ∧ matchesEntry b s = true)
      ∧ overlap a b = overlap b a)
    ∧ ∀ (d : Directory) defaultKIDs, d.validate defaultKIDs = .ok () →
      (∀ bucket, ((d.owners.flatMap Owner.buckets).filter fun e => matchesEntry e bucket).length ≤ 1)
      ∧ (∀ d', Reordered d d' → ∀ bucket, d'.tenant bucket = d.tenant bucket)
      ∧ ∀ bucket bucket', bucket.map lower = bucket'.map lower → d.tenant bucket = d.tenant bucket' := by
  refine ⟨fun a b ha hb => ⟨overlap_iff ha hb, overlap_comm a b⟩, ?_⟩
  intro d defaultKIDs hvalid
  have hwf := Directory.wellFormed_of_validate hvalid
  refine ⟨fun bucket => matches_le_one hwf.apart.entries _, fun d' hr bucket => hwf.tenant_reordered hr bucket, ?_⟩
  intro bucket bucket' hcase
  unfold Directory.tenant
  rw [← toLower_map_lower bucket, hcase, toLower_map_lower]

def twoOwners : Directory :=
  ⟨1, [⟨ascii "acme", [ascii "acme-*"], [ascii "k1"], [], [{ source := ascii "deployment" }]⟩],
    [⟨ascii "gone", [ascii "old"], [ascii "k2"], [], 0⟩]⟩

theorem bucket_resolution_two :
    (∃ s, BucketName s ∧ matchesEntry (ascii "acme-*") s = true ∧ matchesEntry (ascii "acme-l*") s = true)
    ∧ twoOwners.validate [] = .ok ()
    ∧ twoOwners.tenant (ascii "ACME-logs") = twoOwners.tenant (ascii "acme-LOGS") :=
  ⟨(bucket_resolution.1 (ascii "acme-*") (ascii "acme-l*") (by decide) (by decide)).1.mp (by decide), by decide,
    (bucket_resolution.2 twoOwners [] (by decide)).2.2 _ _ (by decide)⟩

end BlindBucket.Keys
