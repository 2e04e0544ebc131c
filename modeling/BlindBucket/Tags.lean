import BlindBucket.Keys.Keyring
import BlindBucket.Lib.Fields
import BlindBucket.Lib.Runes
import Mathlib.Data.List.Sort

/-!
# Tag sets

A tag set is written sorted by key, each key once, every key and value after its length. A decoder refuses whatever is
not written like that, so that a sidecar means one set only.

`Canonical` is what both sides come to: `Encode` succeeds where the sorted set is canonical and writes it, and `Decode`
accepts what is written of a canonical set and nothing else.
-/

namespace BlindBucket.Tags

open ByteIo Fields GoText
open List hiding set

structure Tag where
  key : Bytes
  value : Bytes
deriving DecidableEq

def maxTags : Nat := 10

/-! ## The code -/

def appendLP (dst x : Bytes) : Try Bytes :=
  if 0xffff < x.length then
    .error (wrapf .tagsMalformed "%w: a field of %d bytes exceeds the length prefix" [.int x.length])
  else .ok (dst ++ field 2 x)

def readLP (b : Bytes) : Try (Bytes × Bytes) :=
  if b.length < 2 then .error (wrapf .tagsMalformed "%w: a length prefix cut short" [])
  else if b.length < 2 + ofBe (b.take 2) then .error (wrapf .tagsMalformed "%w: a field cut short" [])
  else .ok ((b.drop 2).take (ofBe (b.take 2)), b.drop (2 + ofBe (b.take 2)))

def keyLE (a b : Tag) : Prop := ¬ b.key < a.key

instance : DecidableRel keyLE := fun a b => inferInstanceAs (Decidable (¬ b.key < a.key))

/-- `slices.SortFunc` of a clone, which inserts one by one up to twelve elements. -/
def sorted (set : List Tag) : List Tag := set.insertionSort keyLE

/-- The checks of a key in the loop of `Encode`. -/
def checkKey (previous : Option Bytes) (key : Bytes) : Try Unit :=
  if key = [] then .error (wrapf .tagsMalformed "%w: an empty key" [])
  else if previous = some key then .error (wrapf .tagsMalformed "%w: the key %q twice" [.bytes key])
  else .ok ()

/-- The loop of `Encode`. -/
def encodeTags (previous : Option Bytes) (out : Bytes) : List Tag → Try Bytes
  | [] => .ok out
  | t :: rest => do
      checkKey previous t.key
      let out ← appendLP out t.key
      let out ← appendLP out t.value
      encodeTags (some t.key) out rest

def encode (set : List Tag) : Try Bytes :=
  if maxTags < set.length then
    .error (wrapf .tagsMalformed "%w: %d tags, at most %d" [.int set.length, .int maxTags])
  else encodeTags none [UInt8.ofNat (sorted set).length] (sorted set)

/-- The checks of a key in the loop of `Decode`. -/
def checkNext (previous : Option Bytes) (key : Bytes) : Try Unit :=
  if key = [] then .error (wrapf .tagsMalformed "%w: an empty key" [])
  else if ∃ last ∈ previous, ¬ last < key then
    .error (wrapf .tagsMalformed "%w: keys not in strictly ascending order" [])
  else .ok ()

/-- The loop of `Decode`. -/
def decodeTags (previous : Option Bytes) : Nat → Bytes → Try (List Tag × Bytes)
  | 0, rest => .ok ([], rest)
  | n + 1, rest => do
      let (key, rest) ← readLP rest
      let (value, rest) ← readLP rest
      checkNext previous key
      let (set, rest) ← decodeTags (some key) n rest
      .ok (⟨key, value⟩ :: set, rest)

def decode : Bytes → Try (List Tag)
  | [] => .error (wrapf .tagsMalformed "%w: no count" [])
  | n :: rest =>
    if maxTags < n.toNat then
      .error (wrapf .tagsMalformed "%w: %d tags, at most %d" [.int n.toNat, .int maxTags])
    else do
      let (set, rest) ← decodeTags none n.toNat rest
      if rest.length ≠ 0 then
        .error (wrapf .tagsMalformed "%w: %d bytes after the last tag" [.int rest.length])
      else .ok set

/-- The tables of package `unicode` that a tag is checked against. -/
structure RuneTables where
  isLetter : Nat → Bool
  isNumber : Nat → Bool
  /-- The range table `Zs`. -/
  isSpaceSeparator : Nat → Bool

def notTagRune (U : RuneTables) (r : Nat) : Bool :=
  !U.isLetter r && !U.isNumber r && !U.isSpaceSeparator r && !((ascii "+-=._:/@").any fun c => c.toNat == r)

/-- The characters of a key or a value. -/
def checkRunes (U : RuneTables) (s : Bytes) : Try Unit :=
  match (runes s).find? fun r => notTagRune U r.value with
  | none => .ok ()
  | some r => .error (wrapf .invalidTag "%w: %q holds %q, which a tag may not" [.bytes s, .int r.value])

/-- One turn of the loop of `Validate`. -/
def validateTag (U : RuneTables) (seen : List Bytes) (t : Tag) : Try Unit :=
  if !validString t.key || !validString t.value then .error (wrapf .invalidTag "%w: not valid UTF-8" [])
  else if runeCount t.key = 0 ∨ 128 < runeCount t.key then
    .error (wrapf .invalidTag "%w: the key %q is %d characters; a key is 1 to 128"
      [.bytes t.key, .int (runeCount t.key)])
  else if 256 < runeCount t.value then
    .error (wrapf .invalidTag "%w: the value of %q is %d characters; a value is at most 256"
      [.bytes t.key, .int (runeCount t.value)])
  else if ascii "aws:" <+: toLower t.key then
    .error (wrapf .invalidTag "%w: the key %q uses the reserved aws: prefix" [.bytes t.key])
  else if t.key ∈ seen then .error (wrapf .invalidTag "%w: the key %q is given twice" [.bytes t.key])
  else do
    checkRunes U t.key
    checkRunes U t.value

/-- The loop of `Validate`. -/
def validateTags (U : RuneTables) (seen : List Bytes) : List Tag → Try Unit
  | [] => .ok ()
  | t :: rest => do
      validateTag U seen t
      validateTags U (t.key :: seen) rest

def validate (U : RuneTables) (set : List Tag) : Try Unit :=
  if maxTags < set.length then
    .error (wrapf .invalidTag "%w: %d tags; an object may have at most %d" [.int set.length, .int maxTags])
  else validateTags U [] set

/-! ## Sealing -/

def magic : Bytes := ascii "BBT1"
def nonceSize : Nat := 12
def dekSize : Nat := 32

/-- `setup`: the key of the tags and the associated data. -/
def setup (H : Keys.Hkdf) (dek bucket key : Bytes) : Try (Bytes × Bytes) :=
  if dek.length ≠ dekSize then
    .error (errorf "tags: a data key of %d bytes, want %d" [.int dek.length, .int dekSize])
  else do
    let aad ← appendLP (ascii "blindbucket/v1/tags") bucket
    let aad ← appendLP aad key
    .ok (H dek [] "blindbucket/v1/tags" dekSize, aad)

section

variable (A : Aead 16) (H : Keys.Hkdf)

def sealWithNonce (nonce dek bucket key : Bytes) (set : List Tag) : Try Bytes := do
  let plain ← encode set
  let s ← setup H dek bucket key
  .ok (magic ++ (nonce ++ A.sealBytes s.1 nonce plain s.2))

/-- `Open`. -/
def openSealed (dek bucket key body : Bytes) : Try (List Tag) :=
  if body.length < magic.length + nonceSize ∨ body.take magic.length ≠ magic then
    .error (wrapf .tagsMalformed "%w: not a %s sidecar" [.bytes magic])
  else do
    let s ← setup H dek bucket key
    match A.openBytes s.1 ((body.drop magic.length).take nonceSize)
        (body.drop (magic.length + nonceSize)) s.2 with
    | none => .error (wrapf .tagsOpen "tags: the sidecar does not open for this object" [])
    | some plain => decode plain

end

/-! ## Canonical sets -/

structure Tag.Fits (t : Tag) : Prop where
  key_ne_nil : t.key ≠ []
  key_short : Short 2 t.key
  value_short : Short 2 t.value

/-- **What is written**: a set that fits, in strictly ascending order of its keys. -/
structure Canonical (set : List Tag) : Prop where
  few : set.length ≤ maxTags
  fits : ∀ t ∈ set, t.Fits
  ascending : set.Pairwise fun a b => a.key < b.key

def tagBytes (t : Tag) : Bytes := field 2 t.key ++ field 2 t.value

def setBytes (set : List Tag) : Bytes := UInt8.ofNat set.length :: set.flatMap tagBytes

variable {x out key b : Bytes} {previous : Option Bytes} {ts set : List Tag} {U : RuneTables}
  {seen : List Bytes}

theorem appendLP_ok {dst : Bytes} : appendLP dst x = .ok out ↔ Short 2 x ∧ out = dst ++ field 2 x := by
  unfold appendLP Short
  split
  next hlong =>
    constructor
    · intro h
      simp at h
    · omega
  next hfits =>
    constructor
    · intro h
      exact ⟨by omega, (Except.ok.inj h).symm⟩
    · intro ⟨_, h⟩
      rw [h]

theorem checkKey_ok : checkKey previous key = .ok () ↔ key ≠ [] ∧ previous ≠ some key := by
  unfold checkKey
  split
  · simp [*]
  · split <;> simp [*]

theorem checkNext_ok : checkNext previous key = .ok () ↔ key ≠ [] ∧ ∀ last ∈ previous, last < key := by
  unfold checkNext
  split
  · simp [*]
  · split
    next hex =>
      refine ⟨by simp, ?_⟩
      intro ⟨_, hall⟩
      obtain ⟨last, hlast, hno⟩ := hex
      exact absurd (hall last hlast) hno
    next hne hex =>
      refine ⟨fun _ => ⟨hne, ?_⟩, fun _ => rfl⟩
      intro last hlast
      by_contra hno
      exact hex ⟨last, hlast, hno⟩

/-- What the loop of `Encode` writes of tags in order: it finds a repeated key next to the one it repeats. -/
theorem encodeTags_ok (hsorted : ts.Pairwise keyLE) (hprev : ∀ last ∈ previous, ∀ t ∈ ts, ¬ t.key < last) :
    encodeTags previous out ts = .ok b ↔ ((∀ t ∈ ts, t.Fits) ∧ ts.Pairwise (fun a b => a.key < b.key)
      ∧ ∀ last ∈ previous, ∀ t ∈ ts, last < t.key) ∧ b = out ++ ts.flatMap tagBytes := by
  induction ts generalizing previous out with
  | nil => simp [encodeTags, eq_comm]
  | cons t rest ih =>
    obtain ⟨hhead, htail⟩ := pairwise_cons.mp hsorted
    have hnext : ∀ last ∈ some t.key, ∀ u ∈ rest, ¬ u.key < last := by
      intro last hlast u hu
      rw [← Option.some.inj hlast]
      exact hhead u hu
    constructor
    · intro h
      obtain ⟨_, hkey, h⟩ := bind_ok h
      obtain ⟨hne, hdiffers⟩ := checkKey_ok.mp hkey
      obtain ⟨out1, h1, h⟩ := bind_ok h
      obtain ⟨hk, rfl⟩ := appendLP_ok.mp h1
      obtain ⟨out2, h2, h⟩ := bind_ok h
      obtain ⟨hv, rfl⟩ := appendLP_ok.mp h2
      obtain ⟨⟨hfits, hasc, hafter⟩, hb⟩ := (ih htail hnext).mp h
      have hbelow : ∀ u ∈ rest, t.key < u.key := hafter t.key rfl
      have hfirst : ∀ last ∈ previous, last < t.key := by
        intro last hlast
        rcases Std.lt_trichotomy last t.key with hlt | heq | hgt
        · exact hlt
        · exact absurd (heq ▸ hlast) hdiffers
        · exact absurd hgt (hprev last hlast t (mem_cons_self ..))
      refine ⟨⟨forall_mem_cons.mpr ⟨⟨hne, hk, hv⟩, hfits⟩, pairwise_cons.mpr ⟨hbelow, hasc⟩, ?_⟩, ?_⟩
      · intro last hlast
        refine forall_mem_cons.mpr ⟨hfirst last hlast, fun u hu => ?_⟩
        exact Std.lt_trans (hfirst last hlast) (hbelow u hu)
      · rw [hb, flatMap_cons, tagBytes]
        simp only [append_assoc]
    · intro ⟨⟨hfits, hasc, hafter⟩, hb⟩
      obtain ⟨ht, hrest⟩ := forall_mem_cons.mp hfits
      obtain ⟨hbelow, hasc'⟩ := pairwise_cons.mp hasc
      have hdiffers : previous ≠ some t.key := by
        intro heq
        exact Std.lt_irrefl (hafter t.key heq t (mem_cons_self ..))
      rw [encodeTags, checkKey_ok.mpr ⟨ht.key_ne_nil, hdiffers⟩, ok_bind, appendLP_ok.mpr ⟨ht.key_short, rfl⟩,
        ok_bind, appendLP_ok.mpr ⟨ht.value_short, rfl⟩]
      refine (ih htail hnext).mpr ⟨⟨hrest, hasc', ?_⟩, ?_⟩
      · intro last hlast u hu
        rw [← Option.some.inj hlast]
        exact hbelow u hu
      · rw [hb, flatMap_cons, tagBytes]
        simp only [append_assoc]

instance : Std.Total keyLE := ⟨fun a b => by
  by_cases h : b.key < a.key
  · exact Or.inr fun h' => Std.lt_irrefl (Std.lt_trans h h')
  · exact Or.inl h⟩

instance : IsTrans Tag keyLE :=
  ⟨fun _ _ _ hab hbc hca => hab (Std.lt_of_le_of_lt (Std.not_lt.mp hbc) hca)⟩

theorem sorted_perm (set : List Tag) : (sorted set).Perm set := perm_insertionSort keyLE set

theorem sorted_inOrder (set : List Tag) : (sorted set).Pairwise keyLE := pairwise_insertionSort keyLE set

/-- **`Encode` succeeds where the sorted set is canonical, and writes that.** -/
theorem encode_ok : encode set = .ok b ↔ Canonical (sorted set) ∧ b = setBytes (sorted set) := by
  have hlen := (sorted_perm set).length_eq
  have hloop : encodeTags none [UInt8.ofNat (sorted set).length] (sorted set) = .ok b ↔ _ :=
    encodeTags_ok (sorted_inOrder set) (by simp)
  unfold encode
  split
  next hmany =>
    refine ⟨by simp, fun ⟨hc, _⟩ => ?_⟩
    have hfew := hc.few
    omega
  next hfew =>
    rw [hloop]
    constructor
    · intro ⟨⟨hfits, hasc, _⟩, hb⟩
      exact ⟨⟨by omega, hfits, hasc⟩, hb⟩
    · intro ⟨hc, hb⟩
      exact ⟨⟨hc.fits, hc.ascending, by simp⟩, hb⟩

theorem readLP_field (h : Short 2 x) (rest : Bytes) : readLP (field 2 x ++ rest) = .ok (x, rest) := by
  have htake : (field 2 x ++ rest).take 2 = beBytes 2 x.length := by
    exact take_left' (beBytes_length 2 _)
  have hdrop : (field 2 x ++ rest).drop 2 = x ++ rest := by
    exact drop_left' (beBytes_length 2 _)
  have hlen : (field 2 x ++ rest).length = 2 + (x.length + rest.length) := by
    rw [length_append, field, length_append, beBytes_length, Nat.add_assoc]
  unfold readLP
  rw [htake, ofBe_beBytes h, if_neg (by omega), if_neg (by omega), ← drop_drop, hdrop, take_left,
    drop_left]

theorem readLP_ok {rest : Bytes} (h : readLP b = .ok (x, rest)) : Short 2 x ∧ b = field 2 x ++ rest := by
  obtain ⟨htwo, h⟩ := else_ok h
  obtain ⟨hfield, h⟩ := else_ok h
  cases h
  have hlen : (b.take 2).length = 2 := length_take_of_le (by omega)
  have hx : ((b.drop 2).take (ofBe (b.take 2))).length = ofBe (b.take 2) :=
    length_take_of_le (by rw [length_drop]; omega)
  refine ⟨?_, ?_⟩
  · unfold Short
    rw [hx]
    have hlt := ofBe_lt (b.take 2)
    rwa [hlen] at hlt
  · have hprefix := beBytes_ofBe (b.take 2)
    rw [hlen] at hprefix
    unfold field
    rw [hx, hprefix, ← drop_drop, append_assoc, take_append_drop, take_append_drop]

/-- **The loop of `Decode` accepts ascending tags as they are written, and nothing else.** -/
theorem decodeTags_ok {n : Nat} {rest : Bytes} :
    decodeTags previous n b = .ok (ts, rest) ↔ ((∀ t ∈ ts, t.Fits) ∧ ts.Pairwise (fun a b => a.key < b.key)
      ∧ ∀ last ∈ previous, ∀ t ∈ ts, last < t.key) ∧ ts.length = n ∧ b = ts.flatMap tagBytes ++ rest := by
  induction n generalizing previous b ts with
  | zero =>
    constructor
    · intro h
      cases h
      simp
    · intro ⟨_, hlen, hb⟩
      rw [eq_nil_of_length_eq_zero hlen] at hb ⊢
      rw [hb]
      rfl
  | succ n ih =>
    constructor
    · intro h
      obtain ⟨⟨key, b1⟩, hkey, h⟩ := bind_ok h
      obtain ⟨⟨value, b2⟩, hvalue, h⟩ := bind_ok h
      obtain ⟨_, hcheck, h⟩ := bind_ok h
      obtain ⟨⟨set, b3⟩, hset, h⟩ := bind_ok h
      obtain ⟨rfl, rfl⟩ := Prod.mk.inj (Except.ok.inj h)
      obtain ⟨hk, h1⟩ := readLP_ok hkey
      obtain ⟨hv, h2⟩ := readLP_ok hvalue
      obtain ⟨hne, hnext⟩ := checkNext_ok.mp hcheck
      obtain ⟨⟨hfits, hasc, hafter⟩, hlen, h3⟩ := ih.mp hset
      have hbelow : ∀ u ∈ set, key < u.key := hafter key rfl
      refine ⟨⟨forall_mem_cons.mpr ⟨⟨hne, hk, hv⟩, hfits⟩, pairwise_cons.mpr ⟨hbelow, hasc⟩, ?_⟩, ?_, ?_⟩
      · intro last hlast
        refine forall_mem_cons.mpr ⟨hnext last hlast, fun u hu => ?_⟩
        exact Std.lt_trans (hnext last hlast) (hbelow u hu)
      · rw [length_cons, hlen]
      · have h2' : b1 = field 2 value ++ b2 := h2
        have h3' : b2 = set.flatMap tagBytes ++ b3 := h3
        rw [h1, h2', h3', flatMap_cons, tagBytes]
        simp only [append_assoc]
    · intro ⟨⟨hfits, hasc, hafter⟩, hlen, hb⟩
      cases ts with
      | nil => simp at hlen
      | cons t ts =>
        obtain ⟨ht, hrest⟩ := forall_mem_cons.mp hfits
        obtain ⟨hbelow, hasc'⟩ := pairwise_cons.mp hasc
        have hloop : decodeTags (some t.key) n (ts.flatMap tagBytes ++ rest) = .ok (ts, rest) := by
          refine ih.mpr ⟨⟨hrest, hasc', ?_⟩, Nat.succ.inj hlen, rfl⟩
          intro last hlast u hu
          rw [← Option.some.inj hlast]
          exact hbelow u hu
        have hnext : checkNext previous t.key = .ok () :=
          checkNext_ok.mpr ⟨ht.key_ne_nil, fun last hlast => hafter last hlast t (mem_cons_self ..)⟩
        rw [hb, flatMap_cons, tagBytes, append_assoc, append_assoc, decodeTags,
          readLP_field ht.key_short, ok_bind]
        dsimp only
        rw [readLP_field ht.value_short, ok_bind]
        rw [hnext, ok_bind, hloop, ok_bind]

/-- **`Decode` accepts a canonical set as it is written, and nothing else.** -/
theorem decode_ok : decode b = .ok set ↔ Canonical set ∧ b = setBytes set := by
  constructor
  · intro h
    cases b with
    | nil => simp [decode] at h
    | cons n rest =>
      obtain ⟨hfew, h⟩ := else_ok h
      obtain ⟨⟨ts, tail⟩, hloop, h⟩ := bind_ok h
      obtain ⟨hempty, h⟩ := else_ok h
      cases h
      obtain ⟨⟨hfits, hasc, _⟩, hlen, hb⟩ := decodeTags_ok.mp hloop
      rw [eq_nil_of_length_eq_zero (Decidable.not_not.mp hempty), append_nil] at hb
      refine ⟨⟨by omega, hfits, hasc⟩, ?_⟩
      rw [setBytes, hb, hlen, UInt8.ofNat_toNat]
  · intro ⟨hc, hb⟩
    have hfew := hc.few
    have hcount : (UInt8.ofNat set.length).toNat = set.length := by
      rw [UInt8.toNat_ofNat']
      unfold maxTags at hfew
      omega
    have hloop : decodeTags none set.length (set.flatMap tagBytes) = .ok (set, []) :=
      decodeTags_ok.mpr ⟨⟨hc.fits, hc.ascending, by simp⟩, rfl, (append_nil _).symm⟩
    rw [hb, setBytes, decode, hcount, if_neg (by omega), hloop]
    rfl

/-! ## What `Validate` lets through -/

theorem short_of_runeCount {s : Bytes} (h : runeCount s ≤ 256) : Short 2 s := by
  have hle := length_le_runeCount s
  unfold Short
  omega

theorem validateTag_ok {t : Tag} (h : validateTag U seen t = .ok ()) : t.Fits ∧ t.key ∉ seen := by
  unfold validateTag at h
  split at h
  · simp at h
  split at h
  · simp at h
  rename_i hkey
  split at h
  · simp at h
  split at h
  · simp at h
  split at h
  · simp at h
  rename_i hnew
  refine ⟨⟨?_, short_of_runeCount (by omega), short_of_runeCount (by omega)⟩, hnew⟩
  intro hnil
  exact hkey (Or.inl (by rw [hnil]; rfl))

theorem validateTags_ok (h : validateTags U seen set = .ok ()) :
    (∀ t ∈ set, t.Fits ∧ t.key ∉ seen) ∧ set.Pairwise fun a b => a.key ≠ b.key := by
  induction set generalizing seen with
  | nil => simp
  | cons t rest ih =>
    obtain ⟨_, ht, h⟩ := bind_ok h
    obtain ⟨hall, hpair⟩ := ih h
    refine ⟨forall_mem_cons.mpr ⟨validateTag_ok ht, ?_⟩, pairwise_cons.mpr ⟨?_, hpair⟩⟩
    · intro u hu
      exact ⟨(hall u hu).1, fun hseen => (hall u hu).2 (mem_cons_of_mem _ hseen)⟩
    · intro u hu heq
      exact (hall u hu).2 (heq ▸ mem_cons_self ..)

theorem canonical_of_validate (h : validate U set = .ok ()) : Canonical (sorted set) := by
  have hlen := (sorted_perm set).length_eq
  obtain ⟨hfew, h⟩ := else_ok h
  obtain ⟨hall, hpair⟩ := validateTags_ok h
  refine ⟨by omega, fun t ht => (hall t ((sorted_perm set).subset ht)).1, ?_⟩
  -- sorting keeps the keys apart, and in order they ascend
  have hapart : (sorted set).Pairwise fun a b => a.key ≠ b.key :=
    (sorted_perm set).symm.pairwise hpair fun h => h.symm
  refine ((sorted_inOrder set).and hapart).imp ?_
  intro a b ⟨hle, hne⟩
  rcases Std.lt_trichotomy a.key b.key with hlt | heq | hgt
  · exact hlt
  · exact absurd heq hne
  · exact absurd hgt hle

/-! ## One spelling for each set -/

theorem sorted_sorted (set : List Tag) : sorted (sorted set) = sorted set :=
  List.Pairwise.insertionSort_eq (sorted_inOrder set)

theorem sorted_eq_self (h : set.Pairwise fun a b => a.key < b.key) : sorted set = set :=
  List.Pairwise.insertionSort_eq (h.imp fun hab hba => Std.lt_irrefl (Std.lt_trans hab hba))

theorem eq_of_ascending {s s' : List Tag} (h : s.Pairwise fun a b => a.key < b.key)
    (h' : s'.Pairwise fun a b => a.key < b.key) (hmem : ∀ t, t ∈ s ↔ t ∈ s') : s = s' := by
  have hnodup : ∀ {l : List Tag}, (l.Pairwise fun a b => a.key < b.key) → l.Nodup := by
    intro l hl
    refine hl.imp fun {a b} hab heq => ?_
    rw [heq] at hab
    exact Std.lt_irrefl hab
  have hperm : s.Perm s' := (perm_ext_iff_of_nodup (hnodup h) (hnodup h')).mpr hmem
  exact hperm.eq_of_pairwise (fun a b _ _ hab hba => absurd (Std.lt_trans hab hba) Std.lt_irrefl) h h'

/-- What was sealed opens, to the set in order. -/
theorem openSealed_seal {A : Aead 16} (hA : A.Correct) {H : Keys.Hkdf} {nonce dek bucket raw : Bytes}
    (hnonce : nonce.length = nonceSize) (h : sealWithNonce A H nonce dek bucket key set = .ok raw) :
    openSealed A H dek bucket key raw = .ok (sorted set) := by
  obtain ⟨plain, hplain, h⟩ := bind_ok h
  obtain ⟨s, hs, h⟩ := bind_ok h
  cases h
  rw [openSealed, if_neg (by simp [hnonce]), hs, ok_bind, ← drop_drop, drop_left, take_left' hnonce,
    drop_left' hnonce, hA]
  exact decode_ok.mpr (encode_ok.mp hplain)

/-- **The codec of tag sets is canonical.** What `Validate` accepts is encoded; two encodings are equal exactly when
the sets are; what was encoded is decoded to the set in order; and what is decoded is encoded to the same bytes. -/
theorem tags_canonical (U : RuneTables) : (∀ set, validate U set = .ok () → ∃ b, encode set = .ok b)
    ∧ (∀ s s' b b', encode s = .ok b → encode s' = .ok b' → (b = b' ↔ ∀ t, t ∈ s ↔ t ∈ s'))
    ∧ (∀ s b, encode s = .ok b → ∃ ts, decode b = .ok ts ∧ ts.Perm s ∧ ts.Pairwise fun a b => a.key < b.key)
    ∧ ∀ b ts, decode b = .ok ts → encode ts = .ok b := by
  have hdecode : ∀ {s b}, encode s = .ok b → decode b = .ok (sorted s) := fun h => decode_ok.mpr (encode_ok.mp h)
  refine ⟨?_, ?_, ?_, ?_⟩
  · intro set h
    exact ⟨_, encode_ok.mpr ⟨canonical_of_validate h, rfl⟩⟩
  · intro s s' b b' hb hb'
    constructor
    · intro heq t
      have hsame := hdecode hb
      rw [heq, hdecode hb'] at hsame
      rw [← (sorted_perm s).mem_iff, ← (sorted_perm s').mem_iff, Except.ok.inj hsame]
    · intro hmem
      obtain ⟨hc, rfl⟩ := encode_ok.mp hb
      obtain ⟨hc', rfl⟩ := encode_ok.mp hb'
      rw [eq_of_ascending hc.ascending hc'.ascending]
      intro t
      rw [(sorted_perm s).mem_iff, (sorted_perm s').mem_iff, hmem t]
  · intro s b h
    exact ⟨sorted s, hdecode h, sorted_perm s, (encode_ok.mp h).1.ascending⟩
  · intro b ts h
    obtain ⟨hc, hb⟩ := decode_ok.mp h
    have hself := sorted_eq_self hc.ascending
    exact encode_ok.mpr ⟨hself.symm ▸ hc, hself.symm ▸ hb⟩

/-- The rune tables over ASCII. -/
def asciiTables : RuneTables where
  isLetter r := decide (65 ≤ r ∧ r ≤ 90 ∨ 97 ≤ r ∧ r ≤ 122)
  isNumber r := decide (48 ≤ r ∧ r ≤ 57)
  isSpaceSeparator r := r == 32

def twoTags : List Tag := [⟨ascii "b", ascii "2"⟩, ⟨ascii "a", []⟩]

theorem tags_canonical_two : validate asciiTables [⟨ascii "b", ascii "!"⟩] ≠ .ok () ∧
    validate asciiTables twoTags = .ok () ∧ ∃ b, encode twoTags = .ok b ∧
      encode twoTags.reverse = .ok b ∧ ∃ ts, decode b = .ok ts ∧ encode ts = .ok b := by
  obtain ⟨hencodes, hsame, hback, hforth⟩ := tags_canonical asciiTables
  have hvalid : validate asciiTables twoTags = .ok () := by decide
  obtain ⟨b, hb⟩ := hencodes twoTags hvalid
  obtain ⟨b', hb'⟩ := hencodes twoTags.reverse (by decide)
  have heq : b = b' := (hsame _ _ _ _ hb hb').mpr fun t => mem_reverse.symm
  obtain ⟨ts, hts, _⟩ := hback _ _ hb
  exact ⟨by decide, hvalid, b, hb, heq ▸ hb', ts, hts, hforth _ _ hts⟩

end BlindBucket.Tags
