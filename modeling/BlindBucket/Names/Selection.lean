import BlindBucket.Names.Encrypter
import BlindBucket.Proxy.ListObjects

/-!
# Prefixes of encrypted names

A listing, a rotation or a deletion under a prefix asks the provider for the keys that begin with the
encrypted prefix. A prefix that ends with a slash is a path of whole segments, whose sealed form begins the
stored key of every key under it and of no other; one that ends inside a segment is narrowed to its parent.

There is one path this does not reach. The segment in front of a leading slash is empty, and `EncryptKey`
seals it like any other, but the empty key is stored as the empty string. So the prefix `/`, and every
prefix whose only slash is its first character, is mapped to a bare slash, which no stored key begins with.
-/

namespace BlindBucket.Names

open ByteIo GoText BaseText Proxy List

/-- The key a client knows, and the one the provider stores. -/
structure ObjectKeys where
  identity : Bytes
  stored : Bytes

/-- Why `eachObject` does not walk. -/
inductive WalkError where
  | mapping (err : Error)
  | notWhole (pre : Bytes)

/-- The prefix that `eachObject` lists. -/
def mappedPrefix (names : Option Encrypter) (pre : Bytes) : Except WalkError Bytes :=
  if pre = [] then .ok []
  else
    match names with
    | none => .ok pre
    | some e =>
      match e.encryptPrefix pre with
      | .error err => .error (.mapping err)
      | .ok (_, false) => .error (.notWhole pre)
      | .ok (stored, true) => .ok stored

/-- What `eachObject` does with an entry: the gateway's own objects and keys that the keyring did not
produce are skipped. -/
def visited (names : Option Encrypter) (entry : ObjectEntry) : Option ObjectKeys :=
  if isReserved entry.key then none
  else
    match names with
    | none => some ⟨entry.key, entry.key⟩
    | some e =>
      match e.decryptKey entry.key with
      | .error _ => none
      | .ok plain => some ⟨plain, entry.key⟩

/-- What is visited in the pages of the provider's listing, one after the other. -/
def eachObject (names : Option Encrypter) (pre : Bytes) (B : Proxy.Stored) :
    Except WalkError (List ObjectKeys) := do
  let stored ← mappedPrefix names pre
  .ok ((objectsOf (B.rows stored [])).filterMap (visited names))

/-- The row that `bufferPrefix` makes of a row of the provider. -/
def bufferRow (e : Encrypter) (row : ListingRow) : Option ListingRow :=
  match row.object with
  | some entry =>
    if isReserved entry.key then none
    else
      match e.decryptKey entry.key with
      | .error _ => none
      | .ok plain => some ⟨plain, some { entry with key := plain }, by simp⟩
  | none =>
    match e.decryptKey (trimSuffix [slash] row.key) with
    | .error _ => none
    | .ok plain => some ⟨plain ++ [slash], none, by simp⟩

def bufferPrefix (e : Encrypter) (B : Proxy.Stored) (storedPrefix delimiter : Bytes) (maxListingKeys : Nat) :
    Except ApiError (List ListingRow) :=
  let rows := (B.rows storedPrefix delimiter).filterMap (bufferRow e)
  if maxListingKeys < rows.length then
    .error (.notImplemented ⟨"this prefix holds more than %d keys, which is the most this gateway " ++
      "will sort at once. With object-name encryption on the provider orders by the encrypted key, so a " ++
      "listing can only be served in the client's order once the whole prefix has been read -- and past " ++
      "this bound the client waits longer than it is willing to. Narrow the prefix, or raise " ++
      "names.max_listing_keys (ADR-017)", [.int maxListingKeys]⟩)
  else
    .ok (rows.insertionSort fun a b => a.key ≤ b.key)

def errInternal : ApiError := .internal ⟨"We encountered an internal error. Please try again.", []⟩

/-- `serveEncryptedListing`, up to the rows that its pages are cut from. -/
def encryptedRows (e : Encrypter) (B : Proxy.Stored) (pre delimiter : Bytes) (maxListingKeys : Nat) :
    Except ApiError (List ListingRow) :=
  if delimiter ≠ [] ∧ delimiter ≠ [slash] then
    .error (.notImplemented ⟨"delimiter=%q is not available while object-name encryption is on: the " ++
      "stored layout is built on '/', which is the one separator that survives encryption, so no other " ++
      "delimiter can be served from it", [.bytes delimiter]⟩)
  else
    match e.encryptPrefix pre with
    | .error _ => .error errInternal
    | .ok (_, false) =>
      .error (.notImplemented ⟨"prefix=%q does not end on a '/' boundary, and while object-name " ++
        "encryption is on a prefix must: encryption is per path segment, so a partial segment has no " ++
        "encrypted form to match against (ADR-015)", [.bytes pre]⟩)
    | .ok (storedPrefix, true) => bufferPrefix e B storedPrefix delimiter maxListingKeys

/-! ## The shape of an encrypted prefix -/

variable {e : Encrypter}

variable {pre s q enc k stored t : Bytes} {whole : Bool} {bs ts : List Bytes} {c : UInt8} {o : ObjectEntry}
  {B : Proxy.Stored}

/-- What `EncryptPrefix` answers: nothing for a prefix without a slash, and otherwise the key in front of
the last slash, sealed, with the slash after it. It is whole if nothing follows that slash. -/
theorem encryptPrefix_cases (h : e.encryptPrefix pre = .ok (s, whole)) :
    (slash ∉ pre ∧ s = [] ∧ (whole = true ↔ pre = []))
      ∨ ∃ q r enc, pre = q ++ slash :: r ∧ slash ∉ r ∧ e.encryptKey q = .ok enc ∧ s = enc ++ [slash]
          ∧ (whole = true ↔ r = []) := by
  unfold Encrypter.encryptPrefix at h
  split at h
  next hnil =>
    cases h
    subst hnil
    exact .inl ⟨by simp, rfl, by simp⟩
  next hne =>
    split at h
    next hend =>
      split at h
      next hindex =>
        cases h
        exact .inl ⟨lastIndex_eq_none.mp hindex, rfl, by simp [hne]⟩
      next i hindex =>
        obtain ⟨enc, henc, hok⟩ := bind_ok h
        cases hok
        obtain ⟨r, hr, hfree, -⟩ := lastIndex_eq_some hindex
        refine .inr ⟨pre.take i, r, enc, hr, hfree, henc, rfl, ?_⟩
        -- the prefix does not end with a slash, so something follows its last one
        have hsome : r ≠ [] := by
          rintro rfl
          exact hend ⟨pre.take i, hr.symm⟩
        simp [hsome]
    next hend =>
      obtain ⟨q, rfl⟩ := Classical.not_not.mp hend
      obtain ⟨enc, henc, hok⟩ := bind_ok h
      cases hok
      rw [trimSuffix_append] at henc
      exact .inr ⟨q, [], enc, rfl, by simp, henc, rfl, by simp⟩

/-- A key and the slash after it, sealed: the path of its segments, each closed. -/
theorem sealed_parent (hq : q ≠ []) (h : e.encryptKey q = .ok enc) : q ++ [slash] = closeAll slash (split slash q)
      ∧ enc ++ [slash] = closeAll slash (e.sealPath [] (split slash q)) := by
  constructor
  · rw [closeAll_eq_join (split_ne_nil _ _), join_split]
  · rw [closeAll_eq_join (e.sealPath_split_ne_nil q), ← e.encryptKey_ok hq h]

/-- A beginning of a sealed path is a sealed beginning of the path. -/
theorem sealPath_eq_append {cs : List Bytes} (h : e.sealPath [] bs = ts ++ cs) :
    ∃ as ds, bs = as ++ ds ∧ ts = e.sealPath [] as ∧ ds.length = cs.length := by
  have hlen := congrArg List.length h
  rw [e.sealPath_length, length_append] at hlen
  obtain ⟨context, happ⟩ := e.sealPath_append [] (bs.take ts.length) (bs.drop ts.length)
  rw [take_append_drop, h] at happ
  have hsame : ts.length = (e.sealPath [] (bs.take ts.length)).length := by
    rw [e.sealPath_length, length_take]
    omega
  refine ⟨bs.take ts.length, bs.drop ts.length, (take_append_drop _ _).symm,
    (append_inj happ hsame).1, ?_⟩
  rw [length_drop]
  omega

theorem sealPath_begins {as : List Bytes} :
    (∃ cs, cs ≠ [] ∧ e.sealPath [] bs = e.sealPath [] as ++ cs) ↔ ∃ cs, cs ≠ [] ∧ bs = as ++ cs := by
  constructor
  · rintro ⟨cs, hcs, h⟩
    obtain ⟨as', ds, rfl, hsealed, hlen⟩ := sealPath_eq_append h
    rw [e.sealPath_inj hsealed]
    refine ⟨ds, ?_, rfl⟩
    rintro rfl
    exact hcs (eq_nil_of_length_eq_zero hlen.symm)
  · rintro ⟨cs, hcs, rfl⟩
    obtain ⟨context, happ⟩ := e.sealPath_append [] as cs
    refine ⟨e.sealPath context cs, ?_, happ⟩
    intro hnil
    have hlen := e.sealPath_length context cs
    rw [hnil] at hlen
    exact hcs (eq_nil_of_length_eq_zero hlen.symm)

/-- **A sealed path begins the stored keys of the keys under the path, and no others.** -/
theorem sealed_parent_begins (hq : q ≠ []) (henc : e.encryptKey q = .ok enc) (hk : e.encryptKey k = .ok stored) :
    enc ++ [slash] <+: stored ↔ q ++ [slash] <+: k := by
  obtain ⟨hplain, hsealed⟩ := sealed_parent hq henc
  by_cases hne : k = []
  · subst hne
    have hstored : stored = [] := (Except.ok.inj hk).symm
    rw [hstored]
    simp
  · rw [hsealed, hplain, e.encryptKey_ok hne hk,
      closeAll_begins_join (fun t ht => e.slash_not_mem_sealPath ht) (fun t ht => e.slash_not_mem_sealPath ht)
        (e.sealPath_split_ne_nil k), sealPath_begins,
      ← closeAll_begins_join (fun t ht => not_mem_split ht) (fun t ht => not_mem_split ht)
        (split_ne_nil slash k), join_split]

theorem not_slash_begins (hk : e.encryptKey k = .ok stored) : ¬ [slash] <+: stored := by
  by_cases hne : k = []
  · subst hne
    have hstored : stored = [] := (Except.ok.inj hk).symm
    rw [hstored]
    simp
  · -- it would have an empty first segment, and a sealed segment is never empty
    rintro ⟨t, rfl⟩
    have hsplit := e.split_encryptKey hne hk
    cases hseg : split slash k with
    | nil => exact absurd hseg (split_ne_nil _ _)
    | cons s rest =>
      rw [hseg] at hsplit
      exact e.sealSegment_ne_nil [] s (List.cons.inj hsplit).1.symm

/-! ## Walks under a prefix -/

theorem mem_join {sep : UInt8} (h : c ∈ join sep ts) : c = sep ∨ ∃ t ∈ ts, c ∈ t := by
  induction ts with
  | nil => simp [join] at h
  | cons t ts ih =>
    cases ts with
    | nil => exact .inr ⟨t, mem_cons_self .., h⟩
    | cons u ts =>
      rw [join, mem_append, mem_cons] at h
      rcases h with h | h | h
      · exact .inr ⟨t, mem_cons_self .., h⟩
      · exact .inl h
      · rcases ih h with h | ⟨v, hv, hc⟩
        · exact .inl h
        · exact .inr ⟨v, mem_cons_of_mem _ hv, hc⟩

theorem mem_sealPath {context : Bytes} {segs : List Bytes} (ht : t ∈ e.sealPath context segs) (hc : c ∈ t) :
    c ∈ encoding.chars := by
  induction segs generalizing context with
  | nil => simp [Encrypter.sealPath] at ht
  | cons s rest ih =>
    rcases mem_cons.mp ht with rfl | ht
    · exact encoding.mem_encode hc
    · exact ih ht

theorem not_isReserved (hne : k ≠ []) (hk : e.encryptKey k = .ok stored) : isReserved stored = false := by
  by_contra hres
  obtain ⟨t, ht⟩ := isReserved_iff.mp (Bool.not_eq_false _ ▸ hres)
  have hdot : (0x2E : UInt8) ∈ stored := ht ▸ mem_append_left t (by decide)
  rw [e.encryptKey_ok hne hk] at hdot
  rcases mem_join hdot with h | ⟨seg, hseg, hc⟩
  · exact absurd h (by decide)
  · exact absurd (mem_sealPath hseg hc) (by decide)

theorem visited_stored (hne : k ≠ []) (hk : e.encryptKey k = .ok o.key) : visited (some e) o = some ⟨k, o.key⟩ := by
  unfold visited
  rw [not_isReserved hne hk, if_neg (by simp)]
  simp only [e.decryptKey_encryptKey hk]

theorem bufferRow_object (hne : k ≠ []) (hk : e.encryptKey k = .ok o.key) {row : ListingRow}
    (hrow : row.object = some o) :
    ∃ out, bufferRow e row = some out ∧ out.object.isSome = true ∧ out.key = k := by
  unfold bufferRow
  split
  next entry hentry =>
    rw [hrow] at hentry
    cases hentry
    rw [not_isReserved hne hk]
    simp only [e.decryptKey_encryptKey hk]
    exact ⟨_, rfl, rfl, rfl⟩
  next hnone =>
    rw [hrow] at hnone
    simp at hnone

/-- **A beginning of a stored key that ends with a slash is opened to a beginning of the key.** -/
theorem decryptKey_parent (hne : k ≠ []) (hk : e.encryptKey k = .ok stored) (ht : t ++ [slash] <+: stored) :
    ∃ plain, e.decryptKey t = .ok plain ∧ plain ++ [slash] <+: k := by
  have hclosed : closeAll slash (split slash t) = t ++ [slash] := by
    rw [closeAll_eq_join (split_ne_nil _ _), join_split]
  rw [← hclosed, e.encryptKey_ok hne hk, closeAll_begins_join (fun u hu => not_mem_split hu)
    (fun u hu => e.slash_not_mem_sealPath hu) (e.sealPath_split_ne_nil k)] at ht
  obtain ⟨cs, hcs, hsplit⟩ := ht
  obtain ⟨as, ds, hkey, hsealed, hlen⟩ := sealPath_eq_append hsplit
  have hds : ds ≠ [] := by
    rintro rfl
    exact hcs (eq_nil_of_length_eq_zero hlen.symm)
  have has : as ≠ [] := by
    rintro rfl
    exact split_ne_nil slash t hsealed
  have htne : t ≠ [] := by
    rintro rfl
    cases as with
    | nil => exact absurd rfl has
    | cons s rest =>
      exact e.sealSegment_ne_nil [] s (List.cons.inj hsealed).1.symm
  refine ⟨join slash as, ?_, ?_⟩
  · unfold Encrypter.decryptKey
    rw [if_neg htne, hsealed, e.decryptSegments_sealPath, ok_bind]
  · rw [← closeAll_eq_join has, ← join_split slash k, hkey, join_append slash as hds]
    exact prefix_append _ _

/-! ## Selection -/

/-- What a prefix and its encrypted form have to do with a key and its stored form. -/
structure Selects (e : Encrypter) (pre s : Bytes) (whole : Bool) (k stored : Bytes) : Prop where
  /-- A whole prefix selects by its encrypted form what it selects in clear. -/
  whole_iff : whole = true → (s <+: stored ↔ pre <+: k)
  /-- Another one misses nothing. -/
  part : whole = false → pre <+: k → s <+: stored
  /-- A rotation under a whole prefix visits the object, wherever it is stored. -/
  rotated : whole = true → pre <+: k → ∀ (B : Proxy.Stored), ∀ o ∈ B.objects, o.key = stored →
    ∃ visits, eachObject (some e) pre B = .ok visits ∧ ⟨k, stored⟩ ∈ visits
  /-- A listing under a whole prefix has a row for the key, or for a common prefix of it. -/
  listed : whole = true → pre <+: k → ∀ (B : Proxy.Stored), ∀ o ∈ B.objects, o.key = stored →
    ∀ delimiter maxListingKeys rows, encryptedRows e B pre delimiter maxListingKeys = .ok rows →
      ∃ row ∈ rows, (row.object.isSome = true ∧ row.key = k) ∨ (row.object = none ∧ row.key <+: k)

theorem eachObject_visits (h : e.encryptPrefix pre = .ok (s, true)) (hk : e.encryptKey k = .ok o.key)
    (ho : o ∈ B.objects) (hs : s <+: o.key) : ∃ visits, eachObject (some e) pre B = .ok visits ∧ ⟨k, o.key⟩ ∈ visits := by
  have hne : k ≠ [] := by
    rintro rfl
    exact B.named o ho (Except.ok.inj hk).symm
  have hmapped : mappedPrefix (some e) pre = .ok s := by
    unfold mappedPrefix
    by_cases hpre : pre = []
    · subst hpre
      exact congrArg Except.ok (Prod.mk.inj (Except.ok.inj h)).1
    · rw [if_neg hpre]
      simp only [h]
  unfold eachObject
  rw [hmapped]
  refine ⟨_, rfl, mem_filterMap.mpr ⟨o, ?_, visited_stored hne hk⟩⟩
  have hrow : rowOf s [] o ∈ B.rows s [] := B.rowOf_mem_rows (B.mem_matching.mpr ⟨ho, hs⟩)
  exact mem_filterMap.mpr ⟨_, hrow, rfl⟩

theorem encryptedRows_shows {delimiter : Bytes} {maxListingKeys : Nat} {rows : List ListingRow}
    (h : e.encryptPrefix pre = .ok (s, true)) (hk : e.encryptKey k = .ok o.key) (ho : o ∈ B.objects) (hs : s <+: o.key)
    (hrows : encryptedRows e B pre delimiter maxListingKeys = .ok rows) :
    ∃ row ∈ rows, (row.object.isSome = true ∧ row.key = k) ∨ (row.object = none ∧ row.key <+: k) := by
  have hne : k ≠ [] := by
    rintro rfl
    exact B.named o ho (Except.ok.inj hk).symm
  obtain ⟨hdelim, hrows⟩ := else_ok hrows
  rw [h] at hrows
  obtain ⟨_, hrows⟩ := else_ok hrows
  rw [← Except.ok.inj hrows]
  have hrow : rowOf s delimiter o ∈ B.rows s delimiter := B.rowOf_mem_rows (B.mem_matching.mpr ⟨ho, hs⟩)
  cases hfold : commonPrefix s delimiter o.key with
  | none =>
    rw [rowOf_of_none hfold] at hrow
    obtain ⟨out, hout, hobj, hkey⟩ : ∃ out, bufferRow e ⟨o.key, some o, by simp⟩ = some out
        ∧ out.object.isSome = true ∧ out.key = k := bufferRow_object hne hk rfl
    exact ⟨out, (mem_insertionSort _).mpr (mem_filterMap.mpr ⟨_, hrow, hout⟩),
      .inl ⟨hobj, hkey⟩⟩
  | some cp =>
    rw [rowOf_of_some hfold] at hrow
    -- the delimiter is a slash, so the common prefix is a sealed path
    obtain ⟨t, rfl, hsome⟩ := commonPrefix_ends hfold
    have hslash : delimiter = [slash] := by
      by_contra hother
      exact hdelim ⟨hsome, hother⟩
    subst hslash
    obtain ⟨plain, hplain, hbegins⟩ := decryptKey_parent hne hk (commonPrefix_begins hfold).1
    refine ⟨⟨plain ++ [slash], none, by simp⟩, (mem_insertionSort _).mpr
      (mem_filterMap.mpr ⟨_, hrow, ?_⟩), .inr ⟨rfl, hbegins⟩⟩
    unfold bufferRow
    simp only [trimSuffix_append, hplain]

/-- What is left to a prefix once its encrypted form is known to select. -/
theorem selects_of (h : e.encryptPrefix pre = .ok (s, whole)) (hk : e.encryptKey k = .ok stored)
    (hwhole : whole = true → (s <+: stored ↔ pre <+: k)) (hpart : pre <+: k → s <+: stored) :
    Selects e pre s whole k stored := by
  refine ⟨hwhole, fun _ => hpart, ?_, ?_⟩
  · rintro rfl hpre B o ho rfl
    exact eachObject_visits h hk ho (hpart hpre)
  · rintro rfl hpre B o ho rfl delimiter maxListingKeys rows hrows
    exact encryptedRows_shows h hk ho (hpart hpre) hrows

/-- **Encrypted prefixes select the right keys**, exactly if the prefix does not begin the key or its last
slash is not its first character. -/
theorem encryptPrefix_selects_iff {e : Encrypter} {pre s k stored : Bytes} {whole : Bool}
    (h : e.encryptPrefix pre = .ok (s, whole)) (hk : e.encryptKey k = .ok stored) :
    Selects e pre s whole k stored ↔ ¬ (lastIndex slash pre = some 0 ∧ pre <+: k) := by
  rcases encryptPrefix_cases h with ⟨hfree, hs, hwhole⟩ | ⟨q, r, enc, hpre, hfree, henc, hs, hwhole⟩
  · -- without a slash nothing is sealed
    have hindex := lastIndex_eq_none.mpr hfree
    refine ⟨fun _ hbad => absurd (hindex.symm.trans hbad.1) (by simp), fun _ => ?_⟩
    have hany : s <+: stored := hs ▸ nil_prefix
    refine selects_of h hk (fun htrue => ?_) (fun _ => hany)
    rw [hwhole.mp htrue]
    exact ⟨fun _ => nil_prefix, fun _ => hany⟩
  · have hindex : lastIndex slash pre = some q.length := hpre ▸ lastIndex_append hfree q
    by_cases hq : q = []
    · -- the parent is the empty key, and no stored key begins with what comes out
      subst hq
      have hbare : s = [slash] := by rw [hs, ← Except.ok.inj henc]; rfl
      have hnot : ¬ s <+: stored := hbare ▸ not_slash_begins hk
      constructor
      · rintro hsel ⟨-, hbegins⟩
        cases whole with
        | true => exact hnot ((hsel.whole_iff rfl).mpr hbegins)
        | false => exact hnot (hsel.part rfl hbegins)
      · intro hgood
        have hbegins : ¬ pre <+: k := fun hb => hgood ⟨hindex, hb⟩
        exact selects_of h hk (fun _ => ⟨fun hb => absurd hb hnot, fun hb => absurd hb hbegins⟩)
          (fun hb => absurd hb hbegins)
    · have hparent := sealed_parent_begins hq henc hk
      rw [← hs] at hparent
      refine ⟨fun _ hbad => ?_, fun _ => selects_of h hk (fun htrue => ?_) (fun hbegins => ?_)⟩
      · rw [hindex] at hbad
        exact hq (eq_nil_of_length_eq_zero (Option.some.inj hbad.1))
      · rw [hpre, hwhole.mp htrue]
        exact hparent
      · refine hparent.mpr (IsPrefix.trans ?_ (hpre ▸ hbegins))
        exact ⟨r, by simp⟩

/-- The prefix `/` is mapped to a slash, which the stored key of `/` does not begin with. -/
theorem leading_slash_lost : ∃ s stored, blankEncrypter.encryptPrefix [slash] = .ok (s, true)
      ∧ blankEncrypter.encryptKey (ascii "/") = .ok stored
      ∧ ¬ Selects blankEncrypter [slash] s true (ascii "/") stored := by
  refine ⟨[slash], blankSegment ++ slash :: blankSegment, by decide +kernel, by decide +kernel, fun h => ?_⟩
  have hbegins := (h.whole_iff rfl).mpr (by decide)
  exact absurd hbegins (by decide)

theorem encryptPrefix_selects_iff_slash : ∃ s stored, blankEncrypter.encryptPrefix (ascii "a/") = .ok (s, true)
      ∧ blankEncrypter.encryptKey (ascii "a/b") = .ok stored
      ∧ lastIndex slash (ascii "a/") = some 1 ∧ Selects blankEncrypter (ascii "a/") s true (ascii "a/b") stored := by
  have hs : blankEncrypter.encryptPrefix (ascii "a/") = .ok (replicate 25 0x41 ++ ascii "BQQ/", true) := by
    decide +kernel
  have hk : blankEncrypter.encryptKey (ascii "a/b")
      = .ok (replicate 25 0x41 ++ ascii "BQQ/" ++ (replicate 25 0x41 ++ ascii "BRA")) := by decide +kernel
  have hlast : lastIndex slash (ascii "a/") = some 1 := by decide
  exact ⟨_, _, hs, hk, hlast, (encryptPrefix_selects_iff hs hk).mpr fun h => absurd (hlast.symm.trans h.1) (by decide)⟩

end BlindBucket.Names
