import BlindBucket.Cloud.Collect

/-!
# Collecting manifests that anybody may have written

Which object a directory of manifests belongs to, gc reads from bytes that nobody vouches for. It goes by them only
if the key hashes to the directory, and everything it deletes is of that directory. The provider answers as it likes
here, each answer depending on all that was asked before; so it may hold any objects, and change them at any time.
-/

namespace BlindBucket.Gc

open GoText ObjectMeta Cloud List Option

def manifestPrefix : Bytes := ascii ".blindbucket/m/"
def maxManifestBytes : Nat := 2 ^ 20

/-- What HEAD shows. -/
inductive Shown where
  | notFound
  | failed (e : Error)
  | found (metadata : Metadata)

/-- A request of the pass, with the answer where the pass goes by it later. -/
inductive Request where
  | get (path : Bytes)
  | listUploads (key : Bytes) (answer : Try (List Bytes))
  | head (key : Bytes) (shown : Shown)
  | delete (path : Bytes)

structure Provider where
  get : List Request → Bytes → Try Bytes
  /-- The keys of the open uploads under a prefix. -/
  listUploads : List Request → Bytes → Try (List Bytes)
  head : List Request → Bytes → Shown
  delete : List Request → Bytes → Try Unit
  now : List Request → Nat

/-- A page of the listing; a time that does not parse is none. -/
structure Page where
  contents : List (Bytes × Option Nat)
  truncated : Bool

structure ManifestEntry where
  objectKey : Bytes
  id : Manifest.ID
  modified : Option Nat

-- SHA-256 and `base64.RawURLEncoding.DecodeString`
variable (hash : Bytes → Bytes) (base64 : Bytes → Option Bytes) (cfg : GcConfig) (P : Provider)

def prefixFor (objectKey : Bytes) : Bytes := manifestPrefix ++ hex (hash objectKey) ++ [0x2F]

def matchesLocation (objectKey manifestObjectKey : Bytes) : Bool :=
  (prefixFor hash objectKey).isPrefixOf manifestObjectKey

def splitManifestKey (key : Bytes) : Option (Bytes × Manifest.ID) := do
  let rest ← cutPrefix manifestPrefix key
  let (h, rawID) ← cut 0x2F rest
  if h.length ≠ 64 ∨ 0x2F ∈ rawID then none
  else (parseID base64 rawID).toOption.map fun id => (h, id)

/-- The manifests of a page, each with its hash directory. -/
def pageEntries (page : Page) : List (Bytes × ManifestEntry) :=
  page.contents.filterMap fun c => (splitManifestKey base64 c.1).map fun q => (q.1, ⟨c.1, q.2, c.2⟩)

/-- `listManifests`, over the answers to its requests. -/
def listManifests : List (Try Page) → Try (List (Bytes × ManifestEntry))
  | [] => .ok []
  | .error e :: _ => .error (aroundErr "gc: listing manifests: %w" [] e)
  | .ok page :: rest =>
    if page.truncated then (listManifests rest).map (pageEntries base64 page ++ ·) else .ok (pageEntries base64 page)

def resolveObjectKey : List ManifestEntry → List Request → Option Bytes × List Request
  | [], log => (none, log)
  | e :: rest, log =>
    match (P.get log e.objectKey).bind fun raw => Manifest.peekIdentity (raw.take maxManifestBytes) with
    | .error _ => resolveObjectKey rest (log ++ [.get e.objectKey])
    | .ok (_, key, _) =>
      if matchesLocation hash key e.objectKey then (some key, log ++ [.get e.objectKey])
      else resolveObjectKey rest (log ++ [.get e.objectKey])

/-- `currentManifestID`, of what HEAD shows. -/
def currentManifestID : Shown → Try (Option Manifest.ID)
  | .notFound => .ok none
  | .failed e => .error e
  | .found metadata => manifestIDOf base64 metadata

def tooYoung (now : Nat) (modified : Option Nat) : Bool := modified.elim (!cfg.disableMinAge) (cfg.tooYoung now)

/-- The last step of `collectKey`. -/
def collectEntries (current : Option Manifest.ID) :
    List ManifestEntry → List Request × GcResult → List Request × GcResult
  | [], s => s
  | e :: rest, (log, res) =>
    if current = some e.id then collectEntries current rest (log, { res with keptCurrent := res.keptCurrent + 1 })
    else if tooYoung cfg (P.now log) e.modified then
      collectEntries current rest (log, { res with keptTooYoung := res.keptTooYoung + 1 })
    else if cfg.dryRun then collectEntries current rest (log, { res with deleted := res.deleted + 1 })
    else
      collectEntries current rest (log ++ [.delete e.objectKey],
        match P.delete log e.objectKey with
        | .error _ => { res with errors := res.errors + 1 }
        | .ok _ => { res with deleted := res.deleted + 1 })

/-- `collectKey` from the listing of the open uploads on. -/
def collectFound (entries : List ManifestEntry) (key : Bytes) (log : List Request) (res : GcResult) :
    List Request × GcResult :=
  let uploads := P.listUploads log key
  let listed := log ++ [.listUploads key uploads]
  match uploads with
  | .error _ => (listed, { res with errors := res.errors + 1 })
  | .ok keys =>
    if key ∈ keys then (listed, { res with keysSkipped := res.keysSkipped + 1 })
    else
      let shown := P.head listed key
      match currentManifestID base64 shown with
      | .error _ => (listed ++ [.head key shown], { res with errors := res.errors + 1 })
      | .ok current => collectEntries cfg P current entries (listed ++ [.head key shown], res)

def collectKey (entries : List ManifestEntry) (s : List Request × GcResult) : List Request × GcResult :=
  match resolveObjectKey hash P entries s.1 with
  | (none, log) => (log, { s.2 with keptUnreadable := s.2.keptUnreadable + entries.length })
  | (some key, log) =>
    if cfg.keyPrefix.isPrefixOf key then
      collectFound base64 cfg P entries key log { s.2 with keysScanned := s.2.keysScanned + 1 }
    else (log, s.2)

/-- The manifests of a pass of `Run`, the directories in the order of a map. -/
def collectManifests (order : List Bytes) (pages : List (Try Page)) :
    Try (List Request × GcResult) :=
  (listManifests base64 pages).map fun found =>
    order.foldl (fun s h => collectKey hash base64 cfg P ((found.filter (·.1 = h)).map Prod.snd) s)
      ([], { manifestsSeen := found.length })

/-! ## What a deletion rests on -/

/-- The manifest is of the key's directory; and the key's open uploads were listed, there was none, and what HEAD
showed then is not this manifest. -/
structure Licensed (before : List Request) (path key : Bytes) (id : Manifest.ID) : Prop where
  under : prefixFor hash key <+: path
  named : splitManifestKey base64 path = some (hex (hash key), id)
  unused : ∃ asked keys shown current later,
    before = asked ++ [.listUploads key (.ok keys), .head key shown] ++ later
    ∧ key ∉ keys ∧ currentManifestID base64 shown = .ok current ∧ current ≠ some id

/-- Every deletion rests on what was asked before it, for a key of `K`. -/
def Safe (K : Set Bytes) (log : List Request) : Prop :=
  ∀ before path after, log = before ++ .delete path :: after → ∃ key ∈ K, ∃ id, Licensed hash base64 before path key id

/-- `K` has every key that an object names which the provider gives for a manifest. -/
def Names (K : Set Bytes) : Prop :=
  ∀ log path raw b key id, P.get log path = .ok raw →
    Manifest.peekIdentity (raw.take maxManifestBytes) = .ok (b, key, id) → key ∈ K

variable {hash base64 cfg P} {K : Set Bytes}

variable {log : List Request} {path h key : Bytes} {entries : List ManifestEntry} {res : GcResult}
  {s : List Request × GcResult} {found : List (Bytes × ManifestEntry)}

theorem Safe.snoc {r : Request} (h : Safe hash base64 K log)
    (hr : ∀ path, r = .delete path → ∃ key ∈ K, ∃ id, Licensed hash base64 log path key id) :
    Safe hash base64 K (log ++ [r]) := by
  intro before path after heq
  rcases after.eq_nil_or_concat with rfl | ⟨after, x, rfl⟩
  · obtain ⟨rfl, hlast⟩ := append_inj' heq rfl
    exact hr path (List.cons.inj hlast).1
  · rw [concat_eq_append, ← cons_append, ← append_assoc] at heq
    exact h before path after (append_inj' heq rfl).1

theorem splitManifestKey_some {id : Manifest.ID} (hs : splitManifestKey base64 path = some (h, id)) :
    ∃ raw, path = manifestPrefix ++ (h ++ 0x2F :: raw) ∧ h.length = 64 := by
  obtain ⟨rest, hrest, hs⟩ := bind_eq_some_iff.mp hs
  obtain ⟨⟨h', raw⟩, hcut, hs⟩ := bind_eq_some_iff.mp hs
  obtain ⟨hlen, hs⟩ := ite_none_left_eq_some.mp hs
  obtain ⟨_, _, heq⟩ := map_eq_some_iff.mp hs
  cases heq
  refine ⟨raw, ?_, by simpa using (not_or.mp hlen).1⟩
  rw [cutPrefix_eq_some hrest, (cut_eq_some hcut).1]

theorem hash_of_under (hlen : ∀ k, (hash k).length = 32) {id : Manifest.ID}
    (hs : splitManifestKey base64 path = some (h, id)) (hu : prefixFor hash key <+: path) : hex (hash key) = h := by
  obtain ⟨raw, rfl, hl⟩ := splitManifestKey_some hs
  obtain ⟨t, ht⟩ := hu
  rw [prefixFor, append_assoc, append_assoc] at ht
  refine (append_inj (append_cancel_left ht) ?_).1
  rw [hex_length, hlen, hl]

theorem resolveObjectKey_safe (hnamed : Names P K) (entries : List ManifestEntry) (h : Safe hash base64 K log) :
    Safe hash base64 K (resolveObjectKey hash P entries log).2
    ∧ ∀ key, (resolveObjectKey hash P entries log).1 = some key →
      key ∈ K ∧ ∃ e ∈ entries, prefixFor hash key <+: e.objectKey := by
  induction entries generalizing log with
  | nil => exact ⟨h, by simp [resolveObjectKey]⟩
  | cons e rest ih =>
    have hget : Safe hash base64 K (log ++ [.get e.objectKey]) := h.snoc (by simp)
    have hrest : ∀ key, (resolveObjectKey hash P rest (log ++ [.get e.objectKey])).1 = some key →
        key ∈ K ∧ ∃ x ∈ e :: rest, prefixFor hash key <+: x.objectKey := by
      intro key hk
      obtain ⟨hK, x, hx, hu⟩ := (ih hget).2 key hk
      exact ⟨hK, x, mem_cons_of_mem _ hx, hu⟩
    rw [resolveObjectKey]
    split
    · exact ⟨(ih hget).1, hrest⟩
    next b key id hpeek =>
      split
      · -- the key of this manifest hashes to where it lies
        rename_i hm
        refine ⟨hget, fun k hk => ?_⟩
        cases hk
        obtain ⟨raw, hraw, hid⟩ := bind_ok hpeek
        exact ⟨hnamed _ _ _ _ _ _ hraw hid, e, mem_cons_self, isPrefixOf_iff_prefix.mp hm⟩
      · exact ⟨(ih hget).1, hrest⟩

theorem collectEntries_safe (hK : key ∈ K) {asked later : List Request} {keys : List Bytes} {shown : Shown}
    {current : Option Manifest.ID} (hkeys : key ∉ keys) (hcur : currentManifestID base64 shown = .ok current)
    (hentries : ∀ e ∈ entries, splitManifestKey base64 e.objectKey = some (hex (hash key), e.id)) :
    Safe hash base64 K (asked ++ [.listUploads key (.ok keys), .head key shown] ++ later) →
    Safe hash base64 K (collectEntries cfg P current entries
      (asked ++ [.listUploads key (.ok keys), .head key shown] ++ later, res)).1 := by
  induction entries generalizing later res with
  | nil => exact id
  | cons e rest ih =>
    intro h
    have hrest := fun x hx => hentries x (mem_cons_of_mem _ hx)
    rw [collectEntries]
    split
    · exact ih hrest h
    next hne =>
      split
      · exact ih hrest h
      · split
        · exact ih hrest h
        · rw [append_assoc (asked ++ _)]
          refine ih hrest ?_
          rw [← append_assoc]
          refine h.snoc fun path heq => ?_
          cases heq
          have he := hentries e mem_cons_self
          obtain ⟨raw, hpath, _⟩ := splitManifestKey_some he
          refine ⟨key, hK, e.id, ⟨raw, ?_⟩, he, asked, keys, shown, current, later, rfl, hkeys, hcur, hne⟩
          rw [hpath, prefixFor, append_assoc]
          rfl

theorem collectFound_safe (hK : key ∈ K) (h : Safe hash base64 K log)
    (hentries : ∀ e ∈ entries, splitManifestKey base64 e.objectKey = some (hex (hash key), e.id)) :
    Safe hash base64 K (collectFound base64 cfg P entries key log res).1 := by
  have hlisted : Safe hash base64 K (log ++ [.listUploads key (P.listUploads log key)]) :=
    h.snoc (by simp)
  rw [collectFound]
  cases hu : P.listUploads log key with
  | error e =>
    rw [hu] at hlisted
    exact hlisted
  | ok keys =>
    rw [hu] at hlisted
    dsimp only
    by_cases hmem : key ∈ keys
    · rw [if_pos hmem]
      exact hlisted
    · have hhead := fun shown => hlisted.snoc (r := .head key shown) (by simp)
      rw [if_neg hmem]
      split
      · exact hhead _
      next current hcur =>
        -- nothing was asked between the two
        have hshape : ∀ shown, log ++ [Request.listUploads key (.ok keys)] ++ [.head key shown]
            = log ++ [.listUploads key (.ok keys), .head key shown] ++ [] := by simp
        have hsafe := hhead (P.head (log ++ [.listUploads key (.ok keys)]) key)
        rw [hshape] at hsafe ⊢
        exact collectEntries_safe hK hmem hcur hentries hsafe

theorem collectKey_safe (hlen : ∀ k, (hash k).length = 32) (hs : Safe hash base64 K s.1) (hnamed : Names P K)
    (hentries : ∀ e ∈ entries, splitManifestKey base64 e.objectKey = some (h, e.id)) :
    Safe hash base64 K (collectKey hash base64 cfg P entries s).1 := by
  obtain ⟨hlog, hkey⟩ := resolveObjectKey_safe hnamed entries hs
  rw [collectKey]
  split
  next log heq =>
    rw [heq] at hlog
    exact hlog
  next key log heq =>
    rw [heq] at hlog hkey
    obtain ⟨hK, e, he, hu⟩ := hkey key rfl
    split
    · rw [← hash_of_under hlen (hentries e he) hu] at hentries
      exact collectFound_safe hK hlog hentries
    · exact hlog

theorem listManifests_split {pages : List (Try Page)} (h : listManifests base64 pages = .ok found) :
    ∀ q ∈ found, splitManifestKey base64 q.2.objectKey = some (q.1, q.2.id) := by
  have hpage : ∀ page, ∀ q ∈ pageEntries base64 page, splitManifestKey base64 q.2.objectKey = some (q.1, q.2.id) := by
    intro page q hq
    obtain ⟨c, _, hc⟩ := mem_filterMap.mp hq
    obtain ⟨x, hx, rfl⟩ := map_eq_some_iff.mp hc
    exact hx
  induction pages generalizing found with
  | nil =>
    cases h
    simp
  | cons answer rest ih =>
    cases answer with
    | error e => simp [listManifests] at h
    | ok page =>
      rw [listManifests] at h
      split at h
      · obtain ⟨more, hr, rfl⟩ := map_ok.mp h
        intro q hq
        rcases mem_append.mp hq with hq | hq
        · exact hpage page q hq
        · exact ih hr q hq
      · cases h
        exact hpage page

theorem collectKeys_safe (hlen : ∀ k, (hash k).length = 32) (hnamed : Names P K)
    (hfound : ∀ q ∈ found, splitManifestKey base64 q.2.objectKey = some (q.1, q.2.id)) (order : List Bytes)
    (hs : Safe hash base64 K s.1) :
    Safe hash base64 K (order.foldl (fun s h => collectKey hash base64 cfg P
      ((found.filter (·.1 = h)).map Prod.snd) s) s).1 := by
  induction order generalizing s with
  | nil => exact hs
  | cons d order ih =>
    refine ih (collectKey_safe hlen hs hnamed (h := d) fun e he => ?_)
    obtain ⟨q, hq, rfl⟩ := mem_map.mp he
    obtain ⟨hmem, hd⟩ := mem_filter.mp hq
    rw [hfound q hmem, of_decide_eq_true hd]

/-- **Forged manifests do not mislead gc.** `K` has the keys that manifests name, with no two of one hash. Whatever the
provider holds and answers, a manifest that a pass deletes lies under the directory of one key, of which the pass had
listed the open uploads and found none, and then seen by HEAD that it does not use this manifest; and it is no other
key's. -/
theorem gc_not_misled (hash : Bytes → Bytes) (base64 : Bytes → Option Bytes) (cfg : GcConfig)
    (P : Provider) (K : Set Bytes) (hlen : ∀ k, (hash k).length = 32) (hfree : Set.InjOn hash K)
    (hnamed : Names P K)
    (order : List Bytes) (pages : List (Try Page)) (log : List Request) (res : GcResult)
    (h : collectManifests hash base64 cfg P order pages = .ok (log, res)) (before : List Request)
    (path : Bytes) (after : List Request) (hdel : log = before ++ .delete path :: after) :
    manifestPrefix <+: path ∧ ∃ key id, Licensed hash base64 before path key id
      ∧ ∀ key' ∈ K, prefixFor hash key' <+: path → key' = key := by
  have hsafe : Safe hash base64 K log := by
    obtain ⟨found, hl, h⟩ := map_ok.mp h
    have hlog : _ = log := congrArg Prod.fst h
    exact hlog ▸ collectKeys_safe hlen hnamed (listManifests_split hl) order (by simp [Safe])
  obtain ⟨key, hK, id, hlic⟩ := hsafe before path after hdel
  obtain ⟨raw, hpath, _⟩ := splitManifestKey_some hlic.named
  refine ⟨⟨_, hpath.symm⟩, key, id, hlic, fun key' hK' hu => ?_⟩
  exact hfree hK' hK (hex_injective (hash_of_under hlen hlic.named hu))

/-- A provider that has one manifest to give, whatever it is asked for, and no object of its key. -/
def orphanage : Provider where
  get _ _ := .ok (Manifest.bodyBytes Manifest.onePart ++ List.replicate Manifest.macSize 0)
  listUploads _ _ := .ok []
  head _ _ := .notFound
  delete _ _ := .ok ()
  now _ := 0

/-- A hash that tells keys apart by their first byte. -/
def headHash (key : Bytes) : Bytes := key.headD 0 :: List.replicate 31 0

/-- A manifest of the directory of that key. -/
def manifestOf (key : Bytes) : Bytes := prefixFor headHash key ++ ascii "AAECAwQFBgcICQoLDA0ODw"

theorem orphanage_names : Names orphanage {[0x6B], [0x6A]} := by
  intro log path raw b key id hraw hid
  cases hraw
  cases hid
  exact .inl rfl

/-- The manifest of `k` is collected. The one in the directory of `j` names `k` too, and stays. -/
theorem gc_not_misled_orphan : manifestPrefix <+: manifestOf [0x6B] ∧ ∃ key id,
    Licensed headHash rawURL.decode [.get (manifestOf [0x6B]), .listUploads [0x6B] (.ok []), .head [0x6B] .notFound]
      (manifestOf [0x6B]) key id
    ∧ ∀ key' ∈ ({[0x6B], [0x6A]} : Set Bytes), prefixFor headHash key' <+: manifestOf [0x6B] → key' = key := by
  have hfree : Set.InjOn headHash {[0x6B], [0x6A]} := by
    rintro _ (rfl | rfl) _ (rfl | rfl) h
    · rfl
    · exact absurd h (by decide)
    · exact absurd h (by decide)
    · rfl
  exact gc_not_misled headHash rawURL.decode ⟨[], [], 0, true, false, []⟩ orphanage _ (by simp [headHash]) hfree
    orphanage_names [hex (headHash [0x6B]), hex (headHash [0x6A])]
    [.ok ⟨[(manifestOf [0x6B], none), (manifestOf [0x6A], none)], false⟩] _ _ rfl _ _ [.get (manifestOf [0x6A])] rfl

end BlindBucket.Gc
