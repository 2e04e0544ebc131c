import BlindBucket.Freshness.Local
import Mathlib.Data.List.Induction

/-!
# The index across restarts

The map an index holds is what its file replays to, as long as the file is a header
followed by whole records (`Aligned`). Every operation keeps that shape: an operation
appends at most one record, and a compaction writes the file anew. Closing and opening an
aligned file gives the same map.

Opening appends a header whenever no record was read. Behind a header that is already
there it shifts every later record off its boundary, so an index that is closed without a
record does not survive what is written into it next.
-/

namespace BlindBucket.Freshness

open ByteIo RecordLog List Option

variable (D : Digests)

/-! ## What one operation does -/

inductive Op where
  | check (bucket key : Bytes) (tag : Tag) (t : Clock)
  | record (bucket key : Bytes) (tag : Tag) (t : Clock)
  | forget (bucket key : Bytes) (t : Clock)
  | invalidate (bucket key : Bytes) (t : Clock)

def Op.apply (l : Local) : Op → Local
  | .check bucket key tag t => (l.check D bucket key tag t).2
  | .record bucket key tag t => (l.record D bucket key tag t).2
  | .forget bucket key t => (l.forget D bucket key t).2
  | .invalidate bucket key t => (l.invalidate D bucket key t).2

/-- The index after a sequence of calls. -/
def Local.run (l : Local) (ops : List Op) : Local := ops.foldl (Op.apply D) l

/-- Append a record and take it into the map. -/
def Local.push (l : Local) (r : Record) (t : Clock) : Local :=
  { l.writeRecordLocked D r with m := applyRecord l.m r }.maintainLocked D t

variable {D} {l : Local}

theorem kindPresent_valid : kindPresent ≠ kindInvalid := by decide

theorem kindTombstone_valid : kindTombstone ≠ kindInvalid := by decide

theorem kindPresent_ne_tombstone : kindPresent ≠ kindTombstone := by decide

theorem applyRecord_of_ne {m : IndexMap} {r : Record} (h : r.kind ≠ kindInvalid) :
    applyRecord m r = m.insert r.name ⟨r.tag, r.kind, r.when⟩ := if_neg h

theorem applyRecord_of_eq {m : IndexMap} {r : Record} (h : r.kind = kindInvalid) :
    applyRecord m r = m.erase r.name := if_pos h

theorem appendLocked_eq_push {h : NameHash} {tag : Tag} {kind : UInt8} {t : Clock}
    (hk : kind ≠ kindInvalid) :
    l.appendLocked D h tag kind t = l.push D ⟨h, tag, kind, t.record⟩ t := by
  rw [Local.push, applyRecord_of_ne hk]
  rfl

/-- An operation of an open index changes nothing or pushes one record. -/
theorem Op.apply_cases (hopen : l.closed = false) (op : Op) :
    op.apply D l = l ∨ ∃ r t, op.apply D l = l.push D r t := by
  cases op with
  | check bucket key tag t =>
    rw [Op.apply, Local.check, if_neg (by simp [hopen])]
    split
    · exact .inr ⟨_, t, appendLocked_eq_push kindPresent_valid⟩
    · exact .inl rfl
  | record bucket key tag t =>
    rw [Op.apply, Local.record, if_neg (by simp [hopen])]
    exact .inr ⟨_, t, appendLocked_eq_push kindPresent_valid⟩
  | forget bucket key t =>
    rw [Op.apply, Local.forget, if_neg (by simp [hopen])]
    exact .inr ⟨_, t, appendLocked_eq_push kindTombstone_valid⟩
  | invalidate bucket key t =>
    rw [Op.apply, Local.invalidate, if_neg (by simp [hopen])]
    split
    · exact .inl rfl
    · refine .inr ⟨⟨name D bucket key, zeroTag, kindInvalid, t.record⟩, t, ?_⟩
      rfl

/-- What pushing a record does when the file has not outgrown the map. -/
structure Appends (D : Digests) (l : Local) (r : Record) (next : Local) : Prop where
  file : next.file = l.file ++ recordBytes D r
  m : next.m = applyRecord l.m r
  records : next.records = l.records + 1
  closed : next.closed = l.closed
  retention : next.retention = l.retention

theorem push_appends {r : Record} {t : Clock}
    (h : l.records + 1 ≤ 2 * (applyRecord l.m r).entries.length + compactFloor) :
    Appends D l r (l.push D r t) := by
  have hnot : ¬ 2 * (applyRecord l.m r).entries.length + compactFloor < l.records + 1 := by omega
  rw [Local.push, Local.maintainLocked]
  split
  next hbig =>
    exact absurd hbig hnot
  · exact ⟨rfl, rfl, rfl, rfl, rfl⟩

/-! ## Replaying -/

theorem lookup_applyRecord (m : IndexMap) (r : Record) (h : NameHash) : (applyRecord m r).lookup h =
      if h = r.name then (if r.kind = kindInvalid then none else some ⟨r.tag, r.kind, r.when⟩)
      else m.lookup h := by
  by_cases hk : r.kind = kindInvalid
  · rw [applyRecord_of_eq hk, if_pos hk]
    by_cases hh : h = r.name
    · rw [if_pos hh, hh, AList.lookup_erase]
    · rw [if_neg hh, AList.lookup_erase_ne hh]
  · rw [applyRecord_of_ne hk, if_neg hk]
    by_cases hh : h = r.name
    · subst hh
      rw [if_pos rfl, AList.lookup_insert]
    · rw [if_neg hh, AList.lookup_insert_ne hh]

theorem replayMap_append (rs : List Record) (r : Record) : replayMap (rs ++ [r]) = applyRecord (replayMap rs) r := by
  rw [replayMap, foldl_append]
  rfl

theorem replayMap_kind (rs : List Record) {h : NameHash} {e : Entry}
    (he : (replayMap rs).lookup h = some e) : e.kind ≠ kindInvalid := by
  induction rs using reverseRecOn with
  | nil => simp [replayMap] at he
  | append_singleton rs r ih =>
    rw [replayMap_append, lookup_applyRecord] at he
    split at he
    · obtain ⟨hk, he⟩ := ite_none_left_eq_some.mp he
      cases he
      exact hk
    · exact ih he

/-- Replaying the entries of a map puts them over what was there. -/
theorem foldl_entryRecord {L : List MapEntry} (hnd : L.NodupKeys)
    (hkind : ∀ e ∈ L, e.2.kind ≠ kindInvalid) (base : IndexMap) (h : NameHash) :
    ((L.map entryRecord).foldl applyRecord base).lookup h = (L.dlookup h).or (base.lookup h) := by
  induction L generalizing base with
  | nil => simp
  | cons x L ih =>
    obtain ⟨n, e⟩ := x
    rw [nodupKeys_cons] at hnd
    have hk : e.kind ≠ kindInvalid := hkind ⟨n, e⟩ mem_cons_self
    have hinsert : applyRecord base (entryRecord ⟨n, e⟩) = base.insert n e := applyRecord_of_ne hk
    rw [map_cons, foldl_cons, hinsert,
      ih hnd.2 (fun x hx => hkind x (mem_cons_of_mem _ hx))]
    by_cases hh : h = n
    · have hnone : L.dlookup h = none := dlookup_eq_none.mpr (hh ▸ hnd.1)
      rw [hnone, hh, AList.lookup_insert, dlookup_cons_eq]
      rfl
    · rw [AList.lookup_insert_ne hh, dlookup_cons_ne _ _ hh]

/-- A map is rebuilt from the records a compaction writes, in whatever order it writes them. -/
theorem replayMap_entries {m : IndexMap} {L : List MapEntry}
    (hperm : L.Perm m.entries) (hkind : ∀ h e, m.lookup h = some e → e.kind ≠ kindInvalid)
    (h : NameHash) : (replayMap (L.map entryRecord)).lookup h = m.lookup h := by
  have hmem : ∀ e ∈ L, e.2.kind ≠ kindInvalid := by
    intro e he
    exact hkind e.1 e.2 (AList.mem_lookup_iff.mpr (hperm.mem_iff.mp he))
  have hnd : L.NodupKeys := (perm_nodupKeys hperm).mpr m.nodupKeys
  rw [replayMap, foldl_entryRecord hnd hmem, perm_dlookup h hnd hperm]
  simp [AList.lookup]

/-- What a compaction leaves out is an expired tombstone. -/
theorem lookup_keptEntries (m : IndexMap) (cutoff : Int) (h : NameHash) :
    (keptEntries m cutoff).lookup h = (m.lookup h).filter (fun e => keeps cutoff ⟨h, e⟩) := by
  rcases hl : m.lookup h with _ | e
  · have hm : h ∉ m := AList.lookup_eq_none.mp hl
    have hsub : (keptEntries m cutoff).entries ⊆ m.entries := filter_sublist.subset
    have hk : h ∉ keptEntries m cutoff := by
      intro hin
      exact hm (AList.keys_subset_keys_of_entries_subset_entries hsub hin)
    rw [AList.lookup_eq_none.mpr hk]
    rfl
  · have hin : (⟨h, e⟩ : Sigma _) ∈ m.entries := AList.mem_lookup_iff.mp hl
    by_cases hkeep : keeps cutoff ⟨h, e⟩ = true
    · have hin' : (⟨h, e⟩ : Sigma _) ∈ (keptEntries m cutoff).entries :=
        mem_filter.mpr ⟨hin, hkeep⟩
      rw [AList.mem_lookup_iff.mpr hin', filter_some, if_pos hkeep]
    · have hk : h ∉ keptEntries m cutoff := by
        intro hk
        obtain ⟨e', he'⟩ := isSome_iff_exists.mp (AList.lookup_isSome.mpr hk)
        have hmem := mem_filter.mp (AList.mem_lookup_iff.mp he')
        have hsame : m.lookup h = some e' := AList.mem_lookup_iff.mpr hmem.1
        rw [hl] at hsame
        cases hsame
        exact hkeep hmem.2
      rw [AList.lookup_eq_none.mpr hk, filter_some, if_neg hkeep]

/-! ## Aligned files -/

/-- What `load` accepts as the header of an index file. -/
structure HeaderOk (h : Bytes) : Prop where
  length : h.length = headerSize
  magic : h.take 4 = fileMagic
  version : h.getD 4 0 = fileVersion
  width : ofBe (h.extract 6 8) = recordSize

theorem headerOk (now : Unix) : HeaderOk (headerBytes now) where
  length := headerBytes_length now
  magic := rfl
  version := rfl
  width := by
    rw [show (headerBytes now).extract 6 8 = [0, 48] from rfl]
    decide

/-- The index is open, and its file is a header and whole records that replay to the map. -/
structure Aligned (D : Digests) (l : Local) : Prop where
  opened : l.closed = false
  file : ∃ header front rs, HeaderOk header ∧ l.file = header ++ front ∧
    (recordFormat D).Reads front rs ∧ rs.length = l.records ∧
    ∀ h, (replayMap rs).lookup h = l.m.lookup h

theorem Aligned.kind (ha : Aligned D l) {h : NameHash} {e : Entry}
    (he : l.m.lookup h = some e) : e.kind ≠ kindInvalid := by
  obtain ⟨-, -, rs, -, -, -, -, hmap⟩ := ha.file
  exact replayMap_kind rs ((hmap h).trans he)

theorem Aligned.write (ha : Aligned D l) (r : Record) :
    Aligned D { l.writeRecordLocked D r with m := applyRecord l.m r } where
  opened := ha.opened
  file := by
    obtain ⟨header, front, rs, hheader, hfile, hreads, hlen, hmap⟩ := ha.file
    refine ⟨header, front ++ recordBytes D r, rs ++ [r], hheader, ?_,
      hreads.append (Format.reads_encode r), ?_, ?_⟩
    · rw [← append_assoc, ← hfile]
      rfl
    · rw [length_append, hlen]
      rfl
    · intro h
      rw [replayMap_append, lookup_applyRecord, lookup_applyRecord, hmap]

/-- A compaction writes an aligned file, whatever the file was before. -/
theorem aligned_compact (hopen : l.closed = false)
    (hkind : ∀ h e, l.m.lookup h = some e → e.kind ≠ kindInvalid) (t : Clock) :
    Aligned D (l.compactLocked D t) where
  opened := hopen
  file := by
    have hperm := (t.walk_perm l.m.entries).filter (keeps (t.cutoff.1 - l.retentionSeconds))
    refine ⟨_, _, _, headerOk t.header, rfl, Format.reads_encodeAll _,
      by rw [length_map, hperm.length_eq]; rfl, replayMap_entries hperm ?_⟩
    intro h e he
    exact hkind h e (filter_eq_some_iff.mp ((lookup_keptEntries _ _ h).symm.trans he)).1

theorem maintainLocked_cases (l : Local) (t : Clock) : (∃ n, l.maintainLocked D t = { l with sinceSync := n }) ∨
      l.maintainLocked D t = l.compactLocked D t := by
  rw [Local.maintainLocked]
  split
  · exact .inr rfl
  · exact .inl ⟨_, rfl⟩

theorem Aligned.maintain (ha : Aligned D l) (t : Clock) : Aligned D (l.maintainLocked D t) := by
  rcases maintainLocked_cases l t with ⟨n, hn⟩ | hc
  · rw [hn]
    exact ⟨ha.opened, ha.file⟩
  · rw [hc]
    exact aligned_compact ha.opened (fun h e he => ha.kind he) t

theorem Aligned.apply (ha : Aligned D l) (op : Op) : Aligned D (op.apply D l) := by
  rcases Op.apply_cases ha.opened op with h | ⟨r, t, h⟩
  · rw [h]
    exact ha
  · rw [h]
    exact (ha.write r).maintain t

theorem Aligned.run (ha : Aligned D l) (ops : List Op) : Aligned D (l.run D ops) := by
  induction ops generalizing l with
  | nil => exact ha
  | cons op ops ih => exact ih (ha.apply op)

/-! ## Opening a file -/

theorem load_header (path : Bytes) {header : Bytes} (hok : HeaderOk header) (bytes : Bytes) :
    load D path (some (header ++ bytes)) =
      .ok (replayMap ((recordFormat D).replay bytes).1, ((recordFormat D).replay bytes).1.length) := by
  have hlen := hok.length
  have hsize : headerSize = 16 := rfl
  have hshort : ¬ (header ++ bytes).length < headerSize := by
    rw [length_append]; omega
  have hmagic : (header ++ bytes).take 4 = fileMagic := by
    rw [take_append_of_le_length (by omega), hok.magic]
  have hversion : (header ++ bytes).getD 4 0 = fileVersion := by
    rw [← hok.version, getD_eq_getElem?_getD, getD_eq_getElem?_getD,
      getElem?_append_left (by omega)]
  have hwidth : (header ++ bytes).extract 6 8 = header.extract 6 8 := by
    rw [extract_eq_take_drop,
      drop_append_of_le_length (by omega),
      take_append_of_le_length (by rw [length_drop]; omega)]
  have hdrop : (header ++ bytes).drop headerSize = bytes := drop_left' hlen
  rw [load, if_neg hshort, if_neg (not_not.mpr hmagic), if_neg (not_not.mpr hversion),
    if_neg (by rw [hwidth]; exact not_not.mpr hok.width), hdrop]

/-- What a successful `Open` sets up. -/
structure Opened (D : Digests) (opts : Options) (now : Unix) (file : Option Bytes) (l : Local) : Prop where
  key : opts.key.length = keySize
  path : opts.path ≠ []
  loaded : load D opts.path file = .ok (l.m, l.records)
  bytes : l.file = if l.records = 0 then file.getD [] ++ headerBytes now else file.getD []
  opened : l.closed = false
  retention : l.retention = cmpOr opts.tombstoneRetention defaultRetention

variable {opts : Options}

theorem openIndex_ok {now : Unix} {file : Option Bytes} {l : Local}
    (h : openIndex D opts now file = .ok l) : Opened D opts now file l := by
  rw [openIndex] at h
  split at h
  · simp at h
  split at h
  · simp at h
  rename_i hkey hpath
  obtain ⟨read, hread, h⟩ := bind_ok h
  cases h
  exact ⟨not_not.mp hkey, hpath, hread, rfl, rfl, rfl⟩

theorem openIndex_of_load (now : Unix) {file : Option Bytes}
    {read : IndexMap × Nat} (hkey : opts.key.length = keySize) (hpath : opts.path ≠ [])
    (hread : load D opts.path file = .ok read) : ∃ l, openIndex D opts now file = .ok l := by
  rw [openIndex, if_neg (not_not.mpr hkey), if_neg hpath, hread]
  exact ⟨_, rfl⟩

/-! ## Restarts -/

/-- A clean `Close`, and the next `Open`. -/
def reopen (D : Digests) (opts : Options) (now : Unix) (l : Local) : Try Local :=
  openIndex D opts now (some l.close.file)

/-- The calls made between two starts, and when the second start happens. -/
structure Session where
  calls : List Op
  reopened : Unix

/-- `m` is the map of `l`, but tombstones older than the retention may be missing. -/
def SameButExpired (l : Local) (now : Unix) (m : IndexMap) : Prop :=
  ∀ h, m.lookup h = l.m.lookup h ∨
    m.lookup h = none ∧ ∃ e, l.m.lookup h = some e ∧ e.kind = kindTombstone ∧
      (e.when.1 : Int) < now.1 - l.retentionSeconds

/-- After every `Open`, the map is the one held before the preceding `Close`. -/
def Survives (D : Digests) (opts : Options) : Local → List Session → Prop
  | _, [] => True
  | l, s :: rest => ∃ next, reopen D opts s.reopened (l.run D s.calls) = .ok next ∧
      SameButExpired (l.run D s.calls) s.reopened next.m ∧ Survives D opts next rest

/-- Every `Close` leaves a file that holds a record. -/
def RecordsKept (D : Digests) (opts : Options) : Local → List Session → Prop
  | _, [] => True
  | l, s :: rest => (l.run D s.calls).records ≠ 0 ∧
      ∀ next, reopen D opts s.reopened (l.run D s.calls) = .ok next → RecordsKept D opts next rest

theorem Aligned.load (ha : Aligned D l) (path : Bytes) :
    ∃ m, load D path (some l.close.file) = .ok (m, l.records) ∧
      ∀ h, m.lookup h = l.m.lookup h := by
  obtain ⟨header, front, rs, hheader, hfile, hreads, hlen, hmap⟩ := ha.file
  refine ⟨replayMap rs, ?_, hmap⟩
  rw [show l.close.file = l.file from rfl, hfile, load_header path hheader, hreads.replay, hlen]

theorem Aligned.reopens (ha : Aligned D l)
    (hkey : opts.key.length = keySize) (hpath : opts.path ≠ []) (now : Unix) :
    ∃ next, reopen D opts now l = .ok next ∧ next.records = l.records ∧
      ∀ h, next.m.lookup h = l.m.lookup h := by
  obtain ⟨m, hload, hmap⟩ := ha.load opts.path
  obtain ⟨next, hnext⟩ := openIndex_of_load now hkey hpath hload
  have hread := (openIndex_ok hnext).loaded
  rw [hload] at hread
  injection hread with hread
  have hm : m = next.m := congrArg Prod.fst hread
  exact ⟨next, hnext, (congrArg Prod.snd hread).symm, fun h => hm ▸ hmap h⟩

/-- **A file that holds a record is aligned again after it is opened.** -/
theorem Aligned.reopened (ha : Aligned D l) {now : Unix} {next : Local}
    (hnext : reopen D opts now l = .ok next) (hrec : l.records ≠ 0) (hsame : next.records = l.records)
    (hmap : ∀ h, next.m.lookup h = l.m.lookup h) : Aligned D next := by
  have ho := openIndex_ok hnext
  obtain ⟨header, front, rs, hheader, hfile, hreads, hlen, hrs⟩ := ha.file
  refine ⟨ho.opened, header, front, rs, hheader, ?_, hreads, hlen.trans hsame.symm,
    fun h => (hrs h).trans (hmap h).symm⟩
  rw [ho.bytes, if_neg (by omega)]
  exact hfile

theorem aligned_new {now : Unix} (h : openIndex D opts now none = .ok l) : Aligned D l := by
  have ho := openIndex_ok h
  have hload := ho.loaded
  injection hload with hload
  have hm : l.m = ∅ := (congrArg Prod.fst hload).symm
  have hn : l.records = 0 := (congrArg Prod.snd hload).symm
  refine ⟨ho.opened, headerBytes now, [], [], headerOk now, ?_, Format.reads_nil, hn.symm, ?_⟩
  · rw [ho.bytes, if_pos hn]
    simp
  · intro h
    rw [hm]
    rfl

theorem sameButExpired_of_eq {m : IndexMap} (h : ∀ n, m.lookup n = l.m.lookup n)
    (now : Unix) : SameButExpired l now m := fun n => .inl (h n)

/-- As long as every `Close` but the last leaves a record, the map survives. -/
theorem Aligned.survives (hkey : opts.key.length = keySize)
    (hpath : opts.path ≠ []) (sessions : List Session) (last : Session) :
    ∀ {l : Local}, Aligned D l → RecordsKept D opts l sessions →
      Survives D opts l (sessions ++ [last]) := by
  induction sessions with
  | nil =>
    intro l ha _
    obtain ⟨next, hnext, -, hmap⟩ := (ha.run last.calls).reopens hkey hpath last.reopened
    exact ⟨next, hnext, sameButExpired_of_eq hmap last.reopened, trivial⟩
  | cons s sessions ih =>
    intro l ha hkept
    have har := ha.run s.calls
    obtain ⟨next, hnext, hsame, hmap⟩ := har.reopens hkey hpath s.reopened
    have han := har.reopened hnext hkept.1 hsame hmap
    exact ⟨next, hnext, sameButExpired_of_eq hmap s.reopened, ih han (hkept.2 next hnext)⟩

/-! ## A file without records -/

/-- A tag that is not the checksum of what a second header puts before it. -/
def strayTag (D : Digests) (front : Bytes) : Tag :=
  ⟨replicate 12 0 ++ beBytes 4 (if (D.crc (front ++ replicate 12 0)).toNat = 0 then 1 else 0),
    by rw [length_append, length_replicate, beBytes_length]; rfl⟩

theorem second_header_stuck (now : Unix) (r : Record) (htag : r.tag = strayTag D (headerBytes now ++ r.name.1)) :
    (recordFormat D).Stuck (headerBytes now ++ recordBytes D r) := by
  obtain ⟨v, hv⟩ : ∃ v, v = if (D.crc (headerBytes now ++ r.name.1 ++ replicate 12 0)).toNat = 0
      then 1 else 0 := ⟨_, rfl⟩
  have htag' : r.tag.1 = replicate 12 0 ++ beBytes 4 v := by rw [htag, hv]; rfl
  have hsplit : headerBytes now ++ recordBytes D r =
      (headerBytes now ++ r.name.1 ++ replicate 12 0 ++ beBytes 4 v) ++ ([r.kind, 0, 0, 0] ++
        (beBytes 8 r.when.1 ++ beBytes 4 (D.crc (recordBody r)).toNat)) := by
    rw [recordBytes_eq, htag']
    simp only [append_assoc]
  have hfront : (headerBytes now ++ r.name.1 ++ replicate 12 (0 : UInt8)).length = 44 := by
    rw [length_append, length_append, r.name.2]
    rfl
  have hblock : (headerBytes now ++ recordBytes D r).take recordSize =
      headerBytes now ++ r.name.1 ++ replicate 12 0 ++ beBytes 4 v := by
    rw [hsplit]
    exact take_left' (by rw [length_append, hfront, beBytes_length]; rfl)
  refine .inr ?_
  show parseRecord D ((headerBytes now ++ recordBytes D r).take recordSize) = none
  have hlen : (headerBytes now ++ r.name.1 ++ replicate 12 0 ++ beBytes 4 v).length
      = recordSize := by rw [length_append, hfront, beBytes_length]; rfl
  rw [hblock, parseRecord, dif_pos hlen, if_pos]
  rw [take_left' hfront, extract_eq_take_drop, drop_left' hfront]
  -- zero and one fit in four bytes, and the one chosen is not the checksum
  split at hv
  next h0 =>
    rw [h0, hv]
    decide
  next h0 =>
    rw [hv]
    exact fun h => h0 (h.trans (by decide))

/-- **Closing without a record loses what is written next.** -/
theorem Aligned.lost (ha : Aligned D l) (hrec : l.records = 0)
    {now : Unix} {next : Local} (hnext : reopen D opts now l = .ok next) :
    ∃ s : Session, ¬ Survives D opts next [s] := by
  have ho := openIndex_ok hnext
  obtain ⟨again, hagain, hsame, hmap⟩ := ha.reopens ho.key ho.path now
  have heq : again = next := Except.ok.inj (hagain.symm.trans hnext)
  subst heq
  obtain ⟨header, front, rs, hheader, hfile, hreads, hlen, -⟩ := ha.file
  have hfront : front = [] := by
    have hfl := hreads.length
    rw [hlen, hrec] at hfl
    exact length_eq_zero_iff.mp hfl
  have hbytes : again.file = header ++ headerBytes now := by
    rw [ho.bytes, if_pos (by omega), getD_some, show l.close.file = l.file from rfl, hfile,
      hfront, append_nil]
  -- one record, whose tag does not happen to be a checksum
  obtain ⟨r, hr⟩ : ∃ r : Record, r = ⟨name D [] [], strayTag D (headerBytes now ++ (name D [] []).1),
    kindPresent, now⟩ := ⟨_, rfl⟩
  have hkindr : r.kind = kindPresent := by rw [hr]
  have hcall : again.run D [.record [] [] r.tag (.still now)] = again.push D r (.still now) := by
    rw [hr]
    show (again.record D [] [] _ _).2 = _
    rw [Local.record, if_neg (by simp [ho.opened])]
    exact appendLocked_eq_push kindPresent_valid
  have hpush : Appends D again r (again.push D r (.still now)) :=
    push_appends (by unfold compactFloor; omega)
  refine ⟨⟨[.record [] [] r.tag (.still now)], now⟩, ?_⟩
  intro hsurvives
  obtain ⟨after, hafter, hkept, -⟩ := hsurvives
  rw [hcall] at hafter hkept
  -- the record stands behind two headers, so nothing is read
  have hempty : after.m = ∅ := by
    have hloaded := (openIndex_ok hafter).loaded
    have hstuck := second_header_stuck now r (by rw [hr])
    rw [show (again.push D r (.still now)).close.file = (again.push D r (.still now)).file from rfl,
      hpush.file, hbytes, append_assoc, load_header _ hheader,
      Format.replay_stuck hstuck] at hloaded
    exact (congrArg Prod.fst (Except.ok.inj hloaded)).symm
  have hheld : (again.push D r (.still now)).m.lookup r.name = some ⟨r.tag, r.kind, r.when⟩ := by
    rw [hpush.m, applyRecord_of_ne (hkindr ▸ kindPresent_valid), AList.lookup_insert]
  rcases hkept r.name with h | ⟨-, e, he, hkind, -⟩
  · rw [hempty, hheld] at h
    simp at h
  · rw [hheld] at he
    cases he
    exact absurd (hkindr.symm.trans hkind) kindPresent_ne_tombstone

theorem Aligned.lost_later (hkey : opts.key.length = keySize)
    (hpath : opts.path ≠ []) (last : Session) (sessions : List Session) :
    ∀ {l : Local}, Aligned D l → RecordsKept D opts l sessions →
      ¬ RecordsKept D opts l (sessions ++ [last]) →
      ∃ s : Session, ¬ Survives D opts l (sessions ++ [last, s]) := by
  induction sessions with
  | nil =>
    intro l ha _ hnot
    have hrec : (l.run D last.calls).records = 0 := by
      by_contra hne
      exact hnot ⟨hne, fun _ _ => trivial⟩
    have har := ha.run last.calls
    obtain ⟨next, hnext, -⟩ := har.reopens hkey hpath last.reopened
    obtain ⟨s, hs⟩ := har.lost hrec hnext
    refine ⟨s, ?_⟩
    intro hsurvives
    obtain ⟨next', hnext', -, hrest⟩ := hsurvives
    have heq : next' = next := Except.ok.inj (hnext'.symm.trans hnext)
    exact hs (heq ▸ hrest)
  | cons t sessions ih =>
    intro l ha hkept hnot
    have har := ha.run t.calls
    obtain ⟨next, hnext, hsame, hmap⟩ := har.reopens hkey hpath t.reopened
    have han := har.reopened hnext hkept.1 hsame hmap
    have hnot' : ¬ RecordsKept D opts next (sessions ++ [last]) := by
      intro hk
      refine hnot ⟨hkept.1, ?_⟩
      intro next' hnext'
      have heq : next' = next := Except.ok.inj (hnext'.symm.trans hnext)
      exact heq ▸ hk
    obtain ⟨s, hs⟩ := ih han (hkept.2 next hnext) hnot'
    refine ⟨s, ?_⟩
    intro hsurvives
    obtain ⟨next', hnext', -, hrest⟩ := hsurvives
    have heq : next' = next := Except.ok.inj (hnext'.symm.trans hnext)
    exact hs (heq ▸ hrest)

/-- **The index survives restarts exactly as long as no `Close` leaves a file without a
record.**

From a new index, any calls between any number of restarts: if every earlier `Close` left a
record, then the histories that go on after one more `Close` all keep their maps if and
only if that `Close` left a record too. -/
theorem index_survives_iff {opts : Options} {now : Unix} {l : Local}
    (hnew : openIndex D opts now none = .ok l) (earlier : List Session) (last : Session)
    (hkept : RecordsKept D opts l earlier) :
    (∀ next : Session, Survives D opts l (earlier ++ [last, next])) ↔
      RecordsKept D opts l (earlier ++ [last]) := by
  have ho := openIndex_ok hnew
  have ha := aligned_new hnew
  constructor
  · intro hsurvives
    by_contra hnot
    obtain ⟨s, hs⟩ := ha.lost_later ho.key ho.path last earlier hkept hnot
    exact hs (hsurvives s)
  · intro hall next
    have h := ha.survives ho.key ho.path (earlier ++ [last]) next hall
    rwa [append_assoc] at h

/-! ## A small index -/

/-- Digests to compute with: a checksum that is always one, and a hash that pads. -/
def padDigests : Digests where
  crc := fun _ => 1
  mac := fun b => (b ++ replicate 32 0).take 32
  mac_length := by
    intro b
    rw [length_take, length_append, length_replicate]
    omega

def padOptions : Options := ⟨[0x78], replicate keySize 7, 0, 0⟩

def epoch : Unix := ⟨0, Nat.zero_le _⟩

def someClock : Clock := .still epoch

/-- The index `Open` makes of nothing. -/
def padIndex : Local where
  retention := defaultRetention
  syncEvery := defaultSyncEvery
  m := ∅
  file := headerBytes epoch
  records := 0
  sinceSync := 0
  closed := false

/-- Record one write of one object. -/
def padRecord : Session := ⟨[.record [0x62] [0x6B] zeroTag someClock], epoch⟩

theorem openIndex_pad : openIndex padDigests padOptions epoch none = .ok padIndex := rfl

/-- A first session that records something is survived by every session after it. -/
theorem index_survives_one_record : openIndex padDigests padOptions epoch none = .ok padIndex ∧
      ∀ next : Session, Survives padDigests padOptions padIndex ([] ++ [padRecord, next]) :=
  ⟨openIndex_pad, (index_survives_iff openIndex_pad [] padRecord trivial).mpr
    ⟨by decide, fun _ _ => trivial⟩⟩

/-- A first session without calls: what the second one records is gone after the next start. -/
theorem index_lost_after_idle_session : openIndex padDigests padOptions epoch none = .ok padIndex ∧
      ¬ Survives padDigests padOptions padIndex [⟨[], epoch⟩, padRecord] := by
  refine ⟨openIndex_pad, ?_⟩
  intro hsurvives
  obtain ⟨idle, hidle, -, after, hafter, hkept, -⟩ := hsurvives
  cases hidle
  cases hafter
  rcases hkept (name padDigests [0x62] [0x6B]) with h | ⟨-, e, he, hkind, -⟩
  · exact absurd h (by decide +kernel)
  · have hheld := congrArg (Option.map Entry.kind) he
    rw [map_some, hkind] at hheld
    exact absurd hheld (by decide +kernel)

end BlindBucket.Freshness
