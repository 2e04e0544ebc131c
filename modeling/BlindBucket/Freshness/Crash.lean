import BlindBucket.Freshness.Survives

/-!
# The index after a crash

A crash cuts the file somewhere. `Open` reads the whole records before the cut, keeps the
torn bytes where they are and appends behind them, so unless the cut fell on a record
boundary everything written after the crash stands off its boundary. The next `Open` stops
at the tear and restores the map of the intact records: a key that was recorded after the
crash is judged by what the index knew about it before.

The exception is a compaction after the crash, which writes the file anew.
-/

namespace BlindBucket.Freshness

open ByteIo RecordLog List Option

variable {D : Digests}

/-! ## What the crash left -/

/-- The whole records before the cut. -/
def intact (D : Digests) (file : Bytes) : List Record :=
  if file.length < headerSize then [] else ((recordFormat D).replay (file.drop headerSize)).1

/-- The bytes of a record the crash cut short. -/
def leftover (D : Digests) (file : Bytes) : Bytes :=
  if file.length < headerSize then [] else ((recordFormat D).replay (file.drop headerSize)).2

/-- The bytes of an open index that the next `Open` finds behind the records it read. -/
def Local.unread (l : Local) : Bytes := l.file.drop (headerSize + recordSize * l.records)

/-- A `Record` of a tag, or a `Forget`. -/
structure Write where
  bucket : Bytes
  key : Bytes
  tag : Option Tag
  t : Clock

def Write.op (w : Write) : Op :=
  match w.tag with
  | some tag => .record w.bucket w.key tag w.t
  | none => .forget w.bucket w.key w.t

def Write.entry (D : Digests) (w : Write) : Record :=
  match w.tag with
  | some tag => ⟨name D w.bucket w.key, tag, kindPresent, w.t.record⟩
  | none => ⟨name D w.bucket w.key, zeroTag, kindTombstone, w.t.record⟩

/-- What the most recent call on a key was: a `Record` of a tag, a `Forget`, or none at all. -/
def lastWrite (ws : List Write) (bucket key : Bytes) : Option (Option Tag) :=
  ((ws.filter (fun w => w.bucket = bucket ∧ w.key = key)).getLast?).map Write.tag

/-- The file outgrows the map while these writes are made, so it is compacted. -/
def Overgrown (D : Digests) : IndexMap → Nat → List Write → Prop
  | _, _, [] => False
  | m, n, w :: ws =>
    2 * (applyRecord m (w.entry D)).entries.length + compactFloor < n + 1 ∨
      Overgrown D (applyRecord m (w.entry D)) (n + 1) ws

/-- What is known about an object does not contradict a tag. -/
def Agrees (known : Option Entry) (tag : Tag) : Prop :=
  ∀ e, known = some e → e.kind ≠ kindTombstone ∧ e.tag = tag

/-! ## The calls after the crash -/

theorem Write.entry_name (w : Write) : (w.entry D).name = name D w.bucket w.key := by
  rw [Write.entry]
  split <;> rfl

variable {l l₂ : Local} {r : Record} {t : Clock} {h : NameHash} {e : Entry} {ws : List Write} {bucket key : Bytes}
  {tag : Tag} {opts : Options} {now : Unix}

theorem Write.apply (hopen : l.closed = false) (w : Write) : w.op.apply D l = l.push D (w.entry D) w.t := by
  rw [Write.op, Write.entry]
  split
  · show (l.record D w.bucket w.key _ w.t).2 = _
    rw [Local.record, if_neg (by simp [hopen])]
    exact appendLocked_eq_push kindPresent_valid
  · show (l.forget D w.bucket w.key w.t).2 = _
    rw [Local.forget, if_neg (by simp [hopen])]
    exact appendLocked_eq_push kindTombstone_valid

/-- An open index whose map holds no entry of the kind that stands for none. -/
structure Sane (l : Local) : Prop where
  opened : l.closed = false
  kind : ∀ h e, l.m.lookup h = some e → e.kind ≠ kindInvalid

theorem Sane.write (hs : Sane l) (w : Write) :
    Sane { l.writeRecordLocked D (w.entry D) with m := applyRecord l.m (w.entry D) } where
  opened := hs.opened
  kind := by
    intro h e he
    rw [lookup_applyRecord] at he
    split at he
    · obtain ⟨hk, he⟩ := ite_none_left_eq_some.mp he
      cases he
      exact hk
    · exact hs.kind h e he

theorem Sane.push (hs : Sane l) (w : Write) (t : Clock) : Sane (l.push D (w.entry D) t) := by
  have hw := hs.write (D := D) w
  rw [Local.push]
  rcases maintainLocked_cases _ t with ⟨n, hn⟩ | hc
  · rw [hn]
    exact ⟨hw.opened, hw.kind⟩
  · rw [hc]
    refine ⟨hw.opened, ?_⟩
    intro h e he
    rw [Local.compactLocked, lookup_keptEntries] at he
    exact hw.kind h e (filter_eq_some_iff.mp he).1

theorem run_appends (ws : List Write) : ∀ {l : Local}, Sane l → ¬ Overgrown D l.m l.records ws →
    (l.run D (ws.map Write.op)).file = l.file ++ (recordFormat D).encodeAll (ws.map (Write.entry D)) := by
  induction ws with
  | nil =>
    intro l _ _
    exact (append_nil _).symm
  | cons w ws ih =>
    intro l hs hnot
    have hstep : Appends D l (w.entry D) (l.push D (w.entry D) w.t) := by
      refine push_appends ?_
      by_contra hbig
      exact hnot (.inl (by omega))
    have hrest : ¬ Overgrown D (l.push D (w.entry D) w.t).m (l.push D (w.entry D) w.t).records ws := by
      rw [hstep.m, hstep.records]
      exact fun h => hnot (.inr h)
    have hrun := ih (hs.push w w.t) hrest
    rw [hstep.file, append_assoc] at hrun
    show ((w.op.apply D l).run D (ws.map Write.op)).file = _
    rw [Write.apply hs.opened]
    exact hrun

/-- With a compaction, the file is aligned again. -/
theorem run_overgrown (ws : List Write) : ∀ {l : Local}, Sane l → Overgrown D l.m l.records ws →
    Aligned D (l.run D (ws.map Write.op)) := by
  induction ws with
  | nil =>
    intro l _ h
    exact h.elim
  | cons w ws ih =>
    intro l hs h
    show Aligned D ((w.op.apply D l).run D (ws.map Write.op))
    rw [Write.apply hs.opened]
    by_cases hbig : 2 * (applyRecord l.m (w.entry D)).entries.length + compactFloor < l.records + 1
    · have hcompact : l.push D (w.entry D) w.t = Local.compactLocked D
          { l.writeRecordLocked D (w.entry D) with m := applyRecord l.m (w.entry D) } w.t := by
        rw [Local.push, Local.maintainLocked]
        split
        · rfl
        next hsmall =>
          exact absurd hbig hsmall
      have hw := hs.write (D := D) w
      rw [hcompact]
      exact (aligned_compact hw.opened hw.kind w.t).run _
    · have hstep : Appends D l (w.entry D) (l.push D (w.entry D) w.t) := push_appends (by omega)
      refine ih (hs.push w w.t) ?_
      rw [hstep.m, hstep.records]
      exact h.resolve_left hbig

theorem lookup_push_cases (l : Local) (r : Record) (t : Clock) (h : NameHash) :
    (l.push D r t).m.lookup h = (applyRecord l.m r).lookup h ∨
      (l.push D r t).m.lookup h = none ∧
        ∃ e, (applyRecord l.m r).lookup h = some e ∧ e.kind = kindTombstone := by
  rw [Local.push]
  rcases maintainLocked_cases
    { l.writeRecordLocked D r with m := applyRecord l.m r } t with ⟨n, hn⟩ | hc
  · rw [hn]
    exact .inl rfl
  · rw [hc, Local.compactLocked, lookup_keptEntries]
    cases he : (applyRecord l.m r).lookup h with
    | none => exact .inl rfl
    | some e =>
      rw [filter_some]
      split
      · exact .inl rfl
      next hk =>
        refine .inr ⟨rfl, e, rfl, ?_⟩
        by_contra hlive
        exact hk (by simp [keeps, hlive])

theorem lookup_push_kept (he : (applyRecord l.m r).lookup h = some e)
    (hkept : e.kind = kindTombstone → (t.cutoff.1 : Int) - l.retentionSeconds ≤ e.when.1) :
    (l.push D r t).m.lookup h = some e := by
  rw [Local.push]
  rcases maintainLocked_cases
    { l.writeRecordLocked D r with m := applyRecord l.m r } t with ⟨n, hn⟩ | hc
  · rw [hn]
    exact he
  · rw [hc, Local.compactLocked, lookup_keptEntries, he, filter_some, if_pos]
    by_cases hk : e.kind = kindTombstone
    · have hle : (t.cutoff.1 : Int) - l.retentionSeconds ≤ e.when.1 := hkept hk
      have hnot : ¬ (e.when.1 : Int) < t.cutoff.1 - l.retentionSeconds := by omega
      simp only [keeps, Bool.not_eq_true', Bool.and_eq_false_imp, decide_eq_false_iff_not]
      exact fun _ => hnot
    · simp [keeps, hk]

theorem lookup_push (he : (applyRecord l.m r).lookup h = some e) (hlive : e.kind ≠ kindTombstone) :
    (l.push D r t).m.lookup h = some e :=
  lookup_push_kept he (fun hk => absurd hk hlive)

/-- No two keys of a list of calls have the same name hash. -/
def NamesDiffer (D : Digests) (ws : List Write) : Prop :=
  ∀ w ∈ ws, ∀ w' ∈ ws, name D w.bucket w.key = name D w'.bucket w'.key →
    w.bucket = w'.bucket ∧ w.key = w'.key

theorem lastWrite_append (ws : List Write) (w : Write) (bucket key : Bytes) : lastWrite (ws ++ [w]) bucket key =
      if w.bucket = bucket ∧ w.key = key then some w.tag else lastWrite ws bucket key := by
  rw [lastWrite]
  by_cases hw : w.bucket = bucket ∧ w.key = key
  · simp [hw]
  · simp [hw, lastWrite]

theorem exists_of_lastWrite {x : Option Tag} (h : lastWrite ws bucket key = some x) :
    ∃ w ∈ ws, w.bucket = bucket ∧ w.key = key := by
  rw [lastWrite, map_eq_some_iff] at h
  obtain ⟨w, hw, -⟩ := h
  have hmem := mem_filter.mp (mem_of_getLast? hw)
  exact ⟨w, hmem.1, by simpa using hmem.2⟩

theorem run_append_singleton (l : Local) (ws : List Write) (w : Write) :
    l.run D ((ws ++ [w]).map Write.op) = w.op.apply D (l.run D (ws.map Write.op)) := by
  rw [map_append, Local.run, foldl_append]
  rfl

theorem Sane.run (hs : Sane l) (ws : List Write) : Sane (l.run D (ws.map Write.op)) := by
  induction ws using reverseRecOn with
  | nil => exact hs
  | append_singleton ws w ih =>
    rw [run_append_singleton, Write.apply ih.opened]
    exact ih.push w w.t

/-- The index holds what the most recent call on a key recorded. -/
theorem lookup_run (hs : Sane l) (ws : List Write) (hnames : NamesDiffer D ws)
    (hlast : lastWrite ws bucket key = some (some tag)) :
    ∃ when, (l.run D (ws.map Write.op)).m.lookup (name D bucket key) = some ⟨tag, kindPresent, when⟩ := by
  induction ws using reverseRecOn with
  | nil => simp [lastWrite] at hlast
  | append_singleton ws w ih =>
    rw [run_append_singleton, Write.apply (hs.run ws).opened]
    rw [lastWrite_append] at hlast
    by_cases hw : w.bucket = bucket ∧ w.key = key
    · rw [if_pos hw] at hlast
      have htag : w.tag = some tag := some.inj hlast
      have hentry : w.entry D = ⟨name D bucket key, tag, kindPresent, w.t.record⟩ := by
        rw [Write.entry, htag, hw.1, hw.2]
      refine ⟨w.t.record, lookup_push ?_ kindPresent_ne_tombstone⟩
      rw [hentry, applyRecord_of_ne kindPresent_valid, AList.lookup_insert]
    · rw [if_neg hw] at hlast
      have hsub : NamesDiffer D ws := by
        intro a ha b hb
        exact hnames a (mem_append_left _ ha) b (mem_append_left _ hb)
      obtain ⟨when, hwhen⟩ := ih hsub hlast
      obtain ⟨a, ha, hab, hak⟩ := exists_of_lastWrite hlast
      -- the last call is on another key, so on another entry
      have hne : name D bucket key ≠ (w.entry D).name := by
        rw [Write.entry_name, ← hab, ← hak]
        intro heq
        obtain ⟨hb, hk⟩ := hnames a (mem_append_left _ ha) w
          (mem_append_right _ (mem_singleton_self w)) heq
        exact hw ⟨hb ▸ hab, hk ▸ hak⟩
      refine ⟨when, lookup_push ?_ kindPresent_ne_tombstone⟩
      rw [lookup_applyRecord, if_neg hne, hwhen]

/-! ## The two starts after the crash -/

theorem load_ok {path bytes : Bytes} {read : IndexMap × Nat} (hlen : headerSize ≤ bytes.length)
    (h : load D path (some bytes) = .ok read) :
    HeaderOk (bytes.take headerSize) ∧
      read = (replayMap (intact D bytes), (intact D bytes).length) := by
  have h16 : headerSize = 16 := rfl
  rw [load, if_neg (by omega)] at h
  split at h
  · simp at h
  rename_i hmagic
  split at h
  · simp at h
  rename_i hversion
  split at h
  · simp at h
  rename_i hwidth
  refine ⟨⟨?_, ?_, ?_, ?_⟩, ?_⟩
  · rw [length_take]; omega
  · rw [take_take]
    exact not_not.mp hmagic
  · rw [← not_not.mp hversion, getD_eq_getElem?_getD, getD_eq_getElem?_getD, getElem?_take_of_lt (by omega)]
  · rw [← not_not.mp hwidth, extract_eq_take_drop, drop_take, take_take]
    rfl
  · rw [intact, if_neg (by omega)]
    exact (Except.ok.inj h).symm

/-- The index the first start after the crash sets up. -/
structure AfterCrash (D : Digests) (file : Bytes) (l : Local) : Prop where
  opened : l.closed = false
  m : l.m = replayMap (intact D file)
  records : l.records = (intact D file).length
  front : ∃ front, l.file.drop headerSize = front ++ l.unread ∧
    (recordFormat D).Reads front (intact D file)
  long : headerSize ≤ l.file.length
  clean : l.unread = [] → leftover D file = [] ∧ HeaderOk (l.file.take headerSize)
  torn : l.unread ≠ [] → leftover D file = [] → intact D file = []

variable {file : Bytes}

theorem afterCrash_short (hlen : file.length < headerSize) (h : openIndex D opts now (some file) = .ok l) :
    AfterCrash D file l := by
  have ho := openIndex_ok h
  have hintact : intact D file = [] := if_pos hlen
  have hleft : leftover D file = [] := if_pos hlen
  have hload := ho.loaded
  rw [load, if_pos hlen] at hload
  have hm : l.m = ∅ := (congrArg Prod.fst (Except.ok.inj hload)).symm
  have hn : l.records = 0 := (congrArg Prod.snd (Except.ok.inj hload)).symm
  have hfile : l.file = file ++ headerBytes now := by
    rw [ho.bytes, if_pos hn, getD_some]
  have hunread : l.unread = l.file.drop headerSize := by
    rw [Local.unread, hn, Nat.mul_zero, Nat.add_zero]
  have hflen : l.file.length = file.length + headerSize := by
    rw [hfile, length_append, headerBytes_length]
  refine ⟨ho.opened, ?_, ?_, ⟨[], ?_, ?_⟩, by omega, ?_, fun _ _ => hintact⟩
  · rw [hm, hintact]; rfl
  · rw [hn, hintact]; rfl
  · rw [hunread, nil_append]
  · rw [hintact]; exact Format.reads_nil
  · intro hnil
    have hempty : file = [] := by
      have hdrop := congrArg length (hunread.symm.trans hnil)
      rw [length_drop, length_nil] at hdrop
      exact length_eq_zero_iff.mp (by omega)
    refine ⟨hleft, ?_⟩
    rw [hfile, hempty, nil_append]
    exact headerOk now

theorem afterCrash_long (hlen : headerSize ≤ file.length) (h : openIndex D opts now (some file) = .ok l) :
    AfterCrash D file l := by
  have ho := openIndex_ok h
  obtain ⟨hheader, hread⟩ := load_ok hlen ho.loaded
  have hm : l.m = replayMap (intact D file) := congrArg Prod.fst hread
  have hn : l.records = (intact D file).length := congrArg Prod.snd hread
  have hintact : intact D file = ((recordFormat D).replay (file.drop headerSize)).1 := if_neg (by omega)
  have hleft : leftover D file = ((recordFormat D).replay (file.drop headerSize)).2 := if_neg (by omega)
  obtain ⟨front, hsplit, hfront, -, hreads⟩ := Format.replay_split
    (file.drop headerSize)
  rw [← hintact] at hfront hreads
  rw [← hleft] at hsplit
  -- what `Open` appended, if anything
  obtain ⟨extra, hfile, hextra⟩ : ∃ extra, l.file = file ++ extra ∧
      (extra = [] ∨ intact D file = [] ∧ extra = headerBytes now) := by
    by_cases h0 : l.records = 0
    · refine ⟨headerBytes now, by rw [ho.bytes, if_pos h0]; rfl, .inr ⟨?_, rfl⟩⟩
      exact length_eq_zero_iff.mp (hn.symm.trans h0)
    · exact ⟨[], by rw [ho.bytes, if_neg h0, append_nil]; rfl, .inl rfl⟩
  have hdrop : l.file.drop headerSize = front ++ (leftover D file ++ extra) := by
    rw [hfile, drop_append_of_le_length hlen, hsplit, append_assoc]
  have hunread : l.unread = leftover D file ++ extra := by
    rw [Local.unread, ← drop_drop, hdrop, hn]
    exact drop_left' hfront
  refine ⟨ho.opened, hm, hn, ⟨front, ?_, hreads⟩, ?_, ?_, ?_⟩
  · rw [hdrop, hunread]
  · rw [hfile, length_append]; omega
  · intro hnil
    rw [hunread] at hnil
    refine ⟨(append_eq_nil_iff.mp hnil).1, ?_⟩
    rw [hfile, take_append_of_le_length hlen]
    exact hheader
  · intro hne hl
    rcases hextra with he | ⟨hi, -⟩
    · exact absurd (by rw [hunread, hl, he]; rfl) hne
    · exact hi

theorem afterCrash (h : openIndex D opts now (some file) = .ok l) : AfterCrash D file l := by
  by_cases hlen : file.length < headerSize
  · exact afterCrash_short hlen h
  · exact afterCrash_long (by omega) h

theorem AfterCrash.sane (h : AfterCrash D file l) : Sane l where
  opened := h.opened
  kind := by
    intro n e he
    rw [h.m] at he
    exact replayMap_kind _ he

theorem AfterCrash.aligned (h : AfterCrash D file l) (hclean : l.unread = []) : Aligned D l := by
  obtain ⟨front, hdrop, hreads⟩ := h.front
  rw [hclean, append_nil] at hdrop
  refine ⟨h.opened, l.file.take headerSize, front, intact D file, (h.clean hclean).2, ?_, hreads,
    h.records.symm, fun n => by rw [h.m]⟩
  rw [← hdrop, take_append_drop]

/-! ## False rollbacks -/

/-- Every key whose most recent call was a `Record` passes a check of the recorded tag. -/
def NeverFalse (D : Digests) (l : Local) (ws : List Write) : Prop :=
  ∀ bucket key tag t, lastWrite ws bucket key = some (some tag) →
    ∃ v, (l.check D bucket key tag t).1 = .ok v ∧ v.ok = true

/-- What the second start knows about the recorded keys does not contradict the records. -/
def AllAgree (D : Digests) (m : IndexMap) (ws : List Write) : Prop :=
  ∀ bucket key tag, lastWrite ws bucket key = some (some tag) →
    Agrees (m.lookup (name D bucket key)) tag

/-- The torn bytes and the first record behind them make a block that does not checksum. -/
def TearDetected (D : Digests) (l : Local) (ws : List Write) : Prop :=
  ∀ w, ws.head? = some w → l.unread ≠ [] →
    parseRecord D ((l.unread ++ recordBytes D (w.entry D)).take recordSize) = none

theorem Entry.verdict_ok : (e.verdict tag).ok = true ↔ e.kind ≠ kindTombstone ∧ e.tag = tag := by
  unfold Entry.verdict
  split
  next hk =>
    simp [Verdict.ok, hk]
  next hk =>
    split
    next ht =>
      simp [Verdict.ok, hk, ht]
    next ht =>
      simp [Verdict.ok, ht]

theorem neverFalse_iff (hopen : l.closed = false) (ws : List Write) : NeverFalse D l ws ↔ AllAgree D l.m ws := by
  have hcheck : ∀ bucket key tag t, (∃ v, (l.check D bucket key tag t).1 = .ok v ∧ v.ok = true) ↔
      Agrees (l.m.lookup (name D bucket key)) tag := by
    intro bucket key tag t
    rw [Local.check, if_neg (by simp [hopen])]
    split
    next hnone =>
      rw [hnone]
      simp [Agrees, Verdict.ok]
    next got hgot =>
      rw [hgot]
      simp only [Except.ok.injEq, exists_eq_left', Entry.verdict_ok, Agrees, some.injEq,
        forall_eq']
  constructor
  · intro h bucket key tag hlast
    exact (hcheck bucket key tag someClock).mp (h _ _ _ _ hlast)
  · intro h bucket key tag t hlast
    exact (hcheck bucket key tag t).mpr (h bucket key tag hlast)

/-- On an aligned file, the second start knows every recorded tag. -/
theorem Aligned.allAgree (hs : Sane l) (ws : List Write) (ha : Aligned D (l.run D (ws.map Write.op)))
    (hnames : NamesDiffer D ws) (h : reopen D opts now (l.run D (ws.map Write.op)) = .ok l₂) : AllAgree D l₂.m ws := by
  have ho := openIndex_ok h
  obtain ⟨next, hnext, -, hmap⟩ := ha.reopens ho.key ho.path now
  have heq : next = l₂ := Except.ok.inj (hnext.symm.trans h)
  subst heq
  intro bucket key tag hlast e he
  obtain ⟨when, hwhen⟩ := lookup_run hs ws hnames hlast
  rw [hmap, hwhen] at he
  cases he
  exact ⟨kindPresent_ne_tombstone, rfl⟩

/-- Behind torn bytes nothing is read, so the second start knows what the first one did. -/
theorem AfterCrash.restores (hc : AfterCrash D file l) {w : Write} (htorn : l.unread ≠ [])
    (hnot : ¬ Overgrown D l.m l.records (w :: ws)) (hdetect : TearDetected D l (w :: ws))
    (h : reopen D opts now (l.run D ((w :: ws).map Write.op)) = .ok l₂) :
    l₂.m = replayMap (intact D file) := by
  have hfile := run_appends (w :: ws) hc.sane hnot
  have ho := openIndex_ok h
  obtain ⟨front, hdrop, hreads⟩ := hc.front
  have hlong : headerSize ≤ (l.run D ((w :: ws).map Write.op)).close.file.length := by
    show headerSize ≤ (l.run D ((w :: ws).map Write.op)).file.length
    rw [hfile, length_append]
    exact hc.long.trans (Nat.le_add_right _ _)
  have hread := congrArg Prod.fst (load_ok hlong ho.loaded).2
  have hstuck : (recordFormat D).Stuck (l.unread ++ (recordFormat D).encodeAll ((w :: ws).map (Write.entry D))) := by
    refine .inr ?_
    have hblock : (l.unread ++ (recordFormat D).encodeAll ((w :: ws).map (Write.entry D))).take recordSize
        = (l.unread ++ recordBytes D (w.entry D)).take recordSize := by
      rw [map_cons, Format.encodeAll_cons, ← append_assoc]
      refine take_append_of_le_length ?_
      show recordSize ≤ (l.unread ++ recordBytes D (w.entry D)).length
      rw [length_append, recordBytes_length]
      omega
    rw [show (recordFormat D).width = recordSize from rfl, hblock]
    exact hdetect w rfl htorn
  have hintact : intact D (l.run D ((w :: ws).map Write.op)).close.file = intact D file := by
    rw [intact, if_neg (by omega)]
    show ((recordFormat D).replay ((l.run D ((w :: ws).map Write.op)).file.drop headerSize)).1 = _
    rw [hfile, drop_append_of_le_length hc.long, hdrop, append_assoc,
      hreads.replay_stuck hstuck]
  rw [← hintact]
  exact hread

/-- **When a crash turns into a false rollback.**

A file is cut anywhere and opened, takes any `Record` and `Forget` calls, is closed and
opened again. Then every key whose most recent call was a `Record` passes its check if and
only if the cut left no part of a record, or the file was compacted after the crash, or
the records before the cut say nothing else about those keys. -/
theorem crash_never_false_iff {opts : Options} {now later : Unix} {file : Bytes} {cut : Nat}
    {l l₂ : Local} (ws : List Write)
    (hopen : openIndex D opts now (some (file.take cut)) = .ok l)
    (hclose : reopen D opts later (l.run D (ws.map Write.op)) = .ok l₂)
    (hnames : NamesDiffer D ws) (hdetect : TearDetected D l ws) :
    NeverFalse D l₂ ws ↔
      leftover D (file.take cut) = [] ∨
      Overgrown D (replayMap (intact D (file.take cut))) (intact D (file.take cut)).length ws ∨
      AllAgree D (replayMap (intact D (file.take cut))) ws := by
  have hc := afterCrash hopen
  rw [neverFalse_iff (openIndex_ok hclose).opened]
  by_cases hover : Overgrown D l.m l.records ws
  · -- the file was written anew
    have ha := run_overgrown ws hc.sane hover
    rw [hc.m, hc.records] at hover
    exact iff_of_true (ha.allAgree hc.sane ws hnames hclose) (.inr (.inl hover))
  · by_cases hclean : l.unread = []
    · -- the records of the calls stand on their boundaries
      have ha := (hc.aligned hclean).run (ws.map Write.op)
      exact iff_of_true (ha.allAgree hc.sane ws hnames hclose) (.inl (hc.clean hclean).1)
    · cases ws with
      | nil =>
        have hnone : ∀ m, AllAgree D m [] := by
          intro m bucket key tag hlast
          simp [lastWrite] at hlast
        exact iff_of_true (hnone _) (.inr (.inr (hnone _)))
      | cons w ws =>
        rw [hc.restores hclean hover hdetect hclose]
        rw [hc.m, hc.records] at hover
        constructor
        · intro h
          exact .inr (.inr h)
        · intro h
          rcases h with h | h | h
          · -- nothing was known before the cut
            intro bucket key tag _ e he
            rw [hc.torn hclean h] at he
            simp [replayMap] at he
          · exact absurd h hover
          · exact h

/-! ## One key, recorded before and after a crash -/

def tagOf (b : UInt8) : Tag := ⟨replicate tagSize b, length_replicate⟩

def padWrite (b : UInt8) : Write := ⟨[0x62], [0x6B], some (tagOf b), someClock⟩

def padFile : Bytes :=
  headerBytes epoch ++ recordBytes padDigests ((padWrite 1).entry padDigests) ++
    recordBytes padDigests ((padWrite 2).entry padDigests)

theorem namesDiffer_singleton (w : Write) : NamesDiffer D [w] := by
  intro a ha b hb _
  rw [mem_singleton.mp ha, mem_singleton.mp hb]
  exact ⟨rfl, rfl⟩

/-- Cut after the first record: the second start knows what was recorded after the crash. -/
theorem crash_on_a_boundary : ∃ l l₂, openIndex padDigests padOptions epoch (some (padFile.take 64)) = .ok l ∧
      reopen padDigests padOptions epoch (l.run padDigests ([padWrite 3].map Write.op)) = .ok l₂ ∧
      NeverFalse padDigests l₂ [padWrite 3] := by
  obtain ⟨l, hopen, hclean⟩ : ∃ l,
      openIndex padDigests padOptions epoch (some (padFile.take 64)) = .ok l ∧ l.unread = [] :=
    ⟨_, rfl, by decide +kernel⟩
  have ha := ((afterCrash hopen).aligned hclean).run ([padWrite 3].map Write.op)
  obtain ⟨l₂, hclose, -⟩ := ha.reopens (openIndex_ok hopen).key (openIndex_ok hopen).path epoch
  have hdetect : TearDetected padDigests l [padWrite 3] := fun w _ hne => absurd hclean hne
  refine ⟨l, l₂, hopen, hclose, ?_⟩
  exact (crash_never_false_iff [padWrite 3] hopen hclose (namesDiffer_singleton _) hdetect).mpr
    (.inl (by decide +kernel))

/-- Cut ten bytes into the second record: the tag recorded after the crash is refused. -/
theorem crash_inside_a_record : ∃ l l₂, openIndex padDigests padOptions epoch (some (padFile.take 74)) = .ok l ∧
      reopen padDigests padOptions epoch (l.run padDigests ([padWrite 3].map Write.op)) = .ok l₂ ∧
      NamesDiffer padDigests [padWrite 3] ∧ TearDetected padDigests l [padWrite 3] ∧
      lastWrite [padWrite 3] [0x62] [0x6B] = some (some (tagOf 3)) ∧
      (l₂.check padDigests [0x62] [0x6B] (tagOf 3) someClock).1 = .ok .stale := by
  obtain ⟨l, hopen, htear, hstale⟩ : ∃ l, openIndex padDigests padOptions epoch (some (padFile.take 74)) = .ok l ∧
      parseRecord padDigests
        ((l.unread ++ recordBytes padDigests ((padWrite 3).entry padDigests)).take recordSize) = none ∧
      (reopen padDigests padOptions epoch (l.run padDigests ([padWrite 3].map Write.op))).toOption.map
        (fun l₂ => (l₂.check padDigests [0x62] [0x6B] (tagOf 3) someClock).1) =
          some (.ok .stale) := ⟨_, rfl, by decide +kernel, by decide +kernel⟩
  cases hclose : reopen padDigests padOptions epoch (l.run padDigests ([padWrite 3].map Write.op)) with
  | error e =>
    rw [hclose] at hstale
    simp [Except.toOption] at hstale
  | ok l₂ =>
    rw [hclose] at hstale
    refine ⟨l, l₂, hopen, hclose, namesDiffer_singleton _, ?_, by decide +kernel,
      some.inj hstale⟩
    intro w hw _
    cases hw
    exact htear

end BlindBucket.Freshness
