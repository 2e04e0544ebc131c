import BlindBucket.Freshness.Survives

/-!
# Compaction of the freshness index

The file of an index never holds more records than twice its live entries and `compactFloor`, and nobody can
tell that it was compacted, but for tombstones older than the retention. The index without compaction is
abstract: one entry for each name, which a call replaces.
-/

namespace BlindBucket.Freshness

open List Option

def Op.name (D : Digests) : Op → NameHash
  | .check bucket key _ _ | .record bucket key _ _ | .forget bucket key _ | .invalidate bucket key _ =>
    Freshness.name D bucket key

def Op.clock : Op → Clock
  | .check _ _ _ t | .record _ _ _ t | .forget _ _ t | .invalidate _ _ t => t

/-- What a call makes of the entry of its name. -/
def Op.entry (known : Option Entry) : Op → Option Entry
  | .check _ _ tag t => some (known.getD ⟨tag, kindPresent, t.record⟩)
  | .record _ _ tag t => some ⟨tag, kindPresent, t.record⟩
  | .forget _ _ t => some ⟨zeroTag, kindTombstone, t.record⟩
  | .invalidate .. => none

/-- One call on an index that is never compacted. -/
def Op.plain (D : Digests) (m : NameHash → Option Entry) (op : Op) : NameHash → Option Entry :=
  fun h => if h = op.name D then op.entry (m h) else m h

/-- A new index that is never compacted, after a sequence of calls. -/
def plainRun (D : Digests) (ops : List Op) : NameHash → Option Entry := ops.foldl (Op.plain D) fun _ => none

/-- What `Check` answers about a tag, by the entry of its name. -/
def verdictOf (known : Option Entry) (tag : Tag) : Verdict := known.elim .unknown fun e => e.verdict tag

/-- The call writes `r`, with which the file outgrows the map. -/
def Compacts (D : Digests) (l : Local) (op : Op) (r : Record) : Prop :=
  op.apply D l = l.push D r op.clock ∧ 2 * (applyRecord l.m r).entries.length + compactFloor < l.records + 1

/-- What a compaction at `t` keeps of an entry: all but a tombstone older than the retention. -/
def Local.keepsAt (l : Local) (t : Clock) (e : Entry) : Bool :=
  !(e.kind == kindTombstone && decide ((e.when.1 : Int) < t.cutoff.1 - l.retentionSeconds))

/-- The tombstone of a name that had expired when one of the calls on `l` compacted the file. -/
def Expired (D : Digests) (l : Local) (ops : List Op) (h : NameHash) (e : Entry) : Prop :=
  ∃ before op after r, ops = before ++ op :: after ∧ Compacts D (l.run D before) op r
    ∧ plainRun D (before ++ [op]) h = some e ∧ (l.run D before).keepsAt op.clock e = false

variable {D : Digests} {l : Local}

theorem push_bounded (l : Local) (r : Record) (t : Clock) :
    (l.push D r t).records ≤ 2 * (l.push D r t).m.entries.length + compactFloor := by
  rw [Local.push, Local.maintainLocked]
  split
  · show (keptEntries _ _).entries.length ≤ 2 * (keptEntries _ _).entries.length + compactFloor
    omega
  next hsmall => exact Nat.not_lt.mp hsmall

theorem run_bounded (ha : Aligned D l) (hl : l.records ≤ 2 * l.m.entries.length + compactFloor) (ops : List Op) :
    (l.run D ops).records ≤ 2 * (l.run D ops).m.entries.length + compactFloor := by
  induction ops generalizing l with
  | nil => exact hl
  | cons op ops ih =>
    refine ih (ha.apply op) ?_
    rcases Op.apply_cases ha.opened op with h | ⟨r, t, h⟩
    · rw [h]
      exact hl
    · rw [h]
      exact push_bounded l r t

/-- A push takes the record into the map, and drops what has expired if the file has outgrown the map. -/
theorem push_lookup (l : Local) (r : Record) (t : Clock) (h : NameHash) : (l.push D r t).m.lookup h
    = if 2 * (applyRecord l.m r).entries.length + compactFloor < l.records + 1 then
        ((applyRecord l.m r).lookup h).filter (l.keepsAt t)
      else (applyRecord l.m r).lookup h := by
  rw [Local.push, Local.maintainLocked]
  split
  next hbig => exact (lookup_keptEntries _ _ h).trans (if_pos hbig).symm
  next hsmall => exact (if_neg hsmall).symm

theorem plain_eq_self {op : Op} {m : NameHash → Option Entry} (h : op.entry (m (op.name D)) = m (op.name D))
    (n : NameHash) : op.plain D m n = m n := by
  rw [Op.plain]
  split
  next hn => rw [hn, h]
  · rfl

/-- A call of an open index changes nothing or pushes one record; before maintenance the map is then what it
is without compaction. -/
theorem apply_plain (hopen : l.closed = false) (op : Op) :
    (op.apply D l = l ∧ ∀ h, op.plain D l.m.lookup h = l.m.lookup h)
    ∨ ∃ r, op.apply D l = l.push D r op.clock
      ∧ ∀ h, op.plain D l.m.lookup h = (applyRecord l.m r).lookup h := by
  have hnot : ¬ l.closed = true := by simp [hopen]
  cases op with
  | check bucket key tag t =>
    rw [Op.apply, Local.check, if_neg hnot]
    cases hk : l.m.lookup (name D bucket key) with
    | none =>
      refine .inr ⟨_, appendLocked_eq_push kindPresent_valid, fun h => ?_⟩
      rw [lookup_applyRecord]
      by_cases hh : h = name D bucket key
      · rw [if_pos hh, hh]
        exact (if_pos rfl).trans (congrArg (Op.entry · (.check bucket key tag t)) hk)
      · rw [if_neg hh]
        exact if_neg hh
    | some e => exact .inl ⟨rfl, plain_eq_self (by rw [Op.name, hk]; rfl)⟩
  | record bucket key tag t =>
    rw [Op.apply, Local.record, if_neg hnot]
    refine .inr ⟨_, appendLocked_eq_push kindPresent_valid, fun h => ?_⟩
    rw [lookup_applyRecord]
    rfl
  | forget bucket key t =>
    rw [Op.apply, Local.forget, if_neg hnot]
    refine .inr ⟨_, appendLocked_eq_push kindTombstone_valid, fun h => ?_⟩
    rw [lookup_applyRecord]
    rfl
  | invalidate bucket key t =>
    rw [Op.apply, Local.invalidate, if_neg hnot]
    cases hk : l.m.lookup (name D bucket key) with
    | none => exact .inl ⟨rfl, plain_eq_self (by rw [Op.name, hk]; rfl)⟩
    | some e =>
      refine .inr ⟨⟨name D bucket key, zeroTag, kindInvalid, t.record⟩, rfl, fun h => ?_⟩
      rw [lookup_applyRecord]
      rfl

/-- The map and the one without compaction differ at most by tombstones that had expired at a compaction. -/
theorem run_lookup (ha : Aligned D l) (hempty : ∀ h, l.m.lookup h = none) (ops : List Op) (h : NameHash) :
    (l.run D ops).m.lookup h = plainRun D ops h ∨ ∃ e, plainRun D ops h = some e ∧ Expired D l ops h e := by
  induction ops using List.reverseRecOn generalizing h with
  | nil => exact .inl (hempty h)
  | append_singleton ops op ih =>
    have hrun : l.run D (ops ++ [op]) = op.apply D (l.run D ops) := by rw [Local.run, foldl_concat]; rfl
    have hplain : plainRun D (ops ++ [op]) = op.plain D (plainRun D ops) := by rw [plainRun, foldl_concat]; rfl
    have hlater : ∀ e, Expired D l ops h e → Expired D l (ops ++ [op]) h e := by
      rintro e ⟨before, op', after, r, rfl, he⟩
      exact ⟨before, op', after ++ [op], r, by simp, he⟩
    -- before maintenance: a call treats equal entries alike, and `Check` keeps a tombstone
    have hcall : op.plain D (l.run D ops).m.lookup h = plainRun D (ops ++ [op]) h
        ∨ ∃ e, plainRun D (ops ++ [op]) h = some e ∧ Expired D l ops h e := by
      rw [hplain, Op.plain, Op.plain]
      rcases ih h with heq | ⟨e, he, hexp⟩
      · rw [heq]
        exact .inl rfl
      · rw [he]
        split
        · cases op with
          | check bucket key tag t => exact .inr ⟨e, rfl, hexp⟩
          | record bucket key tag t => exact .inl rfl
          | forget bucket key t => exact .inl rfl
          | invalidate bucket key t => exact .inl rfl
        · exact .inr ⟨e, rfl, hexp⟩
    rw [hrun]
    rcases hcall with heq | ⟨e, he, hexp⟩
    · rcases apply_plain (ha.run ops).opened op with ⟨hsame, hkeep⟩ | ⟨r, hr, hrec⟩
      · rw [hsame, ← hkeep, heq]
        exact .inl rfl
      · rw [hr]
        rw [push_lookup, ← hrec, heq]
        split
        next hbig =>
          cases he : plainRun D (ops ++ [op]) h with
          | none => exact .inl rfl
          | some e =>
            rw [filter_some]
            split
            · exact .inl rfl
            next hdrop => exact .inr ⟨e, rfl, ops, op, [], r, rfl, ⟨hr, hbig⟩, he, by simpa using hdrop⟩
        · exact .inl rfl
    · exact .inr ⟨e, he, hlater e hexp⟩

/-- **The file stays small, and its compaction is invisible.**

From a new index, after any calls: the file replays to the map, from at most twice as many records as the map
has entries and `compactFloor`; a call that compacts leaves a file that replays to the map before the
compaction without the tombstones older than the retention; and `Check` answers as without any compaction,
unless that answer rests on a tombstone that had expired at one. -/
theorem compaction_invisible {opts : Options} {now : Unix} (hnew : openIndex D opts now none = .ok l) (ops : List Op) :
    (∃ m n, load D opts.path (some (l.run D ops).file) = .ok (m, n)
      ∧ n ≤ 2 * (l.run D ops).m.entries.length + compactFloor ∧ ∀ h, m.lookup h = (l.run D ops).m.lookup h)
    ∧ (∀ op r, Compacts D (l.run D ops) op r →
      ∃ m n, load D opts.path (some (op.apply D (l.run D ops)).file) = .ok (m, n)
        ∧ ∀ h, m.lookup h = ((applyRecord (l.run D ops).m r).lookup h).filter ((l.run D ops).keepsAt op.clock))
    ∧ ∀ bucket key tag t, ((l.run D ops).check D bucket key tag t).1
        = .ok (verdictOf (plainRun D ops (name D bucket key)) tag)
      ∨ ∃ e, plainRun D ops (name D bucket key) = some e ∧ Expired D l ops (name D bucket key) e := by
  have ha := aligned_new hnew
  have hrun := ha.run ops
  have hread := Except.ok.inj (openIndex_ok hnew).loaded
  refine ⟨?_, ?_, ?_⟩
  · obtain ⟨m, hload, hm⟩ := hrun.load opts.path
    have hzero : l.records = 0 := (congrArg Prod.snd hread).symm
    exact ⟨m, _, hload, run_bounded ha (by omega) ops, hm⟩
  · intro op r hc
    obtain ⟨m, hload, hm⟩ := (hrun.apply op).load opts.path
    refine ⟨m, _, hload, fun h => ?_⟩
    rw [hm, hc.1, push_lookup, if_pos hc.2]
  · intro bucket key tag t
    have hm : l.m = ∅ := (congrArg Prod.fst hread).symm
    have hempty : ∀ h, l.m.lookup h = none := fun h => by rw [hm]; rfl
    refine (run_lookup ha hempty ops (name D bucket key)).imp (fun heq => ?_) id
    rw [← heq, Local.check, if_neg (by simp [hrun.opened])]
    cases (l.run D ops).m.lookup (name D bucket key) with
    | none => rfl
    | some e => rfl

/-! ## A run that compacts -/

def rewrite : Op := .record [0x62] [0x6B] zeroTag someClock

def rewritten : Record := ⟨name padDigests [0x62] [0x6B], zeroTag, kindPresent, epoch⟩

/-- A new index to which one object was written `n` times. -/
def rewrites (n : Nat) : Local := padIndex.run padDigests (replicate n rewrite)

theorem apply_rewrite (hopen : l.closed = false) :
    rewrite.apply padDigests l = l.push padDigests rewritten someClock := by
  rw [rewrite, Op.apply, Local.record, if_neg (by simp [hopen])]
  exact appendLocked_eq_push kindPresent_valid

theorem rewrites_spec (n : Nat) (h : n ≤ compactFloor + 2) : (rewrites n).records = n ∧
    (rewrites n).closed = false ∧ applyRecord (rewrites n).m rewritten = applyRecord ∅ rewritten := by
  induction n with
  | zero => exact ⟨rfl, rfl, rfl⟩
  | succ n ih =>
    obtain ⟨hrecords, hopen, hm⟩ := ih (by omega)
    have hcall : rewrites (n + 1) = (rewrites n).push padDigests rewritten someClock := by
      rw [rewrites, replicate_succ', Local.run, foldl_concat]
      exact apply_rewrite hopen
    have happends : Appends padDigests (rewrites n) rewritten (rewrites (n + 1)) := by
      rw [hcall]
      refine push_appends ?_
      rw [hm, hrecords]
      show n + 1 ≤ 2 * 1 + compactFloor
      omega
    rw [happends.records, happends.closed, happends.m, hm, hrecords]
    exact ⟨rfl, hopen, rfl⟩

/-- The write after which the file holds more than twice the one entry and `compactFloor` records. -/
theorem compaction_invisible_rewrites : openIndex padDigests padOptions epoch none = .ok padIndex
    ∧ Compacts padDigests (rewrites (compactFloor + 2)) rewrite rewritten
    ∧ ∃ m n, load padDigests padOptions.path
        (some (rewrite.apply padDigests (rewrites (compactFloor + 2))).file) = .ok (m, n)
      ∧ m.lookup rewritten.name = some ⟨zeroTag, kindPresent, epoch⟩ := by
  obtain ⟨hrecords, hopen, hm⟩ := rewrites_spec _ (Nat.le_refl _)
  have hcompacts : Compacts padDigests (rewrites (compactFloor + 2)) rewrite rewritten := by
    refine ⟨apply_rewrite hopen, ?_⟩
    rw [hm, hrecords]
    decide
  obtain ⟨m, n, hload, hlookup⟩ :=
    (compaction_invisible openIndex_pad (replicate (compactFloor + 2) rewrite)).2.1 _ _ hcompacts
  refine ⟨openIndex_pad, hcompacts, m, n, hload, (hlookup _).trans ?_⟩
  rw [← rewrites, hm]
  rfl

end BlindBucket.Freshness
