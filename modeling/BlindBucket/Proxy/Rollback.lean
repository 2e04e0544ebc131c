import BlindBucket.Proxy.Written

/-!
# Rollback detection

One gateway with its index, requests one after another, and a provider that answers any
question with what was once written, under whatever key, and any request for bytes with
whatever it likes. A `GET`, whole or ranged, asks the index about the salts of what it is
about to release, so what it releases is a beginning of the range that was asked for, in
the plaintext of the last write of the key.

Two requests are not covered. The source of a copied part is read without asking the
index. And a completion believes the `HEAD` that follows it: shown the manifest it
observed before, it takes itself for discarded and is not recorded. A third gap is one of
the format: a manifest of the old version has no salts to ask about.
-/

namespace BlindBucket

open ByteIo BlindBucket.Stream BlindBucket.Freshness List

/-! ## The requests -/

/-- `observedManifest`, by what the `HEAD` was answered. -/
def observedManifest (G : Gateway) (head : Except UpErr ObjectInfo) : Option Manifest.ID :=
  match head with
  | .error _ => none
  | .ok info =>
    match parseObjectMeta G info.metadata with
    | .error _ => none
    | .ok m => m.manifestID

/-- `replacedSince`, by what the `HEAD` was answered. -/
def replacedSince (G : Gateway) (head : Except UpErr ObjectInfo) (observed : Manifest.ID) : Bool :=
  match head with
  | .error e => e = .notFound
  | .ok info =>
    match parseObjectMeta G info.metadata with
    | .error _ => false
    | .ok m => m.manifestID ≠ some observed

/-- Whether step 5 of `completeMultipartUpload` takes the completion of `id` for discarded, by the
answers to the `HEAD` of step 2 and to its own. -/
def discarded (G : Gateway) (id : Manifest.ID) (before after : Except UpErr ObjectInfo) : Bool :=
  match observedManifest G before with
  | none => false
  | some observed => observed ≠ id ∧ replacedSince G after observed = false

variable {G : Gateway}

/-- The last acknowledged write or delete of a key. -/
inductive LastOp (V : Vault G) (k : ObjKey) where
  | wrote (o : Written V k)
  | deleted

/-- Plaintext that left the gateway, for what was asked, and what the last write of its key was
then. -/
structure Release (V : Vault G) where
  key : ObjKey
  last : Option (LastOp V key)
  asked : Asked
  bytes : Bytes

/-- It is a beginning of what was asked for in the last write; nothing is released after a
delete. -/
def Release.Current {V : Vault G} (r : Release V) : Prop :=
  match r.last with
  | none => True
  | some .deleted => r.bytes = []
  | some (.wrote o) => r.bytes <+: r.asked.of o.plain

/-- A gateway with its index. What was written last and what was released is remembered for the
statement only. -/
structure Rolling (V : Vault G) where
  fresh : Option Local
  last : (k : ObjKey) → Option (LastOp V k)
  released : List (Release V)

variable (σ : Type) [ByteReader σ GoErr] [LawfulReader σ]

/-- A request, with the answers of the provider and the buffers the plaintext is read with. -/
inductive RollAct (V : Vault G) where
  | putObject (k : ObjKey) (o : Written V k) (single : o.manifest = none) (t : Clock)
  | complete (k : ObjKey) (o : Written V k) (id : Manifest.ID) (body : Bytes)
      (multi : o.manifest = some (id, body)) (before after : Except UpErr ObjectInfo) (t : Clock)
  | deleteObject (k : ObjKey) (t : Clock)
  /-- The entries that the provider reports as deleted. -/
  | deleteObjects (bucket : Bytes) (reported : List (Bytes × Clock))
  | getObject (k : ObjKey) (P : Provider σ) (ks : List Nat) (t : Clock)
  | getRange (k : ObjKey) (up : Upstream σ) (spec : Bytes) (ks : List Nat) (t : Clock)
  | uploadPartCopy (src : ObjKey) (up : Upstream σ) (spec : Bytes) (ks : List Nat)

variable {σ}

namespace Rolling

variable {V : Vault G} (D : Digests) (H : Sha256)

/-- The question to the index and, if it lets the read through, the release. -/
def check (s : Rolling V) (k : ObjKey) (salts : List Salt) (t : Clock) (asked : Asked)
    (out : Bytes) : Rolling V :=
  match checkFreshness D H s.fresh k.1 k.2 salts t with
  | (some _, fresh) => { s with fresh := fresh }
  | (none, fresh) => { s with fresh := fresh, released := ⟨k, s.last k, asked, out⟩ :: s.released }

def serve (s : Rolling V) : RollAct σ V → Rolling V
  | .putObject k o _ t =>
    { s with
      fresh := recordFreshness D H s.fresh k.1 k.2 o.salts t
      last := Function.update s.last k (some (.wrote o)) }
  | .complete k o id _ _ before after t =>
    { s with
      fresh := if discarded G id before after then s.fresh
        else recordFreshness D H s.fresh k.1 k.2 o.salts t
      last := Function.update s.last k (some (.wrote o)) }
  | .deleteObject k t =>
    { s with
      fresh := forgetFreshness D s.fresh k.1 k.2 t
      last := Function.update s.last k (some .deleted) }
  | .deleteObjects bucket reported =>
    { s with
      fresh := reported.foldl (fun fresh e => forgetFreshness D fresh bucket e.1 e.2) s.fresh
      last := reported.foldl (fun last e => Function.update last (bucket, e.1) (some .deleted)) s.last }
  | .getObject k P ks t =>
    match openObject G P k.1 k.2 with
    | .error _ => s
    | .ok (salts, resp) => s.check D H k salts t .whole (readMany resp.body ks).out
  | .getRange k up spec ks t =>
    match openObjectRange G up k.1 k.2 spec with
    | .error _ => s
    | .ok (salts, resp) => s.check D H k salts t (.range spec) (readMany resp.body ks).out
  | .uploadPartCopy k up spec ks =>
    match uploadPartCopy G up k.1 k.2 spec with
    | .error _ => s
    | .ok src =>
      { s with released := ⟨k, s.last k, .source spec, (readMany src.body ks).out⟩ :: s.released }

def serveAll (s : Rolling V) (acts : List (RollAct σ V)) : Rolling V := acts.foldl (serve D H) s

end Rolling

/-! ## What is assumed, and what is not covered -/

/-- The readings of a clock between `lo` and `hi`. -/
structure Freshness.Clock.Within (lo hi : Int) (t : Clock) : Prop where
  record : lo ≤ t.record.1
  cutoff : (t.cutoff.1 : Int) ≤ hi

/-- The keys that a request names are in `K`, its clock stands between `lo` and `hi`, what it writes
is in the archive, the provider answers from there, and the salts that it writes or is answered are
a list in `T`. -/
def RollAct.Within {V : Vault G} (A : Archive V) (K : Set ObjKey) (T : Set (List Salt))
    (lo hi : Int) : RollAct σ V → Prop
  | .putObject k o _ t => k ∈ K ∧ ⟨k, o⟩ ∈ A.writes ∧ o.salts ∈ T ∧ t.Within lo hi
  | .complete k o _ _ _ _ _ t => k ∈ K ∧ ⟨k, o⟩ ∈ A.writes ∧ o.salts ∈ T ∧ t.Within lo hi
  | .deleteObject k t => k ∈ K ∧ t.Within lo hi
  | .deleteObjects bucket reported => ∀ e ∈ reported, (bucket, e.1) ∈ K ∧ e.2.Within lo hi
  | .getObject k P _ t => k ∈ K ∧ t.Within lo hi ∧ P.Genuine A ∧
      ∀ salts resp, openObject G P k.1 k.2 = .ok (salts, resp) → salts ∈ T
  | .getRange k up spec _ t => k ∈ K ∧ t.Within lo hi ∧ up.Genuine A ∧
      ∀ salts resp, openObjectRange G up k.1 k.2 spec = .ok (salts, resp) → salts ∈ T
  | .uploadPartCopy k up _ _ => k ∈ K ∧ up.Genuine A

/-- What keeps a request covered: a completion is not shown the manifest it replaced, and the `HEAD`
of the source of a copied part is answered from the last write of its key. -/
def Rolling.Covers {V : Vault G} (s : Rolling V) : RollAct σ V → Prop
  | .complete _ _ id _ _ before after _ => discarded G id before after = false
  | .uploadPartCopy k up _ _ => match s.last k with
      | none => True
      | some .deleted => up.Absent G k
      | some (.wrote o) => up.Shows o
  | _ => True

/-- Every request of a sequence is covered, in the state it finds. -/
def Rolling.CoversAll {V : Vault G} (D : Digests) (H : Sha256) (s : Rolling V) : List (RollAct σ V) → Prop
  | [] => True
  | a :: acts => s.Covers a ∧ (s.serve D H a).CoversAll D H acts

/-! ## The invariant -/

section Run

variable {V : Vault G} {A : Archive V} {D : Digests} {H : Sha256} {K : Set ObjKey}
  {T : Set (List Salt)} {lo hi : Int} {up : Upstream σ} {spec : Bytes}

/-- The index knows of the last write or delete of a key: it has an entry, which is not old, and
the entry agrees with nothing but the tag of that write. -/
def Knows (A : Archive V) (D : Digests) (H : Sha256) (T : Set (List Salt)) (lo : Int) (l : Local)
    (k : ObjKey) (last : Option (LastOp V k)) : Prop :=
  ∀ op, last = some op → (∀ o, op = .wrote o → ⟨k, o⟩ ∈ A.writes)
    ∧ ∃ e, l.known D k.1 k.2 = some e ∧ (e.kind = kindTombstone → lo ≤ e.when.1)
    ∧ ∀ tag, Agrees (some e) tag →
      ∃ o, op = .wrote o ∧ o.salts ∈ T ∧ tagFromSalts H o.salts = .ok tag

/-- The index is open, keeps tombstones for as long as the run lasts and knows of all keys. -/
structure RollInv (A : Archive V) (D : Digests) (H : Sha256) (K : Set ObjKey) (T : Set (List Salt))
    (lo hi : Int) (s : Rolling V) (l : Local) : Prop where
  fresh : s.fresh = some l
  opened : l.closed = false
  retention : hi - l.retentionSeconds ≤ lo
  knows : ∀ k ∈ K, Knows A D H T lo l k (s.last k)
  released : ∀ r ∈ s.released, r.Current

variable {k : ObjKey} {t : Clock} {stored : Bytes}

theorem Knows.push {l : Local} {last : Option (LastOp V k)} (h : Knows A D H T lo l k last)
    (hret : hi - l.retentionSeconds ≤ lo) {r : Record} (ht : t.Within lo hi) (hne : name D k.1 k.2 ≠ r.name) :
    Knows A D H T lo (l.push D r t) k last := by
  intro op hop
  obtain ⟨hmem, e, he, hwhen, hagree⟩ := h op hop
  refine ⟨hmem, e, lookup_push_kept ?_ ?_, hwhen, hagree⟩
  · rw [lookup_applyRecord, if_neg hne]
    exact he
  · intro hk
    have := hwhen hk
    have := ht.cutoff
    omega

theorem known_push_own {l : Local} (hret : hi - l.retentionSeconds ≤ lo) (k : ObjKey) (tag : Tag) {kind : UInt8}
    (hkind : kind ≠ kindInvalid) (ht : t.Within lo hi) :
    (l.push D ⟨name D k.1 k.2, tag, kind, t.record⟩ t).known D k.1 k.2
      = some ⟨tag, kind, t.record⟩ := by
  refine lookup_push_kept ?_ ?_
  · rw [applyRecord_of_ne hkind, AList.lookup_insert]
  · intro _
    have := ht.cutoff
    have := ht.record
    show (t.cutoff.1 : Int) - l.retentionSeconds ≤ t.record.1
    omega

variable {s s' : Rolling V} {l : Local} (hi' : RollInv A D H K T lo hi s l)
  (hnames : Set.InjOn (fun k : ObjKey => name D k.1 k.2) K)

include hi' hnames

theorem RollInv.push (hk : k ∈ K) (tag : Tag) {kind : UInt8} (hkind : kind ≠ kindInvalid) (ht : t.Within lo hi)
    (hfresh : s'.fresh = some (l.push D ⟨name D k.1 k.2, tag, kind, t.record⟩ t))
    (hother : ∀ k', k' ≠ k → s'.last k' = s.last k')
    (hself : ∀ op, s'.last k = some op → (∀ o, op = .wrote o → ⟨k, o⟩ ∈ A.writes)
      ∧ ∀ tag', Agrees (some ⟨tag, kind, t.record⟩) tag' →
        ∃ o, op = .wrote o ∧ o.salts ∈ T ∧ tagFromSalts H o.salts = .ok tag')
    (hreleased : ∀ r ∈ s'.released, r.Current) :
    RollInv A D H K T lo hi s' (l.push D ⟨name D k.1 k.2, tag, kind, t.record⟩ t) where
  fresh := hfresh
  opened := (push_closed _ t).trans hi'.opened
  retention := by
    rw [Local.retentionSeconds, (push_frame _ t).2]
    exact hi'.retention
  knows := by
    intro k' hk'
    by_cases heq : k' = k
    · subst heq
      intro op hop
      obtain ⟨hmem, hagree⟩ := hself op hop
      exact ⟨hmem, _, known_push_own hi'.retention k' tag hkind ht, fun _ => ht.record, hagree⟩
    · rw [hother k' heq]
      exact (hi'.knows k' hk').push hi'.retention ht (fun h => heq (hnames hk' hk h))
  released := hreleased

theorem inv_write (hk : k ∈ K) {o : Written V k} (hmem : ⟨k, o⟩ ∈ A.writes) (ho : o.salts ∈ T)
    (ht : t.Within lo hi) :
    ∃ l', RollInv A D H K T lo hi { s with
      fresh := recordFreshness D H s.fresh k.1 k.2 o.salts t
      last := Function.update s.last k (some (.wrote o)) } l' := by
  obtain ⟨tag, htag⟩ := tagFromSalts_isOk o.count_salts
  refine ⟨_, hi'.push hnames hk tag kindPresent_valid ht ?_ ?_ ?_ hi'.released⟩
  · rw [hi'.fresh]
    exact recordFreshness_spec hi'.opened k.1 k.2 htag t
  · exact fun k' hne => Function.update_of_ne hne _ _
  · intro op hop
    rw [show Rolling.last _ k = _ from Function.update_self k _ s.last] at hop
    cases hop
    refine ⟨?_, ?_⟩
    · rintro _ ⟨rfl⟩
      exact hmem
    · intro tag' hagree
      obtain rfl : tag = tag' := (agrees_some.mp hagree).2
      exact ⟨o, rfl, ho, htag⟩

theorem inv_forget (hk : k ∈ K) (ht : t.Within lo hi) :
    ∃ l', RollInv A D H K T lo hi { s with
      fresh := forgetFreshness D s.fresh k.1 k.2 t
      last := Function.update s.last k (some .deleted) } l' := by
  refine ⟨_, hi'.push hnames hk zeroTag kindTombstone_valid ht ?_
    (fun k' hne => Function.update_of_ne hne _ _) ?_ hi'.released⟩
  · rw [hi'.fresh, forgetFreshness, Option.map_some]
    unfold Local.forget
    rw [if_neg (by simp [hi'.opened]), appendLocked_eq_push kindTombstone_valid]
  · intro op hop
    rw [show Rolling.last _ k = _ from Function.update_self k _ s.last] at hop
    cases hop
    exact ⟨nofun, fun tag' hagree => absurd rfl (agrees_some.mp hagree).1⟩

/-- A read: what the index lets through belongs to the last write. -/
theorem inv_check (htags : Set.InjOn (tagFromSalts H) T) (hk : k ∈ K) (ht : t.Within lo hi) {salts : List Salt}
    (hsalts : salts ∈ T) {asked : Asked} {out : Bytes}
    (hbegins : ∃ p ∈ A.writes, salts = p.2.salts ∧ out <+: asked.of p.2.plain) :
    ∃ l', RollInv A D H K T lo hi (s.check D H k salts t asked out) l' := by
  obtain ⟨p, hp, rfl, hbegins⟩ := hbegins
  obtain ⟨tag, htag⟩ := tagFromSalts_isOk p.2.count_salts
  obtain ⟨hanswer, hindex⟩ := checkFreshness_spec hi'.opened k.1 k.2 htag t
  -- what becomes of the index: it learns the tag of a key it knows nothing of
  obtain ⟨l', hl', hinv⟩ : ∃ l', (checkFreshness D H (some l) k.1 k.2 p.2.salts t).2 = some l'
      ∧ RollInv A D H K T lo hi { s with fresh := some l' } l' := by
    cases hknown : l.known D k.1 k.2 with
    | none =>
      rw [hknown] at hindex
      refine ⟨_, hindex, hi'.push hnames hk tag kindPresent_valid ht rfl (fun _ _ => rfl) ?_
        hi'.released⟩
      intro op hop
      obtain ⟨-, e, he, -⟩ := hi'.knows k hk op hop
      rw [hknown] at he
      simp at he
    | some e =>
      rw [hknown] at hindex
      exact ⟨l, hindex, rfl, hi'.opened, hi'.retention, hi'.knows, hi'.released⟩
  refine ⟨l', ?_⟩
  unfold Rolling.check
  rw [hi'.fresh]
  cases hq : checkFreshness D H (some l) k.1 k.2 p.2.salts t with
  | mk answer fresh =>
    rw [hq] at hl' hanswer
    obtain rfl : fresh = some l' := hl'
    cases answer with
    | some msg => exact hinv
    | none =>
      refine ⟨rfl, hinv.opened, hinv.retention, hinv.knows, ?_⟩
      intro r hr
      rcases mem_cons.mp hr with rfl | hr
      · -- the entry agrees with the tag, so the salts are those of the last write
        cases hlast : s.last k with
        | none => trivial
        | some op =>
          obtain ⟨hmem, e, he, -, hagree⟩ := hi'.knows k hk op hlast
          obtain ⟨o, rfl, ho, htag'⟩ := hagree tag (he ▸ hanswer.mp rfl)
          obtain rfl := A.eq_of_salts hp (hmem o rfl) (htags hsalts ho (htag.trans htag'.symm))
          exact hbegins
      · exact hinv.released r hr

theorem inv_forgetAll {bucket : Bytes}
    {reported : List (Bytes × Clock)}
    (hwithin : ∀ e ∈ reported, (bucket, e.1) ∈ K ∧ e.2.Within lo hi) :
    ∃ l', RollInv A D H K T lo hi { s with
      fresh := reported.foldl (fun fresh e => forgetFreshness D fresh bucket e.1 e.2) s.fresh
      last := reported.foldl (fun last e => Function.update last (bucket, e.1) (some .deleted)) s.last }
        l' := by
  induction reported generalizing s l with
  | nil => exact ⟨l, hi'⟩
  | cons e reported ih =>
    obtain ⟨hk, ht⟩ := hwithin e mem_cons_self
    obtain ⟨l₁, hi₁⟩ := inv_forget hi' hnames hk ht
    exact ih hi₁ (fun x hx => hwithin x (mem_cons_of_mem e hx))

omit hnames in
/-- What a copied part is made of, if its source is answered from the last write. -/
theorem copied_current (hk : k ∈ K) (hup : up.Genuine A)
    {ks : List Nat} (hcovers : s.Covers (.uploadPartCopy k up spec ks)) {src : SourceRange σ}
    (h : uploadPartCopy G up k.1 k.2 spec = .ok src) :
    (⟨k, s.last k, .source spec, (readMany src.body ks).out⟩ : Release V).Current := by
  obtain ⟨stored, info, hstored, hinfo, p, hp, hmeta, hbegins⟩ := uploadPartCopy_begins hup h ks
  have hshown : match s.last k with
      | none => True
      | some .deleted => up.Absent G k
      | some (.wrote o) => up.Shows o := hcovers
  cases hlast : s.last k with
  | none => trivial
  | some op =>
    rw [hlast] at hshown
    cases op with
    | deleted =>
      obtain ⟨e, he⟩ := hshown stored hstored
      rw [hinfo] at he
      simp at he
    | wrote o =>
      have hmem := (hi'.knows k hk _ hlast).1 o rfl
      obtain rfl := A.eq_of_metadata hp hmem (hmeta.symm.trans (hshown stored info hstored hinfo))
      exact hbegins

theorem inv_roll (htags : Set.InjOn (tagFromSalts H) T)
    {a : RollAct σ V} (hwithin : a.Within A K T lo hi) (hcovers : s.Covers a) :
    ∃ l', RollInv A D H K T lo hi (s.serve D H a) l' := by
  cases a with
  | putObject k o _ t =>
    obtain ⟨hk, hmem, ho, ht⟩ := hwithin
    exact inv_write hi' hnames hk hmem ho ht
  | complete k o id body _ before after t =>
    obtain ⟨hk, hmem, ho, ht⟩ := hwithin
    rw [Rolling.serve, show discarded G id before after = false from hcovers]
    exact inv_write hi' hnames hk hmem ho ht
  | deleteObject k t =>
    obtain ⟨hk, ht⟩ := hwithin
    exact inv_forget hi' hnames hk ht
  | deleteObjects bucket reported => exact inv_forgetAll hi' hnames hwithin
  | getObject k P ks t =>
    obtain ⟨hk, ht, hP, hT⟩ := hwithin
    rw [Rolling.serve]
    split
    · exact ⟨l, hi'⟩
    next salts resp hopen =>
      exact inv_check hi' hnames htags hk ht (hT salts resp hopen) (openObject_begins hP hopen ks)
  | getRange k up spec ks t =>
    obtain ⟨hk, ht, hup, hT⟩ := hwithin
    rw [Rolling.serve]
    split
    · exact ⟨l, hi'⟩
    next salts resp hopen =>
      exact inv_check hi' hnames htags hk ht (hT salts resp hopen)
        (openObjectRange_begins hup hopen ks)
  | uploadPartCopy k up spec ks =>
    obtain ⟨hk, hup⟩ := hwithin
    rw [Rolling.serve]
    split
    · exact ⟨l, hi'⟩
    next src hsrc =>
      refine ⟨l, hi'.fresh, hi'.opened, hi'.retention, hi'.knows, ?_⟩
      intro r hr
      rcases mem_cons.mp hr with rfl | hr
      · exact copied_current hi' hk hup hcovers hsrc
      · exact hi'.released r hr

theorem inv_rollAll (htags : Set.InjOn (tagFromSalts H) T) {acts : List (RollAct σ V)}
    (hwithin : ∀ a ∈ acts, a.Within A K T lo hi)
    (hcovers : s.CoversAll D H acts) :
    ∃ l', RollInv A D H K T lo hi (s.serveAll D H acts) l' := by
  induction acts generalizing s l with
  | nil => exact ⟨l, hi'⟩
  | cons a acts ih =>
    obtain ⟨l₁, hi₁⟩ := inv_roll hi' hnames htags (hwithin a mem_cons_self) hcovers.1
    exact ih hi₁ (fun x hx => hwithin x (mem_cons_of_mem a hx)) hcovers.2

omit hi' hnames

/-- A gateway with an open index that keeps tombstones for as long as the run lasts, before its
first request. -/
structure Rolling.Start (s : Rolling V) (lo hi : Int) : Prop where
  index : ∃ l, s.fresh = some l ∧ l.closed = false ∧ hi - l.retentionSeconds ≤ lo
  last : ∀ k, s.last k = none
  released : s.released = []

/-- **Everything that leaves the gateway is of the last write of its key**: a beginning of the range
that was asked for, in the plaintext of that write, as long as every request is covered. -/
theorem rollback_covered {s : Rolling V} {acts : List (RollAct σ V)} (hstart : s.Start lo hi)
    (hnames : Set.InjOn (fun k : ObjKey => name D k.1 k.2) K) (htags : Set.InjOn (tagFromSalts H) T)
    (hwithin : ∀ a ∈ acts, a.Within A K T lo hi) (hcovers : s.CoversAll D H acts) :
    ∀ r ∈ (s.serveAll D H acts).released, r.Current := by
  obtain ⟨l, hfresh, hopen, hret⟩ := hstart.index
  have hinv : RollInv A D H K T lo hi s l := by
    refine ⟨hfresh, hopen, hret, ?_, ?_⟩
    · intro k _ op hop
      rw [hstart.last k] at hop
      simp at hop
    · intro r hr
      rw [hstart.released] at hr
      simp at hr
  obtain ⟨l', hrun⟩ := inv_rollAll hinv hnames htags hwithin hcovers
  exact hrun.released

end Run

/-! ## An earlier state as the source of a copy -/

/-- A new index, and nothing written yet. -/
def emptyRolling : Rolling twoVault := ⟨some padIndex, fun _ => none, []⟩

/-- Both writes are copied from, each while it is the last one, and then both are answered to a
ranged read. -/
def twoWrites : List (RollAct (BytesReader GoErr) twoVault) :=
  [.putObject twoKey firstObject rfl someClock,
    .uploadPartCopy twoKey firstObject.upstream [] [1],
    .putObject twoKey secondObject rfl someClock,
    .uploadPartCopy twoKey secondObject.upstream [] [1],
    .getRange twoKey secondObject.upstream (suffixSpec 1) [1] someClock,
    .getRange twoKey firstObject.upstream (suffixSpec 1) [1] someClock]

theorem rollback_covered_two_writes : emptyRolling.Start 0 0
    ∧ ((emptyRolling.serveAll padDigests backHash twoWrites).released.map Release.bytes
        = [[2], [2], [1]])
    ∧ ∀ r ∈ (emptyRolling.serveAll padDigests backHash twoWrites).released, r.Current := by
  have hfirst : (⟨twoKey, firstObject⟩ : Σ k, Written twoVault k) ∈ twoArchive.writes := .inl rfl
  have hsecond : (⟨twoKey, secondObject⟩ : Σ k, Written twoVault k) ∈ twoArchive.writes := .inr rfl
  have hclock : someClock.Within 0 0 := ⟨Int.le_refl 0, Int.le_refl 0⟩
  have hasked : ∀ o : Written twoVault twoKey, ∀ salt, (openObjectRange twoGateway o.upstream
      twoKey.1 twoKey.2 (suffixSpec 1)).toOption.map Prod.fst = some [salt] → ∀ salts resp,
      openObjectRange twoGateway o.upstream twoKey.1 twoKey.2 (suffixSpec 1) = .ok (salts, resp) →
        salts = [salt] := by
    intro o salt hasked salts resp h
    rw [h] at hasked
    exact Option.some.inj hasked
  have hstart : emptyRolling.Start 0 0 :=
    ⟨⟨padIndex, rfl, rfl, by decide⟩, fun _ => rfl, rfl⟩
  have htags : Set.InjOn (tagFromSalts backHash) {[saltOf 1], [saltOf 2]} := by
    have hne : tagFromSalts backHash [saltOf 1] ≠ tagFromSalts backHash [saltOf 2] := by
      decide +kernel
    rintro a (rfl | rfl) b (rfl | rfl) heq
    · rfl
    · exact absurd heq hne
    · exact absurd heq.symm hne
    · rfl
  refine ⟨hstart, by decide +kernel, rollback_covered (A := twoArchive) (K := {twoKey})
    hstart (Set.injOn_singleton _ _) htags ?_ ?_⟩
  · intro a ha
    simp only [twoWrites, mem_cons, not_mem_nil, or_false] at ha
    rcases ha with rfl | rfl | rfl | rfl | rfl | rfl
    · exact ⟨rfl, hfirst, .inl rfl, hclock⟩
    · exact ⟨rfl, firstObject.upstream_genuine hfirst⟩
    · exact ⟨rfl, hsecond, .inr rfl, hclock⟩
    · exact ⟨rfl, secondObject.upstream_genuine hsecond⟩
    · exact ⟨rfl, hclock, secondObject.upstream_genuine hsecond, fun salts resp h =>
        .inr (hasked secondObject (saltOf 2) (by decide +kernel) salts resp h)⟩
    · exact ⟨rfl, hclock, firstObject.upstream_genuine hfirst, fun salts resp h =>
        .inl (hasked firstObject (saltOf 1) (by decide +kernel) salts resp h)⟩
  · exact ⟨trivial, firstObject.upstream_shows, trivial, secondObject.upstream_shows, trivial,
      trivial, trivial⟩

/-- A part copied from an earlier state of its source holds that earlier state. -/
theorem copied_part_rolled_back : firstObject.upstream.Genuine twoArchive ∧
      ∃ r ∈ (emptyRolling.serveAll padDigests backHash
        [.putObject twoKey firstObject rfl someClock, .putObject twoKey secondObject rfl someClock,
          .uploadPartCopy twoKey firstObject.upstream [] [1]]).released, ¬ r.Current := by
  refine ⟨firstObject.upstream_genuine (.inl rfl), ?_⟩
  have hcopy : (uploadPartCopy twoGateway firstObject.upstream twoKey.1 twoKey.2 []).toOption.map
      (fun src => (readMany src.body [1]).out) = some [1] := by decide +kernel
  cases hsrc : uploadPartCopy twoGateway firstObject.upstream twoKey.1 twoKey.2 [] with
  | error e =>
    rw [hsrc] at hcopy
    simp [Except.toOption] at hcopy
  | ok src =>
    rw [hsrc] at hcopy
    have hout : (readMany src.body [1]).out = [1] := Option.some.inj hcopy
    refine ⟨⟨twoKey, some (.wrote secondObject), .source [], (readMany src.body [1]).out⟩, ?_, ?_⟩
    · unfold Rolling.serveAll
      rw [foldl_cons, foldl_cons, foldl_cons]
      generalize hs : Rolling.serve padDigests backHash _
        (.putObject twoKey secondObject rfl someClock : RollAct (BytesReader GoErr) twoVault) = s
      have hlast : s.last twoKey = some (.wrote secondObject) := by
        rw [← hs]
        simp only [Rolling.serve, Function.update_self]
      rw [Rolling.serve, hsrc, ← hlast]
      exact mem_cons_self ..
    · show ¬ _ <+: (Asked.source []).of secondObject.plain
      rw [hout]
      decide +kernel

end BlindBucket
