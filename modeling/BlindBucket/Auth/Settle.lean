import BlindBucket.Auth.Chunked

/-!
# What settling the checksums means

The checksums of a set of headers, described by the headers, and the outcome of `settle`
described by the checksums that arrived. `settle` finds the checksum that is running for one
that arrived by its name, without regard to case; names that agree in that way are names of
the same hash.
-/

namespace BlindBucket.Auth

open ByteIo GoText List

variable {P : Primitives}

/-! ## Names -/

/-- The hash a name stands for. -/
inductive KindOf : Bytes → HashKind → Prop where
  | checksum {name : Bytes} {alg : ChecksumAlgorithm} (h : parseChecksumAlgorithm name = some alg) :
      KindOf name (.checksum alg)
  | md5 : KindOf contentMD5 .md5

/-- A digit or the letter c. -/
def isMark (b : UInt8) : Bool := (0x30 ≤ b && b ≤ 0x39) || b == 0x63

/-- The digits and the letters c of a name, which tell the algorithms apart and which no mapping of
case moves. -/
def marks (s : Bytes) : Bytes := (s.map lower).filter isMark

theorem marks_cons (b : UInt8) (s : Bytes) : marks (b :: s) = marks [b] ++ marks s := by
  unfold marks
  rw [map_cons, filter_cons, map_cons, map_nil, filter_cons]
  split
  · rfl
  · rfl

theorem marks_append (s t : Bytes) : marks (s ++ t) = marks s ++ marks t := by
  unfold marks
  rw [map_append, filter_append]

theorem marks_lower : ∀ b : UInt8, marks [lower b] = marks [b] := forall_byte (by decide +kernel)

theorem marks_upper : ∀ b : UInt8, marks [upper b] = marks [b] := forall_byte (by decide +kernel)

theorem marks_toLower (s : Bytes) : marks (toLower s) = marks s := by
  induction s using toLower.induct with
  | case1 s ih =>
    exact ih
  | case2 s ih =>
    exact ih
  | case3 b s h1 h2 ih =>
    rw [toLower, marks_cons, ih, marks_lower, ← marks_cons]
    · exact h1
    · exact h2
  | case4 => rfl

theorem marks_toUpper (s : Bytes) : marks (toUpper s) = marks s := by
  induction s using toUpper.induct with
  | case1 s ih =>
    exact ih
  | case2 s ih =>
    exact ih
  | case3 b s h1 h2 ih =>
    rw [toUpper, marks_cons, ih, marks_upper, ← marks_cons]
    · exact h1
    · exact h2
  | case4 => rfl

theorem marks_fold (s : Bytes) : marks (fold s) = marks s := by
  induction s using fold.induct with
  | case1 s ih =>
    exact ih
  | case2 s ih =>
    exact ih
  | case3 b s h1 h2 ih =>
    rw [fold, marks_cons, ih, marks_lower, ← marks_cons]
    · exact h1
    · exact h2
  | case4 => rfl

def HashKind.marks : HashKind → Bytes
  | .checksum alg => Auth.marks (ascii "x-amz-checksum-") ++ Auth.marks alg.text
  | .md5 => Auth.marks contentMD5

theorem KindOf.marks {name : Bytes} {kind : HashKind} (h : KindOf name kind) : Auth.marks name = kind.marks := by
  cases h with
  | md5 => rfl
  | checksum h =>
    unfold parseChecksumAlgorithm at h
    split at h
    · simp at h
    next rest hcut =>
      have hname := cutPrefix_eq_some hcut
      have hfound := find?_some h
      have htext := eq_of_beq hfound
      rw [← marks_toLower, hname, marks_append, HashKind.marks, htext, marks_toUpper]

theorem HashKind.marks_inj : ∀ k k' : HashKind, k.marks = k'.marks → k = k' := by
  intro k k'
  rcases k with (_ | _ | _ | _ | _) | _ <;> rcases k' with (_ | _ | _ | _ | _) | _ <;> decide

/-- Names that agree without regard to case are names of one hash. -/
theorem KindOf.eq_of_fold {name name' : Bytes} {kind kind' : HashKind} (h : KindOf name kind)
    (h' : KindOf name' kind') (heq : equalFold name name' = true) : kind = kind' := by
  have hfold : fold name = fold name' := of_decide_eq_true heq
  refine HashKind.marks_inj kind kind' ?_
  rw [← h.marks, ← h'.marks, ← marks_fold name, hfold, marks_fold]

/-! ## The checksums of a set of headers -/

/-- An expectation that `checksumsFrom` makes of a set of headers. -/
inductive DeclaredBy (P : Primitives) (h : Header) : Expectation → Prop where
  | checksum {name value rest raw : _} {alg : ChecksumAlgorithm} (hentry : (name, value :: rest) ∈ h)
      (halg : parseChecksumAlgorithm name = some alg)
      (hraw : P.base64 (trimSpace value) = some raw) :
      DeclaredBy P h { name := name, hash := .checksum alg, expected := some raw }
  | md5 {raw : _} (hvalue : Header.get h contentMD5 ≠ [])
      (hraw : P.base64 (trimSpace (Header.get h contentMD5)) = some raw) :
      DeclaredBy P h { name := contentMD5, hash := .md5, expected := some raw }

variable {h : Header} {e : Expectation} {cs : List Expectation}

theorem DeclaredBy.kindOf (he : DeclaredBy P h e) : KindOf e.name e.hash := by
  cases he with
  | checksum _ halg _ => exact .checksum halg
  | md5 _ _ => exact .md5

theorem decodeChecksum_ok {name value raw : Bytes} {want : Nat}
    (h : decodeChecksum P name value want = .ok raw) : P.base64 (trimSpace value) = some raw := by
  unfold decodeChecksum at h
  split at h
  · simp at h
  next raw' hraw =>
    obtain ⟨_, h⟩ := else_ok h
    cases h
    exact hraw

theorem headerChecksum_ok {entry : Bytes × List Bytes} {o : Option Expectation}
    (h : headerChecksum P entry = .ok o) :
    (o = none ∧ ∀ name value rest alg, entry = (name, value :: rest) → parseChecksumAlgorithm name ≠ some alg)
    ∨ ∃ name value rest alg raw, entry = (name, value :: rest)
        ∧ parseChecksumAlgorithm name = some alg ∧ P.base64 (trimSpace value) = some raw
        ∧ o = some { name := name, hash := .checksum alg, expected := some raw } := by
  obtain ⟨name, values⟩ := entry
  cases values with
  | nil =>
    cases h
    refine .inl ⟨rfl, ?_⟩
    intro name' value rest alg hentry
    simp at hentry
  | cons value rest =>
    rw [headerChecksum] at h
    split at h
    next hnone =>
      cases h
      refine .inl ⟨rfl, ?_⟩
      intro name' value' rest' alg hentry
      cases hentry
      rw [hnone]
      simp
    next alg halg =>
      obtain ⟨raw, hraw, hok⟩ := bind_ok h
      cases hok
      exact .inr ⟨name, value, rest, alg, raw, rfl, halg, decodeChecksum_ok hraw, rfl⟩

/-- Every checksum that the headers declare is in the list. -/
def Collects (P : Primitives) (h : Header) (es : List Expectation) : Prop :=
  ∀ name value rest alg, (name, value :: rest) ∈ h → parseChecksumAlgorithm name = some alg →
    ∃ raw, P.base64 (trimSpace value) = some raw
      ∧ { name := name, hash := .checksum alg, expected := some raw } ∈ es

variable {es : List Expectation}

theorem headerChecksums_ok {h' : Header} (hsub : ∀ entry ∈ h, entry ∈ h') (hes : headerChecksums P h = .ok es) :
    (∀ e ∈ es, DeclaredBy P h' e) ∧ Collects P h es := by
  induction h generalizing es with
  | nil =>
    cases hes
    exact ⟨by simp, fun _ _ _ _ hmem => absurd hmem not_mem_nil⟩
  | cons entry h ih =>
    obtain ⟨o, hentry, hrest⟩ := bind_ok hes
    obtain ⟨es', hes', hok⟩ := bind_ok hrest
    cases hok
    obtain ⟨ih₁, ih₂⟩ := ih (fun entry' he => hsub entry' (mem_cons_of_mem _ he)) hes'
    have hlater : ∀ name value rest alg, (name, value :: rest) ∈ h →
        parseChecksumAlgorithm name = some alg → ∃ raw, P.base64 (trimSpace value) = some raw
          ∧ { name := name, hash := .checksum alg, expected := some raw } ∈ o.toList ++ es' := by
      intro name value rest alg hmem halg
      obtain ⟨raw, hraw, he⟩ := ih₂ name value rest alg hmem halg
      exact ⟨raw, hraw, mem_append_right _ he⟩
    rcases headerChecksum_ok hentry with ⟨rfl, hnone⟩ | ⟨name, value, rest, alg, raw, rfl, halg, hraw, rfl⟩
    · refine ⟨ih₁, ?_⟩
      intro name value rest alg hmem halg
      rcases mem_cons.mp hmem with heq | hmem
      · exact absurd halg (hnone name value rest alg heq.symm)
      · exact hlater name value rest alg hmem halg
    · refine ⟨?_, ?_⟩
      · intro e he
        rcases mem_cons.mp he with rfl | he
        · exact .checksum (hsub _ mem_cons_self) halg hraw
        · exact ih₁ e he
      · intro name' value' rest' alg' hmem halg'
        rcases mem_cons.mp hmem with heq | hmem
        · cases heq
          rw [halg] at halg'
          cases halg'
          exact ⟨raw, hraw, mem_cons_self ..⟩
        · exact hlater name' value' rest' alg' hmem halg'

theorem contentMD5Checksum_ok (hes : contentMD5Checksum P h = .ok es) : (Header.get h contentMD5 = [] ∧ es = [])
    ∨ ∃ raw, Header.get h contentMD5 ≠ [] ∧ P.base64 (trimSpace (Header.get h contentMD5)) = some raw
        ∧ es = [{ name := contentMD5, hash := .md5, expected := some raw }] := by
  unfold contentMD5Checksum at hes
  dsimp only at hes
  split at hes
  next hnil =>
    cases hes
    exact .inl ⟨hnil, rfl⟩
  next hne =>
    obtain ⟨raw, hraw, hok⟩ := bind_ok hes
    cases hok
    exact .inr ⟨raw, hne, decodeChecksum_ok hraw, rfl⟩

/-- **The checksums of a set of headers** are those its entries declare and that of its
`Content-MD5`. -/
theorem checksumsFrom_ok (hes : checksumsFrom P h = .ok es) : (∀ e ∈ es, DeclaredBy P h e) ∧ Collects P h es
      ∧ (Header.get h contentMD5 ≠ [] → ∃ raw, P.base64 (trimSpace (Header.get h contentMD5)) = some raw
          ∧ { name := contentMD5, hash := .md5, expected := some raw } ∈ es) := by
  obtain ⟨out, hout, hrest⟩ := bind_ok hes
  obtain ⟨md5, hmd5, hok⟩ := bind_ok hrest
  cases hok
  have hperm := P.walk_perm h
  obtain ⟨h₁, h₂⟩ := headerChecksums_ok (fun entry he => hperm.subset he) hout
  have hcollect : Collects P h (out ++ md5) := by
    intro name value rest alg hmem halg
    obtain ⟨raw, hraw, he⟩ := h₂ name value rest alg (hperm.mem_iff.mpr hmem) halg
    exact ⟨raw, hraw, mem_append_left _ he⟩
  rcases contentMD5Checksum_ok hmd5 with ⟨hnil, rfl⟩ | ⟨raw, hne, hraw, rfl⟩
  · refine ⟨?_, hcollect, fun hne => absurd hnil hne⟩
    rw [append_nil]
    exact h₁
  · refine ⟨?_, hcollect, fun _ => ⟨raw, hraw, mem_append_right _ (mem_singleton.mpr rfl)⟩⟩
    intro e he
    rcases mem_append.mp he with he | he
    · exact h₁ e he
    · rw [mem_singleton.mp he]
      exact .md5 hne hraw

/-! ## The checksums announced for the trailer -/

/-- The names on a line of `X-Amz-Trailer`. -/
def Announces (line : Bytes) (alg : ChecksumAlgorithm) : Prop :=
  ∃ name ∈ line.splitOn 0x2C, parseChecksumAlgorithm (trimSpace name) = some alg

theorem parseChecksumAlgorithm_nil (alg : ChecksumAlgorithm) : parseChecksumAlgorithm [] ≠ some alg := by
  rw [show parseChecksumAlgorithm [] = none by decide]
  simp

theorem announcedChecksums_ok {names : List Bytes} (hes : announcedChecksums names = .ok es) :
    (∀ e ∈ es, KindOf e.name e.hash ∧ e.expected = none ∧ e.written = [])
      ∧ ∀ name ∈ names, ∀ alg, parseChecksumAlgorithm (trimSpace name) = some alg →
        ∃ e ∈ es, e.hash = .checksum alg := by
  induction names generalizing es with
  | nil =>
    cases hes
    exact ⟨by simp, by simp⟩
  | cons name names ih =>
    rw [announcedChecksums] at hes
    split at hes
    next hnil =>
      obtain ⟨ih₁, ih₂⟩ := ih hes
      refine ⟨ih₁, ?_⟩
      intro name' hmem alg halg
      rcases mem_cons.mp hmem with rfl | hmem
      · rw [hnil] at halg
        exact absurd halg (parseChecksumAlgorithm_nil alg)
      · exact ih₂ name' hmem alg halg
    · split at hes
      · simp at hes
      next alg halg =>
        obtain ⟨es', hes', hok⟩ := bind_ok hes
        cases hok
        obtain ⟨ih₁, ih₂⟩ := ih hes'
        refine ⟨?_, ?_⟩
        · intro e he
          rcases mem_cons.mp he with rfl | he
          · exact ⟨.checksum halg, rfl, rfl⟩
          · exact ih₁ e he
        · intro name' hmem alg' halg'
          rcases mem_cons.mp hmem with rfl | hmem
          · rw [halg] at halg'
            cases halg'
            exact ⟨_, mem_cons_self .., rfl⟩
          · obtain ⟨e, he, hhash⟩ := ih₂ name' hmem alg' halg'
            exact ⟨e, mem_cons_of_mem _ he, hhash⟩

theorem announcedTrailerChecksums_ok (hes : announcedTrailerChecksums h = .ok es) :
    (∀ e ∈ es, KindOf e.name e.hash ∧ e.expected = none ∧ e.written = [])
      ∧ ∀ alg, Announces (Header.get h amzTrailer) alg → ∃ e ∈ es, e.hash = .checksum alg := by
  unfold announcedTrailerChecksums at hes
  dsimp only at hes
  split at hes
  next hnil =>
    cases hes
    refine ⟨by simp, ?_⟩
    rintro alg ⟨name, hname, halg⟩
    rw [hnil, show ([] : Bytes).splitOn 0x2C = [[]] from rfl, mem_singleton] at hname
    rw [hname] at halg
    exact absurd halg (parseChecksumAlgorithm_nil alg)
  · obtain ⟨h₁, h₂⟩ := announcedChecksums_ok hes
    refine ⟨h₁, ?_⟩
    rintro alg ⟨name, hname, halg⟩
    exact h₂ name hname alg halg

/-! ## Settling -/

theorem Expectation.verify_ok : e.verify P = .ok () ↔ P.sum e.hash e.written = e.expected.getD [] := by
  unfold Expectation.verify
  split
  next h =>
    exact ⟨fun _ => h, fun _ => rfl⟩
  next h =>
    exact ⟨by simp, fun heq => absurd heq h⟩

theorem findRunning_some {name : Bytes} {i : Nat} (h : findRunning cs name = some (e, i)) :
    cs[i]? = some e ∧ equalFold e.name name = true := by
  have hmem := mem_of_find?_eq_some h
  have hname := find?_some h
  exact ⟨mem_zipIdx_iff_getElem?.mp hmem, hname⟩

theorem settleArrived_ok {arrived : List Expectation} {settled : List Nat}
    (h : settleArrived P cs arrived = .ok settled) :
    (∀ a ∈ arrived, ∃ e ∈ cs, equalFold e.name a.name = true ∧ P.sum e.hash e.written = a.expected.getD [])
      ∧ ∀ i ∈ settled, ∃ a ∈ arrived, ∃ e, cs[i]? = some e ∧ equalFold e.name a.name = true := by
  induction arrived generalizing settled with
  | nil =>
    cases h
    exact ⟨by simp, by simp⟩
  | cons a arrived ih =>
    rw [settleArrived] at h
    split at h
    · simp at h
    next running i hfind =>
      obtain ⟨hat, hname⟩ := findRunning_some hfind
      obtain ⟨_, hverify, hrest⟩ := bind_ok h
      obtain ⟨settled', hsettled, hok⟩ := bind_ok hrest
      cases hok
      obtain ⟨ih₁, ih₂⟩ := ih hsettled
      refine ⟨?_, ?_⟩
      · intro a' ha'
        rcases mem_cons.mp ha' with rfl | ha'
        · exact ⟨running, mem_of_getElem? hat, hname, Expectation.verify_ok.mp hverify⟩
        · exact ih₁ a' ha'
      · intro i' hi'
        rcases mem_cons.mp hi' with rfl | hi'
        · exact ⟨a, mem_cons_self .., running, hat, hname⟩
        · obtain ⟨a', ha', hrun⟩ := ih₂ i' hi'
          exact ⟨a', mem_cons_of_mem _ ha', hrun⟩

theorem settleRest_ok {settled : List Nat} {j : Nat}
    (h : settleRest P settled j es = .ok ()) (i : Nat) (e : Expectation) (he : es[i]? = some e) :
    j + i ∈ settled ∨ ∃ w, e.expected = some w ∧ P.sum e.hash e.written = w := by
  induction es generalizing i j with
  | nil => simp at he
  | cons e' es ih =>
    obtain ⟨_, hfirst, hrest⟩ := bind_ok h
    cases i with
    | succ i =>
      have hmem := ih hrest i he
      rwa [show j + 1 + i = j + (i + 1) by omega] at hmem
    | zero =>
      obtain rfl : e' = e := Option.some.inj he
      unfold settleOne at hfirst
      split at hfirst
      next hmem =>
        exact .inl hmem
      · obtain ⟨hsome, hfirst⟩ := then_ok hfirst
        obtain ⟨w, hw⟩ := Option.isSome_iff_exists.mp hsome
        refine .inr ⟨w, hw, ?_⟩
        rw [Expectation.verify_ok.mp hfirst, hw]
        rfl

/-- What holds once the checksums `cs` have been settled against those that arrived: every one that
arrived matches the body of a running one of the same name, and every running one either has had one
of its name arrive or matches the value it was declared with. -/
structure Settled (P : Primitives) (cs arrived : List Expectation) : Prop where
  each_arrived : ∀ a ∈ arrived, ∃ e ∈ cs, equalFold e.name a.name = true
    ∧ P.sum e.hash e.written = a.expected.getD []
  each_running : ∀ e ∈ cs, (∃ a ∈ arrived, equalFold e.name a.name = true)
    ∨ ∃ w, e.expected = some w ∧ P.sum e.hash e.written = w

theorem settleChecksums_ok {trailer : Header} (h : settleChecksums P cs trailer = .ok ()) :
    ∃ arrived, checksumsFrom P trailer = .ok arrived ∧ Settled P cs arrived := by
  obtain ⟨arrived, harrived, hrest⟩ := bind_ok h
  obtain ⟨settled, hsettled, hrest⟩ := bind_ok hrest
  obtain ⟨h₁, h₂⟩ := settleArrived_ok hsettled
  refine ⟨arrived, harrived, h₁, ?_⟩
  intro e he
  obtain ⟨i, hi⟩ := getElem?_of_mem he
  rcases settleRest_ok hrest i e hi with hmem | hw
  · rw [Nat.zero_add] at hmem
    obtain ⟨a, ha, e', he', hname⟩ := h₂ i hmem
    obtain rfl : e' = e := Option.some.inj (he'.symm.trans hi)
    exact .inl ⟨a, ha, hname⟩
  · exact .inr hw

end BlindBucket.Auth
