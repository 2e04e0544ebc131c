import BlindBucket.Keys.Snapshot
import BlindBucket.Lib.Json

/-!
# A keyring of version 2 that says it is of version 1

`parseKeyringFile` decodes a file that says version 1 a second time, into a struct of what only version 2 has, and
refuses it if something is there. A second decode that fails refuses nothing. And a struct has one place for each
name, so of a name that is given twice only the last value is looked at.
-/

namespace BlindBucket.Keys

open GoText Document

def generationField : Slot Probe := field "generation" uint64 fun n p => { p with generation := n }
def directoryField : Slot Probe := field "directory" text fun s p => { p with directory := s }

/-- `json.RawMessage` takes a value of any type, nulls included. -/
def tenantsField : Slot Probe := field "tenants" (fun v => some (some (!v.isNull))) fun b p => { p with tenants := b }

/-- The fields of the second decode. -/
def probeFields : List (Slot Probe) := [generationField, directoryField, tenantsField]

/-- JSON as a scanner and, over what it reads, the decode into `keyringFile`. -/
structure Documents where
  scan : Bytes → Try Document
  decodeFile : Document → Try KeyringFile
  mismatch : Error

def Documents.codec (S : Documents) (J : FileCodec) : FileCodec :=
  { J with
    unmarshalFile := fun data => S.scan data >>= S.decodeFile
    unmarshalProbe := fun data => S.scan data >>= fun doc =>
      match decodeStruct probeFields ⟨0, [], false⟩ doc with
      | some p => .ok p
      | none => .error S.mismatch }

variable (members : List (Bytes × Document))

/-- Some member of version 2 has a value: not null, and neither zero for a generation nor empty for a directory. -/
def Carries : Prop :=
  (∃ v ∈ given (ascii "generation") members, v.isNull = false ∧ v.isZero = false)
  ∨ (∃ v ∈ given (ascii "directory") members, v.isNull = false ∧ v.text ≠ some (some []))
  ∨ ∃ v ∈ given (ascii "tenants") members, v.isNull = false

/-- Every generation is an unsigned number of 64 bits or null, every directory a string or null. -/
def Fits : Prop :=
  (∀ v ∈ given (ascii "generation") members, v.uint64.isSome) ∧ ∀ v ∈ given (ascii "directory") members, v.text.isSome

instance (members : List (Bytes × Document)) : Decidable (Carries members) := inferInstanceAs (Decidable (_ ∨ _))
instance (members : List (Bytes × Document)) : Decidable (Fits members) := inferInstanceAs (Decidable (_ ∧ _))

/-- What is left in the fields: the last generation and the last directory that are not null, and the last tenants. -/
def left (p : Probe) : Probe :=
  ⟨((given (ascii "generation") members).filterMap fun v => v.uint64.join).getLast?.getD p.generation,
   ((given (ascii "directory") members).filterMap fun v => v.text.join).getLast?.getD p.directory,
   ((given (ascii "tenants") members).map fun v => !v.isNull).getLast?.getD p.tenants⟩

/-- The last values given show that the file was of version 2. -/
def Shows : Prop :=
  (left members ⟨0, [], false⟩).generation ≠ 0 ∨ (left members ⟨0, [], false⟩).directory ≠ []
    ∨ (left members ⟨0, [], false⟩).tenants = true

instance (members : List (Bytes × Document)) : Decidable (Shows members) := inferInstanceAs (Decidable (_ ∨ _))

/-- The document opens as a file of version 1 but for the second decode. -/
def Documents.SaysOne (S : Documents) (doc : Document) : Prop :=
  ∃ file, S.decodeFile doc = .ok file ∧ file.version = keyringVersion ∧ file.keys ≠ []

/-! ## The second decode -/

theorem given_cons {name : Bytes} {v : Document} {rest : List (Bytes × Document)} (f : Bytes) :
    given f ((name, v) :: rest) = if equalFold f name then v :: given f rest else given f rest := by
  unfold given
  rw [List.filter_cons]
  split <;> rfl

theorem fields_apart {name : Bytes} : (equalFold (ascii "generation") name = true →
      equalFold (ascii "directory") name = false ∧ equalFold (ascii "tenants") name = false)
    ∧ (equalFold (ascii "directory") name = true → equalFold (ascii "tenants") name = false) := by
  simp only [equalFold, decide_eq_true_eq, decide_eq_false_iff_not]
  refine ⟨fun h => ?_, fun h => ?_⟩
  · rw [← h]
    decide
  · rw [← h]
    decide

theorem probeFields_find (name : Bytes) : probeFields.find? (fun f => equalFold f.name name) =
    if equalFold (ascii "generation") name then some generationField
    else if equalFold (ascii "directory") name then some directoryField
    else if equalFold (ascii "tenants") name then some tenantsField else none := by
  cases hg : equalFold (ascii "generation") name <;> cases hd : equalFold (ascii "directory") name <;>
    cases ht : equalFold (ascii "tenants") name <;>
    simp [probeFields, generationField, directoryField, tenantsField, field, hg, hd, ht]

/-- **The second decode succeeds exactly if every value fits, and it has the last values.** -/
theorem decodeMembers_probe (p q : Probe) :
    decodeMembers probeFields members p = some q ↔ Fits members ∧ left members p = q := by
  induction members generalizing p with
  | nil => simp [decodeMembers, Fits, left, given]
  | cons m rest ih =>
    obtain ⟨name, v⟩ := m
    obtain ⟨hgen, hdir⟩ := @fields_apart name
    rw [decodeMembers, probeFields_find]
    by_cases hg : equalFold (ascii "generation") name = true
    · -- a generation: it fits or the decode fails, and it stands until the next one
      obtain ⟨hd, ht⟩ := hgen hg
      cases hv : v.uint64 with
      | none => simp [generationField, field, hg, hv, Fits, given_cons]
      | some o => cases o <;> simp [generationField, field, hg, hd, ht, hv, Fits, left, given_cons, ih, List.getLast?_cons]
    · by_cases hd : equalFold (ascii "directory") name = true
      · have ht := hdir hd
        cases hv : v.text with
        | none => simp [directoryField, field, hg, hd, hv, Fits, given_cons]
        | some o => cases o <;> simp [directoryField, field, hg, hd, ht, hv, Fits, left, given_cons, ih, List.getLast?_cons]
      · by_cases ht : equalFold (ascii "tenants") name = true
        · simp [tenantsField, field, hg, hd, ht, Fits, left, given_cons, ih, List.getLast?_cons]
        · simp [hg, hd, ht, Fits, left, given_cons, ih]

variable {S : Documents} {J : FileCodec} {data : Bytes}

theorem unmarshalFile_codec {doc : Document} (hdoc : S.scan data = .ok doc) :
    (S.codec J).unmarshalFile data = S.decodeFile doc := by
  show S.scan data >>= S.decodeFile = S.decodeFile doc
  rw [hdoc]
  rfl

theorem parseKeyringFile_decoded {file : KeyringFile} (h : parseKeyringFile J data = .ok file) :
    J.unmarshalFile data = .ok file ∧ file.keys ≠ [] := by
  obtain ⟨f, hf, hrest⟩ := bind_ok h
  have hdecode : J.unmarshalFile data = .ok f := by
    cases hu : J.unmarshalFile data with
    | error e =>
      rw [hu] at hf
      simp [Except.mapError] at hf
    | ok g =>
      rw [hu] at hf
      exact hf
  obtain ⟨_, hrest⟩ := else_ok hrest
  obtain ⟨hk, hrest⟩ := else_ok hrest
  have heq : f = file := by
    split at hrest
    · split at hrest
      · exact Except.ok.inj hrest
      · obtain ⟨_, hrest⟩ := else_ok hrest
        exact Except.ok.inj hrest
    · exact Except.ok.inj hrest
  exact heq ▸ ⟨hdecode, hk⟩

theorem parseKeyringFile_codec {members : List (Bytes × Document)} (hdoc : S.scan data = .ok (.obj members))
    {file : KeyringFile} (hfile : S.decodeFile (.obj members) = .ok file) (hv : file.version = keyringVersion)
    (hk : file.keys ≠ []) :
    parseKeyringFile (S.codec J) data = .ok file ↔ ¬ (Fits members ∧ Shows members) := by
  have hbase : (S.codec J).unmarshalFile data = .ok file := (unmarshalFile_codec hdoc).trans hfile
  have hprobe : (S.codec J).unmarshalProbe data = match decodeMembers probeFields members ⟨0, [], false⟩ with
      | some p => .ok p
      | none => .error S.mismatch := by
    show S.scan data >>= _ = _
    rw [hdoc]
    rfl
  rw [parseKeyringFile, hbase, hprobe]
  cases hd : decodeMembers probeFields members ⟨0, [], false⟩ with
  | none =>
    have hnot : ¬ Fits members := by
      intro hf
      have hsome := (decodeMembers_probe members ⟨0, [], false⟩ _).mpr ⟨hf, rfl⟩
      rw [hd] at hsome
      simp at hsome
    simp [Except.mapError, bind, Except.bind, hv, hk, hnot]
  | some q =>
    obtain ⟨hf, rfl⟩ := (decodeMembers_probe members ⟨0, [], false⟩ q).mp hd
    by_cases hs : Shows members
    · have hs' := hs
      unfold Shows at hs'
      simp [Except.mapError, bind, Except.bind, hv, hk, hf, hs, hs']
    · have hs' := hs
      unfold Shows at hs'
      simp [Except.mapError, bind, Except.bind, hv, hk, hf, hs, hs']

/-- **A relabelled file is refused exactly if its values fit and the last ones show it.** A file that says version 1
and opens carries nothing of version 2, if and only if: where such a file carries something, every generation and
directory has its type, and the values that stand last are not all empty. -/
theorem relabelled_refused_iff (S : Documents) (J : FileCodec) (data : Bytes)
    (members : List (Bytes × Document)) (hdoc : S.scan data = .ok (.obj members)) :
    (∀ file, parseKeyringFile (S.codec J) data = .ok file → file.version = keyringVersion → ¬ Carries members)
      ↔ (S.SaysOne (.obj members) → Carries members → Fits members ∧ Shows members) := by
  constructor
  · intro h ⟨file, hfile, hv, hk⟩ hc
    by_contra hnot
    exact h file ((parseKeyringFile_codec hdoc hfile hv hk).mpr hnot) hv hc
  · intro h file hopen hv hc
    obtain ⟨hdecode, hk⟩ := parseKeyringFile_decoded hopen
    have hfile : S.decodeFile (.obj members) = .ok file := by
      rw [← hdecode, unmarshalFile_codec hdoc]
    exact (parseKeyringFile_codec hdoc hfile hv hk).mp hopen (h ⟨file, hfile, hv, hk⟩ hc)

/-! ## Two documents -/

/-- The members of `keyringFile` that the documents below have, each once. -/
def fileFields : List (Slot KeyringFile) :=
  [field "version" int fun n f => { f with version := n },
   field "active_kid" text fun s f => { f with activeKID := s },
   ⟨ascii "keys", fun
    | .arr es => (es.mapM (decodeStruct [field "kid" text fun s (e : KeyEntry) => { e with kid := s },
        field "wrapped" text fun s e => { e with wrapped := s }] ⟨[], none, []⟩)).map fun ks f => { f with keys := ks }
    | _ => none⟩]

/-- A file that was of version 2, with the generation given. -/
def relabelled (generation : Document) : List (Bytes × Document) :=
  [(ascii "version", .num (ascii "1")), (ascii "active_kid", .str (ascii "k0")),
   (ascii "keys", .arr [.obj [(ascii "kid", .str (ascii "k0")), (ascii "wrapped", .str (ascii "AA=="))]]),
   (ascii "generation", generation), (ascii "directory", .str (ascii "AA==")), (ascii "tenants", .arr [])]

/-- The document is what every file holds. -/
def only (doc : Document) : Documents where
  scan _ := .ok doc
  decodeFile d :=
    match decodeStruct fileFields ⟨0, [], { source := [] }, none, [], none, none, none⟩ d with
    | some f => .ok f
    | none => .error (errorf "json: cannot unmarshal" [])
  mismatch := errorf "json: cannot unmarshal" []

theorem relabelled_refused_iff_seven : Fits (relabelled (.num (ascii "7"))) ∧ Shows (relabelled (.num (ascii "7")))
    ∧ ∀ file, parseKeyringFile ((only (.obj (relabelled (.num (ascii "7"))))).codec acmeCodec) [] = .ok file →
      file.version = keyringVersion → ¬ Carries (relabelled (.num (ascii "7"))) :=
  have hfit : Fits (relabelled (.num (ascii "7"))) := by decide
  have hshow : Shows (relabelled (.num (ascii "7"))) := by decide
  ⟨hfit, hshow, (relabelled_refused_iff _ _ _ _ rfl).mpr fun _ _ => ⟨hfit, hshow⟩⟩

/-- With a generation that is a string the file opens as one of version 1. -/
theorem string_generation_opens : ∃ file,
    parseKeyringFile ((only (.obj (relabelled (.str (ascii "7"))))).codec acmeCodec) [] = .ok file
    ∧ file.version = keyringVersion ∧ Carries (relabelled (.str (ascii "7"))) :=
  ⟨_, (parseKeyringFile_codec rfl rfl rfl (by simp)).mpr (by decide), rfl, by decide⟩

end BlindBucket.Keys
