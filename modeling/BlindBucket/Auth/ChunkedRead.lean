import BlindBucket.Auth.Chunked

/-!
# What the methods of the chunked reader do

One lemma for each method that says everything a successful call did, and for the methods
that read, what a body that is framed as it should be is read as. `read_cases` and
`readData_cases` are the two inversion lemmas that every invariant of the reader is proved
with.
-/

namespace BlindBucket.Auth

open ByteIo GoText List

variable {P : Primitives} {σ : Type} [ByteReader σ GoErr] [LawfulReader σ]

/-! ## Methods -/

variable {α β : Type} {m : Method P σ α} {f : α → Method P σ β} {a : α} {raw line raw' : Bytes} {e : GoErr}
  {q : Bytes × Bytes} {t t' : TrailerText} {c₁ : ChunkedReader P σ}

theorem method_bind_ok {c c'' : ChunkedReader P σ} {b : β} (h : (m >>= f) c = .ok b c'') :
    ∃ a c', m c = .ok a c' ∧ f a c' = .ok b c'' := by
  have hdef : (m >>= f) c = EStateM.bind m f c := rfl
  rw [hdef] at h
  unfold EStateM.bind at h
  cases hm : m c with
  | ok a c' =>
    rw [hm] at h
    exact ⟨a, c', rfl, h⟩
  | error e c' =>
    rw [hm] at h
    simp at h

variable {c c' : ChunkedReader P σ}

theorem method_bind_run (h : m c = .ok a c') : (m >>= f) c = f a c' := by
  show EStateM.bind m f c = _
  unfold EStateM.bind
  rw [h]

theorem orFail_ok {x : Except GoErr α} : orFail x c = .ok a c' ↔ x = .ok a ∧ c' = c := by
  cases x with
  | error e =>
    constructor
    · intro h
      exact absurd (show EStateM.Result.error e c = EStateM.Result.ok a c' from h) (by simp)
    · intro h
      exact absurd h.1 (by simp)
  | ok b =>
    constructor
    · intro h
      have h' : EStateM.Result.ok b c = EStateM.Result.ok a c' := h
      cases h'
      exact ⟨rfl, rfl⟩
    · rintro ⟨h, rfl⟩
      cases h
      rfl

theorem failing_ok : failing m c = .ok a c' ↔ m c = .ok a c' := by
  unfold failing
  constructor
  · intro h
    split at h
    next b d hm =>
      cases h
      exact hm
    · simp at h
  · intro h
    rw [h]

theorem ChunkedReader.fail_err (c : ChunkedReader P σ) (e : GoErr) : (c.fail e).2.err = some (c.fail e).1 := by
  unfold ChunkedReader.fail
  split
  · rfl
  next first h =>
    exact h

/-! ## Reading lines -/

/-- The reader has taken `raw` from its source and changed nothing else. -/
structure Takes (c : ChunkedReader P σ) (raw : Bytes) (c' : ChunkedReader P σ) : Prop where
  same : c' = { c with src := c'.src }
  content_eq : content c.src = raw ++ content c'.src

theorem trimLine_ok {l : Bytes} (h : trimLine raw = .ok line) (hraw : raw = l ++ [0x0A] ∨ raw = l) (hl : 0x0A ∉ l) :
    line <+: raw ∧ 0x0A ∉ line ∧ raw.length ≤ maxChunkHeaderLine := by
  obtain ⟨hlen, h⟩ := else_ok h
  cases h
  have hinner : trimSuffix [0x0A] raw = l := by
    rcases hraw with rfl | rfl
    · exact trimSuffix_append _ _
    · refine trimSuffix_of_not ?_
      rintro ⟨t, ht⟩
      rw [← ht] at hl
      exact hl (mem_append_right _ (mem_singleton.mpr rfl))
  have hsub := trimSuffix_begins [0x0D] l
  rw [hinner]
  refine ⟨hsub.trans ?_, fun hm => hl (hsub.subset hm), by omega⟩
  rcases hraw with rfl | rfl
  · exact prefix_append _ _
  · exact prefix_refl _

theorem readString_content (b : Bufio σ) (delim : UInt8) :
    content b = (b.readString delim).out ++ content (b.readString delim).next := by
  obtain ⟨hfound, hmissing, -⟩ := b.readString_spec delim
  cases hcut : cut delim (content b) with
  | none =>
    obtain ⟨h1, h2, -⟩ := hmissing hcut
    rw [h1, h2, append_nil]
  | some q =>
    obtain ⟨h1, -, h3⟩ := hfound q.1 q.2 hcut
    rw [h1, h3, append_assoc]
    exact (cut_eq_some hcut).1

theorem readLine_trim (h : readLine c = .ok line c') :
    trimLine (c.src.readString 0x0A).out = .ok line
      ∧ c' = { c with src := (c.src.readString 0x0A).next } := by
  refine orFail_ok.mp ?_
  unfold readLine at h
  dsimp only at h
  split at h
  · split at h
    · simp at h
    · exact h
  · exact h

/-- The line is what stands before the next line feed, if there is one, without its CR. -/
theorem readLine_cut (h : readLine c = .ok line c') :
    (cut 0x0A (content c.src) = none ∧ content c'.src = [])
      ∨ ∃ l, cut 0x0A (content c.src) = some (l, content c'.src) ∧ line = trimSuffix [0x0D] l := by
  obtain ⟨htrim, rfl⟩ := readLine_trim h
  obtain ⟨hfound, hmissing, -⟩ := c.src.readString_spec 0x0A
  cases hcut : cut 0x0A (content c.src) with
  | none => exact .inl ⟨rfl, (hmissing hcut).2.1⟩
  | some q =>
    obtain ⟨hout, -, hnext⟩ := hfound q.1 q.2 hcut
    obtain ⟨-, htrim⟩ := else_ok htrim
    cases htrim
    refine .inr ⟨q.1, ?_, ?_⟩
    · rw [hnext]
    · rw [hout, trimSuffix_append]

theorem readLine_ok (h : readLine c = .ok line c') :
    ∃ raw, Takes c raw c' ∧ line <+: raw ∧ 0x0A ∉ line ∧ raw.length ≤ maxChunkHeaderLine := by
  obtain ⟨htrim, rfl⟩ := readLine_trim h
  refine ⟨(c.src.readString 0x0A).out, ⟨rfl, readString_content c.src 0x0A⟩, ?_⟩
  obtain ⟨hfound, hmissing, -⟩ := c.src.readString_spec 0x0A
  cases hcut : cut 0x0A (content c.src) with
  | none => exact trimLine_ok htrim (.inr (hmissing hcut).1) (cut_eq_none.mp hcut)
  | some q => exact trimLine_ok htrim (.inl (hfound q.1 q.2 hcut).1) (cut_eq_some hcut).2

theorem readLine_error (h : readLine c = .error e c') : ∃ raw, Takes c raw c' := by
  have hsrc : c' = { c with src := (c.src.readString 0x0A).next } := by
    have hfail : ∀ {x : Except GoErr Bytes} {d d' : ChunkedReader P σ}, orFail x d = .error e d' → d' = d := by
      intro x d d' hx
      cases x with
      | error e' =>
        cases (show EStateM.Result.error e' d = .error e d' from hx)
        rfl
      | ok a => exact absurd (show EStateM.Result.ok a d = .error e d' from hx) (by simp)
    unfold readLine at h
    dsimp only at h
    split at h
    · split at h
      · cases h
        rfl
      · exact hfail h
    · exact hfail h
  subst hsrc
  exact ⟨_, rfl, readString_content c.src 0x0A⟩

variable {c : ChunkedReader P σ}

theorem readLine_crlf {rest : Bytes} (hc : content c.src = line ++ 0x0D :: 0x0A :: rest) (hline : 0x0A ∉ line)
    (hlen : line.length + 2 ≤ maxChunkHeaderLine) :
    ∃ src, readLine c = .ok line { c with src := src } ∧ content src = rest := by
  have hcut : cut 0x0A (content c.src) = some (line ++ [0x0D], rest) := by
    have hmem : 0x0A ∉ line ++ [0x0D] := by simp [hline]
    rw [hc, show line ++ 0x0D :: 0x0A :: rest = line ++ [0x0D] ++ 0x0A :: rest by simp,
      cut_append hmem]
  obtain ⟨hout, herr, hnext⟩ := (c.src.readString_spec 0x0A).found _ _ hcut
  refine ⟨(c.src.readString 0x0A).next, ?_, hnext⟩
  unfold readLine
  dsimp only
  rw [herr, hout]
  refine orFail_ok.mpr ⟨?_, rfl⟩
  unfold trimLine
  rw [if_neg (by simp only [length_append, length_singleton]; omega), trimSuffix_append,
    trimSuffix_append]

theorem expectCRLF_ok (h : expectCRLF c = .ok () c') : Takes c [0x0D, 0x0A] c' := by
  unfold expectCRLF at h
  dsimp only at h
  split at h
  · simp at h
  · split at h
    next hout =>
      cases h
      refine ⟨rfl, ?_⟩
      rw [readFull_content, ← hout, readFull_out, take_append_drop]
    · simp at h

theorem expectCRLF_run {rest : Bytes} (hc : content c.src = 0x0D :: 0x0A :: rest) :
    ∃ src, expectCRLF c = .ok () { c with src := src } ∧ content src = rest := by
  have hout : (readFull c.src 2).out = [0x0D, 0x0A] := by rw [readFull_out, hc]; rfl
  have herr : (readFull c.src 2).err = none := readFull_err_none (by rw [hc]; simp)
  refine ⟨(readFull c.src 2).next, ?_, ?_⟩
  · unfold expectCRLF
    dsimp only
    rw [herr]
    rw [if_pos hout]
  · rw [readFull_content, hc]
    rfl

/-! ## Signatures and the trailer -/

/-- The signature a reader expects for its current chunk. -/
def ChunkedReader.expectedSig (c : ChunkedReader P σ) (data : Bytes) : Bytes :=
  P.sign c.signingKey (P.chunkString c.timestamp c.scope c.prevSig data)

theorem verifyChunkSignature_signed (hm : c.mode.signed = true) : verifyChunkSignature c = .ok () c' ↔
      c.expectedSig (c.chunkHash.getD []) = c.chunkSig ∧ c' = { c with prevSig := c.chunkSig } := by
  unfold verifyChunkSignature ChunkedReader.expectedSig
  rw [hm]
  simp only [Bool.not_true, Bool.false_eq_true, if_false]
  constructor
  · intro h
    split at h
    next heq =>
      cases h
      exact ⟨heq, rfl⟩
    · simp at h
  · rintro ⟨heq, rfl⟩
    rw [if_pos heq]

theorem verifyChunkSignature_ok (h : verifyChunkSignature c = .ok () c') : c' = { c with prevSig := c'.prevSig } := by
  cases hm : c.mode.signed with
  | true => rw [((verifyChunkSignature_signed hm).mp h).2]
  | false =>
    unfold verifyChunkSignature at h
    rw [hm] at h
    cases h
    rfl

def canonicalText (fields : List (Bytes × Bytes)) : Bytes :=
  fields.flatMap fun q => canonicalField q.1 q.2

def trailerHeaders (h : Header) (fields : List (Bytes × Bytes)) : Header :=
  fields.foldl (fun h q => Header.set h q.1 q.2) h

def FieldIn (text : Bytes) (q : Bytes × Bytes) : Prop :=
  ∃ line, line <:+: text ∧ 0x0A ∉ line ∧ trailerField line = some q

theorem FieldIn.mono {text text' : Bytes} (h : FieldIn text q) (hsub : text <:+: text') : FieldIn text' q := by
  obtain ⟨line, hline, hrest⟩ := h
  exact ⟨line, hline.trans hsub, hrest⟩

/-- What the loop over the trailer has gathered from `raw`, beyond what it started with. -/
structure Gathers (c : ChunkedReader P σ) (t : TrailerText) (raw : Bytes)
    (fields : List (Bytes × Bytes)) (c' : ChunkedReader P σ) (t' : TrailerText) : Prop where
  same : c' = { c with src := c'.src, trailer := c'.trailer }
  trailer : c'.trailer = trailerHeaders c.trailer fields
  content_eq : content c.src = raw ++ content c'.src
  canonical : t'.canonical = t.canonical ++ canonicalText fields
  fields_in : ∀ q ∈ fields, FieldIn raw q ∧ q.1 ≠ trailerSignature
  signature : t'.signature = t.signature ∨ t'.signature <:+: raw

theorem trailerField_value (h : trailerField line = some q) : q.2 <:+: line := by
  obtain ⟨⟨a, b⟩, hcut, rfl⟩ := Option.map_eq_some_iff.mp h
  obtain ⟨rfl, -⟩ := cut_eq_some hcut
  exact (trimSpace_part b).trans ((suffix_cons _ b).trans (suffix_append a _)).isInfix

theorem Takes.gathers (h : Takes c raw c') : Gathers c t raw [] c' t := by
  obtain ⟨hsame, hcontent⟩ := h
  refine ⟨by rw [hsame], by rw [hsame]; rfl, hcontent, ?_, by simp, .inl rfl⟩
  exact (append_nil _).symm

theorem Gathers.signatureLine {value : Bytes} {fields : List (Bytes × Bytes)} (htake : Takes c raw c₁)
    (hvalue : value <:+: raw) (g : Gathers c₁ { t with signature := value } raw' fields c' t') :
    Gathers c t (raw ++ raw') fields c' t' := by
  have hsub : raw' <:+: raw ++ raw' := (suffix_append raw raw').isInfix
  have hsub' : raw <:+: raw ++ raw' := (prefix_append raw raw').isInfix
  refine ⟨?_, ?_, ?_, g.canonical, ?_, .inr ?_⟩
  · rw [g.same, htake.same]
  · rw [g.trailer, htake.same]
  · rw [htake.content_eq, g.content_eq, append_assoc]
  · exact fun q hq => ⟨(g.fields_in q hq).1.mono hsub, (g.fields_in q hq).2⟩
  · rcases g.signature with h | h
    · rw [h]
      exact hvalue.trans hsub'
    · exact h.trans hsub

theorem Gathers.fieldLine {name value : Bytes} {fields : List (Bytes × Bytes)} (htake : Takes c raw c₁)
    (hin : FieldIn raw (name, value)) (hname : name ≠ trailerSignature) (g : Gathers { c₁ with trailer := Header.set c₁.trailer name value }
      { t with canonical := t.canonical ++ canonicalField name value } raw' fields c' t') :
    Gathers c t (raw ++ raw') ((name, value) :: fields) c' t' := by
  have hsub : raw' <:+: raw ++ raw' := (suffix_append raw raw').isInfix
  have hsub' : raw <:+: raw ++ raw' := (prefix_append raw raw').isInfix
  refine ⟨?_, ?_, ?_, ?_, ?_, ?_⟩
  · rw [g.same, htake.same]
  · rw [g.trailer, htake.same]
    rfl
  · rw [htake.content_eq, append_assoc, ← g.content_eq]
  · rw [g.canonical]
    simp [canonicalText]
  · intro q hq
    rcases mem_cons.mp hq with rfl | hq
    · exact ⟨hin.mono hsub', hname⟩
    · exact ⟨(g.fields_in q hq).1.mono hsub, (g.fields_in q hq).2⟩
  · rcases g.signature with h | h
    · exact .inl h
    · exact .inr (h.trans hsub)

theorem readTrailerLines_ok {n : Nat} (h : readTrailerLines n t c = .ok t' c') :
    ∃ raw fields, Gathers c t raw fields c' t' := by
  induction n generalizing t c with
  | zero =>
    cases (show EStateM.Result.ok t c = .ok t' c' from h)
    exact ⟨[], [], Takes.gathers ⟨rfl, rfl⟩⟩
  | succ n ih =>
    rw [readTrailerLines] at h
    dsimp only at h
    split at h
    next e c₁ hline =>
      obtain ⟨raw, htake⟩ := readLine_error hline
      split at h
      · cases h
        exact ⟨raw, [], htake.gathers⟩
      · simp at h
    next line c₁ hline =>
      obtain ⟨raw, htake, hbegin, hnl, -⟩ := readLine_ok hline
      split at h
      · cases h
        exact ⟨raw, [], htake.gathers⟩
      · split at h
        · simp at h
        next name value hfield =>
          split at h
          · obtain ⟨raw', fields, g⟩ := ih h
            exact ⟨_, _, g.signatureLine htake ((trailerField_value hfield).trans hbegin.isInfix)⟩
          next hname =>
            obtain ⟨raw', fields, g⟩ := ih h
            exact ⟨_, _, g.fieldLine htake ⟨line, hbegin.isInfix, hnl, hfield⟩ hname⟩

/-- What a trailer that is accepted was: its fields, and in the mode that signs it a signature of
them that stands in the body. -/
theorem readTrailer_ok (h : readTrailer c = .ok () c') : ∃ raw fields, content c.src = raw ++ content c'.src
      ∧ c' = { c with src := c'.src, trailer := trailerHeaders c.trailer fields }
      ∧ (∀ q ∈ fields, FieldIn raw q ∧ q.1 ≠ trailerSignature)
      ∧ (c.mode = .streamingSignedTrailer →
          P.sign c.signingKey (P.trailerString c.timestamp c.scope c.prevSig (canonicalText fields))
            <:+: raw) := by
  unfold readTrailer at h
  split at h
  · simp at h
  next t c₁ hlines =>
    obtain ⟨raw, fields, g⟩ := readTrailerLines_ok hlines
    have hcan : t.canonical = canonicalText fields := by rw [g.canonical]; rfl
    have hc' : c' = c₁ := by
      split at h
      · cases h; rfl
      · split at h
        · cases h; rfl
        · simp at h
    subst hc'
    refine ⟨raw, fields, g.content_eq, by rw [← g.trailer]; exact g.same, g.fields_in, ?_⟩
    intro hmode
    have hmode' : c'.mode = .streamingSignedTrailer := by rw [g.same]; exact hmode
    rw [if_neg (by rw [hmode']; simp)] at h
    split at h
    next hsig =>
      rw [g.same] at hsig
      rw [← hcan, hsig]
      rcases g.signature with hs | hs
      · rw [hs]
        exact nil_infix
      · exact hs
    · simp at h

theorem settle_ok : settle c = .ok () c' ↔
      c.decoded = c.expectedDecoded ∧ settleChecksums P c.checksums c.trailer = .ok () ∧ c' = c := by
  unfold settle
  constructor
  · intro h
    split at h
    · simp at h
    next hlen =>
      obtain ⟨h1, h2⟩ := orFail_ok.mp h
      exact ⟨not_not.mp hlen, h1, h2⟩
  · rintro ⟨hlen, h1, rfl⟩
    rw [if_neg (not_not.mpr hlen)]
    exact orFail_ok.mpr ⟨h1, rfl⟩

/-! ## Chunks -/

theorem splitChunkHeader_sig {size sig : Bytes} (h : splitChunkHeader line true = .ok (size, sig)) : sig <:+ line := by
  unfold splitChunkHeader at h
  split at h
  · simp at h
  next size' rest hcut =>
    split at h
    · simp at h
    next value hvalue =>
      cases h
      obtain ⟨rfl, -⟩ := cut_eq_some hcut
      rw [cutPrefix_eq_some hvalue]
      exact ((suffix_append _ _).trans (suffix_cons _ _)).trans (suffix_append _ _)

/-- Everything `nextChunk` does when it succeeds: a header line, and then either the start of a
chunk with data or the end of the body. -/
theorem nextChunk_ok (h : nextChunk c = .ok () c') : ∃ raw line sizeText sig size c₁,
    Takes c raw c₁ ∧ (line <+: raw ∧ readLine c = .ok line c₁)
      ∧ splitChunkHeader line c.mode.signed = .ok (sizeText, sig) ∧ chunkSize sizeText = .ok size
      ∧ ((size ≠ 0 ∧ c' = { c₁.begin sig with remaining := size })
        ∨ (size = 0 ∧ ∃ c₂ c₃, verifyChunkSignature (c₁.begin sig) = .ok () c₂
            ∧ readTrailer c₂ = .ok () c₃ ∧ settle c₃ = .ok () c₃ ∧ c' = { c₃ with done := true })) := by
  obtain ⟨line, c₁, hline, h₁⟩ := method_bind_ok (failing_ok.mp h)
  obtain ⟨raw, htake, hbegin, -, -⟩ := readLine_ok hline
  obtain ⟨d, d₁, hget, h₂⟩ := method_bind_ok h₁
  cases (show EStateM.Result.ok c₁ c₁ = .ok d d₁ from hget)
  obtain ⟨⟨sizeText, sig⟩, d₂, hsplit', h₃⟩ := method_bind_ok h₂
  obtain ⟨hsplit, rfl⟩ := orFail_ok.mp hsplit'
  obtain ⟨size, d₃, hsize', h₄⟩ := method_bind_ok h₃
  obtain ⟨hsize, rfl⟩ := orFail_ok.mp hsize'
  obtain ⟨u, d₄, hmodify, h₅⟩ := method_bind_ok h₄
  cases (show EStateM.Result.ok () (d₃.begin sig) = .ok u d₄ from hmodify)
  have hmode : d₃.mode = c.mode := by rw [htake.same]
  rw [hmode] at hsplit
  refine ⟨raw, line, sizeText, sig, size, d₃, htake, ⟨hbegin, hline⟩, hsplit, hsize, ?_⟩
  split at h₅
  next h0 =>
    obtain ⟨_, c₂, hverify, h₆⟩ := method_bind_ok h₅
    obtain ⟨_, c₃, htrailer, h₇⟩ := method_bind_ok h₆
    obtain ⟨_, c₄, hsettle, h₈⟩ := method_bind_ok h₇
    obtain ⟨_, _, rfl⟩ := settle_ok.mp hsettle
    cases (show EStateM.Result.ok () { c₄ with done := true } = .ok () c' from h₈)
    exact .inr ⟨h0, c₂, c₄, hverify, htrailer, hsettle, rfl⟩
  next h0 =>
    cases (show EStateM.Result.ok () { d₃.begin sig with remaining := size } = .ok () c' from h₅)
    exact .inl ⟨h0, rfl⟩

theorem finishChunk_ok (h : finishChunk c = .ok () c') :
    ∃ c₁, Takes c [0x0D, 0x0A] c₁ ∧ verifyChunkSignature c₁ = .ok () c' := by
  obtain ⟨_, c₁, hcrlf, hverify⟩ := method_bind_ok (failing_ok.mp h)
  exact ⟨c₁, expectCRLF_ok hcrlf, hverify⟩

/-! ## Reads -/

/-- `c'` is in the middle of a chunk, which it was before or has started just now. -/
def Opens (c c' : ChunkedReader P σ) : Prop :=
  (c.remaining ≠ 0 ∧ c' = c) ∨ (c.remaining = 0 ∧ nextChunk c = .ok () c' ∧ c'.done = false)

theorem Opens.remaining (h : Opens c c') : c'.remaining ≠ 0 := by
  rcases h with ⟨hrem, rfl⟩ | ⟨-, hnext, hdone⟩
  · exact hrem
  · obtain ⟨raw, line, sizeText, sig, size, c₁, -, -, -, -, hend | hend⟩ := nextChunk_ok hnext
    · obtain ⟨hsize, rfl⟩ := hend
      exact hsize
    · obtain ⟨-, c₂, c₃, -, -, -, rfl⟩ := hend
      simp at hdone

theorem ChunkedReader.read_failed (h : c.err = some e) (k : Nat) : read c k = ⟨[], some (.other e), c⟩ := by
  simp only [ByteReader.read, h]

theorem ChunkedReader.read_done (herr : c.err = none) (h : c.done = true)
    (k : Nat) : read c k = ⟨[], some .eof, c⟩ := by
  simp only [ByteReader.read, herr]
  rw [if_pos h]

theorem ChunkedReader.read_cases (herr : c.err = none) (hdone : c.done = false) (k : Nat) :
    (∃ e c', c.remaining = 0 ∧ nextChunk c = .error e c' ∧ read c k = ⟨[], some (.other e), c'⟩)
    ∨ (∃ c', c.remaining = 0 ∧ nextChunk c = .ok () c' ∧ c'.done = true ∧ read c k = ⟨[], some .eof, c'⟩)
    ∨ (∃ c', Opens c c' ∧ read c k = c'.readData k) := by
  generalize hread : read c k = q
  simp only [ByteReader.read, herr, hdone, Bool.false_eq_true, if_false] at hread
  by_cases hrem : c.remaining = 0
  · rw [if_pos hrem] at hread
    split at hread
    next e c' hnext =>
      exact .inl ⟨e, c', hrem, hnext, hread.symm⟩
    next c' hnext =>
      by_cases hd : c'.done = true
      · rw [if_pos hd] at hread
        exact .inr (.inl ⟨c', hrem, hnext, hd, hread.symm⟩)
      · rw [if_neg hd] at hread
        exact .inr (.inr ⟨c', .inr ⟨hrem, hnext, Bool.eq_false_iff.mpr hd⟩, hread.symm⟩)
  · rw [if_neg hrem] at hread
    exact .inr (.inr ⟨c, .inl ⟨hrem, rfl⟩, hread.symm⟩)

/-- Every way a read inside a chunk can go. In all but the first, the bytes asked for were there. -/
theorem ChunkedReader.readData_cases (c : ChunkedReader P σ) (k : Nat) :
    (∃ e c', (content c.src).length < min k c.remaining ∧ c'.err = some e ∧ c.readData k = ⟨[], some (.other e), c'⟩)
    ∨ ∃ src data rest, content c.src = data ++ rest ∧ content src = rest ∧ data.length = min k c.remaining
        ∧ (((c.take src data).remaining ≠ 0 ∧ c.readData k = ⟨data, none, c.take src data⟩)
          ∨ ((c.take src data).remaining = 0 ∧ ∃ c', finishChunk (c.take src data) = .ok () c'
              ∧ c.readData k = ⟨data, none, c'⟩)
          ∨ ((c.take src data).remaining = 0 ∧ ∃ e c', finishChunk (c.take src data) = .error e c'
              ∧ c.readData k = ⟨data, some (.other e), c'⟩)) := by
  by_cases hlen : (content c.src).length < min k c.remaining
  · left
    obtain ⟨e, he, -⟩ := readFull_err_some hlen
    unfold ChunkedReader.readData
    dsimp only
    rw [he]
    exact ⟨_, _, hlen, ChunkedReader.fail_err _ _, rfl⟩
  · right
    have hle := Nat.not_lt.mp hlen
    have hout := readFull_out c.src (min k c.remaining)
    refine ⟨(readFull c.src (min k c.remaining)).next, (readFull c.src (min k c.remaining)).out,
      (content c.src).drop (min k c.remaining), ?_, readFull_content _ _, ?_, ?_⟩
    · rw [hout, take_append_drop]
    · rw [hout, length_take]
      omega
    · unfold ChunkedReader.readData
      dsimp only
      rw [readFull_err_none hle]
      dsimp only
      split
      next hrem =>
        right
        split
        next c' hfin =>
          exact .inl ⟨hrem, c', hfin, rfl⟩
        next e c' hfin =>
          exact .inr ⟨hrem, e, c', hfin, rfl⟩
      next hrem =>
        exact .inl ⟨hrem, rfl⟩

end BlindBucket.Auth
