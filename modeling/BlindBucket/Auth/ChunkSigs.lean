import BlindBucket.Auth.ChunkedRead

/-!
# What the chunked reader has verified

The invariant of a run of reads, for any mode and for the signed ones. A reader that has
released some bytes has taken them, chunk by chunk, from its body; in a signed mode each
chunk it has finished carries a signature over the chunk and the signature before it. At
the end of the body the empty chunk and the trailer are signed in the same way, and the
number of bytes is the one that was announced.
-/

namespace BlindBucket.Auth

open ByteIo GoText List

variable {P : Primitives} {σ : Type} [ByteReader σ GoErr] [LawfulReader σ]

/-! ## In every mode -/

/-- What a reader never changes. -/
structure Params where
  mode : PayloadMode
  signingKey : Bytes
  scope : Bytes
  timestamp : Bytes
  expectedDecoded : Nat

def ChunkedReader.params (c : ChunkedReader P σ) : Params :=
  ⟨c.mode, c.signingKey, c.scope, c.timestamp, c.expectedDecoded⟩

/-- `c` is what `c₀` becomes when `out` has been read from it and nothing has failed. -/
structure Decoding (c₀ c : ChunkedReader P σ) (out : Bytes) : Prop where
  err : c.err = none
  done : c.done = false
  params : c.params = c₀.params
  checksums : c.checksums = c₀.checksums.map (·.write out)
  decoded : c.decoded = c₀.decoded + out.length
  trailer : c.trailer = c₀.trailer
  rest : content c.src <:+ content c₀.src

/-- `c` is what `c₀` becomes when `out` and then the end has been read from it. -/
structure Ended (c₀ c : ChunkedReader P σ) (out : Bytes) : Prop where
  length : c₀.decoded + out.length = c₀.expectedDecoded
  settled : settleChecksums P (c₀.checksums.map (·.write out)) c.trailer = .ok ()

theorem write_write (e : Expectation) (p q : Bytes) : (e.write p).write q = e.write (p ++ q) := by
  simp [Expectation.write]

variable {c₀ c c' : ChunkedReader P σ}

variable {out : Bytes}

theorem Decoding.opens (h : Decoding c₀ c out) (ho : Opens c c') : Decoding c₀ c' out := by
  rcases ho with ⟨-, rfl⟩ | ⟨-, hnext, hdone⟩
  · exact h
  · obtain ⟨raw, line, sizeText, sig, size, c₁, htake, -, -, -, hend | hend⟩ := nextChunk_ok hnext
    · obtain ⟨-, rfl⟩ := hend
      have hrest : content c₁.src <:+ content c₀.src := by
        refine IsSuffix.trans ?_ h.rest
        rw [htake.content_eq]
        exact suffix_append _ _
      obtain ⟨hsame, -⟩ := htake
      constructor
      · rw [hsame]; exact h.err
      · exact hdone
      · rw [hsame]; exact h.params
      · rw [hsame]; exact h.checksums
      · rw [hsame]; exact h.decoded
      · rw [hsame]; exact h.trailer
      · exact hrest
    · obtain ⟨-, c₂, c₃, -, -, -, rfl⟩ := hend
      simp at hdone

variable {data cur : Bytes} {src : Bufio σ} {ds : List Bytes}

theorem Decoding.take (h : Decoding c₀ c out) (hdata : content c.src = data ++ content src) :
    Decoding c₀ (c.take src data) (out ++ data) := by
  refine ⟨h.err, h.done, h.params, ?_, ?_, h.trailer, ?_⟩
  · show c.checksums.map (·.write data) = _
    rw [h.checksums, map_map]
    refine map_congr_left ?_
    intro e _
    exact write_write e out data
  · show c.decoded + data.length = _
    rw [h.decoded, length_append, Nat.add_assoc]
  · refine IsSuffix.trans ?_ h.rest
    rw [hdata]
    exact suffix_append _ _

theorem Decoding.finish (h : Decoding c₀ c out) (hf : finishChunk c = .ok () c') : Decoding c₀ c' out := by
  obtain ⟨c₁, ⟨hsame, hcontent⟩, hverify⟩ := finishChunk_ok hf
  have hsame' := verifyChunkSignature_ok hverify
  have hrest : content c₁.src <:+ content c₀.src := by
    refine IsSuffix.trans ?_ h.rest
    rw [hcontent]
    exact suffix_append _ _
  rw [hsame', hsame]
  exact ⟨h.err, h.done, h.params, h.checksums, h.decoded, h.trailer, hrest⟩

theorem Decoding.ended (h : Decoding c₀ c out)
    (hnext : nextChunk c = .ok () c') (hdone : c'.done = true) : Ended c₀ c' out := by
  obtain ⟨raw, line, sizeText, sig, size, c₁, htake, -, -, -, hend | hend⟩ := nextChunk_ok hnext
  · obtain ⟨-, rfl⟩ := hend
    have : c₁.done = true := hdone
    rw [htake.same] at this
    exact absurd h.done (by rw [this]; simp)
  · obtain ⟨-, c₂, c₃, hverify, htrailer, hsettle, rfl⟩ := hend
    obtain ⟨hlen, hsum, -⟩ := settle_ok.mp hsettle
    obtain ⟨raw', fields, -, hc₃, -, -⟩ := readTrailer_ok htrailer
    have hc₂ := verifyChunkSignature_ok hverify
    have hexp : c.expectedDecoded = c₀.expectedDecoded := congrArg Params.expectedDecoded h.params
    constructor
    · rw [hc₃, hc₂, htake.same] at hlen
      rw [← h.decoded, ← hexp]
      exact hlen
    · have hcs : c₃.checksums = c.checksums := by rw [hc₃, hc₂, htake.same]; rfl
      rw [hcs, h.checksums] at hsum
      exact hsum

/-- The rule for an invariant of the reader: it has to hold over the start of a chunk, over data
inside one and over the data that finishes one, and give what is claimed of the end. -/
theorem chunked_run {I Fin : ChunkedReader P σ → Bytes → Prop}
    (live : ∀ {c out}, I c out → c.err = none ∧ c.done = false)
    (opens : ∀ {c c' out}, I c out → Opens c c' → I c' out)
    (take : ∀ {c out src data}, I c out → c.remaining ≠ 0 → content c.src = data ++ content src →
      data.length ≤ c.remaining → (c.take src data).remaining ≠ 0 → I (c.take src data) (out ++ data))
    (finish : ∀ {c c' out src data}, I c out → c.remaining ≠ 0 →
      content c.src = data ++ content src → data.length ≤ c.remaining →
      (c.take src data).remaining = 0 → finishChunk (c.take src data) = .ok () c' →
      I c' (out ++ data))
    (ended : ∀ {c c' out}, I c out → c.remaining = 0 → nextChunk c = .ok () c' →
      c'.done = true → Fin c' out) :
    SoFarInv I (fun c e out => e = .eof → Fin c out) := by
  intro c out k h
  obtain ⟨herr, hdone⟩ := live h
  rcases ChunkedReader.read_cases herr hdone k with
    ⟨e, c', -, -, hread⟩ | ⟨c', hrem, hnext, hdone', hread⟩ | ⟨c₁, ho, hread⟩
  · rw [hread]
    exact by simp
  · rw [hread]
    intro _
    rw [append_nil]
    exact ended h hrem hnext hdone'
  · have h₁ := opens h ho
    rw [hread]
    rcases c₁.readData_cases k with
      ⟨e, c', -, -, hdata⟩ | ⟨src, data, rest, hsplit, hsrc, hlen, hcases⟩
    · rw [hdata]
      exact by simp
    · rw [← hsrc] at hsplit
      have hle : data.length ≤ c₁.remaining := by omega
      rcases hcases with ⟨hrem, hdata⟩ | ⟨hrem, c', hfin, hdata⟩ | ⟨-, e, c', -, hdata⟩
      · rw [hdata]
        exact take h₁ ho.remaining hsplit hle hrem
      · rw [hdata]
        exact finish h₁ ho.remaining hsplit hle hrem hfin
      · rw [hdata]
        exact by simp

/-! ## The data of the body's text -/

/-- The size in the header line of a chunk; of a line that is none, zero. -/
def frameSize (signed : Bool) (line : Bytes) : Nat :=
  match splitChunkHeader line signed with
  | .ok (sizeText, _) => (chunkSize sizeText).toOption.getD 0
  | .error _ => 0

/-- The data of the chunks in a text, up to the empty one: a function of the text alone, which says
nothing of buffers, signatures or checksums. -/
def chunkData (signed : Bool) (text : Bytes) : Bytes :=
  match _h : cut 0x0A text with
  | none => []
  | some (line, rest) =>
    let size := frameSize signed (trimSuffix [0x0D] line)
    if size = 0 then [] else rest.take size ++ chunkData signed (rest.drop (size + 2))
termination_by text.length
decreasing_by
  rw [(cut_eq_some _h).1]
  simp only [length_drop, length_append, length_cons]
  omega

/-- What is left of that data: the rest of the current chunk, and the chunks after its CRLF. -/
def ChunkedReader.pending (c : ChunkedReader P σ) : Bytes :=
  if c.remaining = 0 then chunkData c.mode.signed (content c.src)
  else (content c.src).take c.remaining
    ++ chunkData c.mode.signed ((content c.src).drop (c.remaining + 2))

theorem chunkData_of_cut_none {signed : Bool} {text : Bytes} (h : cut 0x0A text = none) :
    chunkData signed text = [] := by
  rw [chunkData]
  split
  · rfl
  next hcut =>
    rw [h] at hcut
    cases hcut

theorem chunkData_of_cut {signed : Bool} {text line rest : Bytes}
    (h : cut 0x0A text = some (line, rest)) : chunkData signed text =
      if frameSize signed (trimSuffix [0x0D] line) = 0 then []
      else rest.take (frameSize signed (trimSuffix [0x0D] line))
        ++ chunkData signed (rest.drop (frameSize signed (trimSuffix [0x0D] line) + 2)) := by
  rw [chunkData]
  split
  next hcut =>
    rw [h] at hcut
    cases hcut
  next line' rest' hcut =>
    rw [h] at hcut
    cases hcut
    rfl

/-- A header line that is read is one in the text. -/
theorem chunkData_readLine {line sizeText sig : Bytes} {size : Nat} {signed : Bool}
    (hline : readLine c = .ok line c') (hsplit : splitChunkHeader line signed = .ok (sizeText, sig))
    (hsize : chunkSize sizeText = .ok size) : chunkData signed (content c.src) =
      if size = 0 then []
      else (content c'.src).take size ++ chunkData signed ((content c'.src).drop (size + 2)) := by
  have hframe : frameSize signed line = size := by
    unfold frameSize
    rw [hsplit]
    dsimp only
    rw [hsize]
    rfl
  rcases readLine_cut hline with ⟨hcut, hrest⟩ | ⟨l, hcut, rfl⟩
  · rw [chunkData_of_cut_none hcut, hrest, take_nil, chunkData_of_cut_none rfl]
    split <;> rfl
  · rw [chunkData_of_cut hcut, hframe]

theorem Opens.pending (ho : Opens c c') : c'.pending = c.pending := by
  rcases ho with ⟨-, rfl⟩ | ⟨hrem, hnext, hdone⟩
  · rfl
  · obtain ⟨raw, line, sizeText, sig, size, c₁, htake, ⟨-, hline⟩, hsplit, hsize, hend | hend⟩ :=
      nextChunk_ok hnext
    · obtain ⟨hne, rfl⟩ := hend
      have hmode : c₁.mode = c.mode := by rw [htake.same]
      show (if size = 0 then _ else _) = _
      rw [ChunkedReader.pending, if_pos hrem, chunkData_readLine hline hsplit hsize, if_neg hne,
        if_neg hne, ← hmode]
      rfl
    · obtain ⟨-, c₂, c₃, -, -, -, rfl⟩ := hend
      simp at hdone

theorem pending_take (hrem : c.remaining ≠ 0) (hdata : content c.src = data ++ content src)
    (hlen : data.length ≤ c.remaining) : c.pending = data
      ++ ((content src).take (c.remaining - data.length)
        ++ chunkData c.mode.signed ((content src).drop (c.remaining - data.length + 2))) := by
  have hsum : c.remaining = data.length + (c.remaining - data.length) := by omega
  rw [ChunkedReader.pending, if_neg hrem, hdata, hsum]
  rw [Nat.add_assoc, take_length_add_append, drop_length_add_append, Nat.add_sub_cancel_left,
    append_assoc]

theorem pending_finish (hf : finishChunk c = .ok () c') (hrem : c.remaining = 0) :
    c'.pending = chunkData c.mode.signed ((content c.src).drop 2) := by
  obtain ⟨c₁, ⟨hsame, hcontent⟩, hverify⟩ := finishChunk_ok hf
  have hc' : c' = { c with src := c₁.src, prevSig := c'.prevSig } := by
    rw [verifyChunkSignature_ok hverify, hsame]
  rw [hc', ChunkedReader.pending, if_pos hrem, hcontent]
  rfl

theorem pending_ended (hdone : c.done = false) (hrem : c.remaining = 0)
    (hnext : nextChunk c = .ok () c') (hdone' : c'.done = true) : c.pending = [] := by
  obtain ⟨raw, line, sizeText, sig, size, c₁, htake, ⟨-, hline⟩, hsplit, hsize, hend | hend⟩ :=
    nextChunk_ok hnext
  · obtain ⟨-, rfl⟩ := hend
    have hd : c₁.done = true := hdone'
    rw [htake.same] at hd
    exact absurd hdone (by rw [hd]; simp)
  · rw [ChunkedReader.pending, if_pos hrem, chunkData_readLine hline hsplit hsize, if_pos hend.1]

/-- **A run of reads, in any mode.** What is released and what is pending are together the data of
the text. At `io.EOF` all of it has been released, it is of the announced length, and the checksums
over it have been settled against the trailer. -/
theorem decoding_run (c₀ : ChunkedReader P σ) {payload : Bytes} :
    SoFarInv (fun c out => Decoding c₀ c out ∧ out ++ c.pending = payload)
      (fun c e out => e = .eof → Ended c₀ c out ∧ out = payload) := by
  apply chunked_run
  case live => exact fun h => ⟨h.1.err, h.1.done⟩
  case opens =>
    intro c c' out h ho
    exact ⟨h.1.opens ho, by rw [ho.pending]; exact h.2⟩
  case take =>
    intro c out src data h hrem hdata hlen hleft
    refine ⟨h.1.take hdata, ?_⟩
    rw [← h.2, pending_take hrem hdata hlen, ChunkedReader.pending, if_neg hleft, append_assoc]
    rfl
  case finish =>
    intro c c' out src data h hrem hdata hlen hleft hfin
    refine ⟨(h.1.take hdata).finish hfin, ?_⟩
    have hzero : c.remaining - data.length = 0 := hleft
    rw [← h.2, pending_take hrem hdata hlen, pending_finish hfin hleft, hzero, append_assoc]
    rfl
  case ended =>
    intro c c' out h hrem hnext hdone
    refine ⟨h.1.ended hnext hdone, ?_⟩
    rw [← h.2, pending_ended h.1.done hrem hnext hdone, append_nil]

/-! ## In the signed modes -/

/-- The signature of the last of the chunks `ds` of a body. -/
def ChunkedReader.sigAfter (c₀ : ChunkedReader P σ) (ds : List Bytes) : Bytes :=
  ds.foldl (fun prev d => P.sign c₀.signingKey (P.chunkString c₀.timestamp c₀.scope prev d)) c₀.prevSig

theorem ChunkedReader.sigAfter_concat (c₀ : ChunkedReader P σ) (ds : List Bytes) (d : Bytes) :
    c₀.sigAfter (ds ++ [d])
      = P.sign c₀.signingKey (P.chunkString c₀.timestamp c₀.scope (c₀.sigAfter ds) d) := by
  unfold ChunkedReader.sigAfter
  rw [foldl_append]
  rfl

/-- The chunks `ds` stand in the body, each with a signature over it and all before it. -/
def Vouched (c₀ : ChunkedReader P σ) (ds : List Bytes) : Prop :=
  ∀ ds' d, ds' ++ [d] <+: ds →
    d <:+: content c₀.src ∧ c₀.sigAfter (ds' ++ [d]) <:+: content c₀.src

theorem Vouched.concat {d : Bytes} (h : Vouched c₀ ds) (hd : d <:+: content c₀.src)
    (hsig : c₀.sigAfter (ds ++ [d]) <:+: content c₀.src) : Vouched c₀ (ds ++ [d]) := by
  intro ds' d' hpre
  rcases prefix_concat_iff.mp hpre with heq | hpre
  · obtain ⟨rfl, hd'⟩ := append_inj' heq rfl
    cases hd'
    exact ⟨hd, hsig⟩
  · exact h ds' d' hpre

/-- The chunks `ds` are finished and the bytes `cur` of the next one have been read. -/
structure Chunks (c₀ c : ChunkedReader P σ) (ds : List Bytes) (cur : Bytes) : Prop where
  vouched : Vouched c₀ ds
  full : ∀ d ∈ ds, d ≠ []
  prevSig : c.prevSig = c₀.sigAfter ds
  /-- The bytes of the current chunk stand in the body in front of what is still to come. -/
  here : cur ++ content c.src <:+ content c₀.src

/-- Inside a chunk, its bytes have been hashed, and the signature claimed for it is known. -/
structure InChunk (c₀ c : ChunkedReader P σ) (ds : List Bytes) (cur : Bytes) : Prop
    extends Chunks c₀ c ds cur where
  hashed : c.chunkHash = some cur
  claimed : c.chunkSig <:+: content c₀.src

/-- The invariant of the signed modes. -/
structure SignedDecoding (c₀ c : ChunkedReader P σ) (out : Bytes) : Prop where
  decoding : Decoding c₀ c out
  signed : c₀.mode.signed = true
  chunks : ∃ ds cur, out = ds.flatten ++ cur
    ∧ ((c.remaining = 0 ∧ cur = [] ∧ Chunks c₀ c ds cur) ∨ (c.remaining ≠ 0 ∧ InChunk c₀ c ds cur))

structure SignedEnd (c₀ c : ChunkedReader P σ) (out : Bytes) : Prop where
  ended : Ended c₀ c out
  body : ∃ ds fields, out = ds.flatten ∧ (∀ d ∈ ds, d ≠ []) ∧ Vouched c₀ (ds ++ [[]])
    ∧ c.trailer = trailerHeaders c₀.trailer fields ∧ (∀ q ∈ fields, FieldIn (content c₀.src) q)
    ∧ (c₀.mode = .streamingSignedTrailer →
        P.sign c₀.signingKey (P.trailerString c₀.timestamp c₀.scope (c₀.sigAfter (ds ++ [[]]))
          (canonicalText fields)) <:+: content c₀.src)

theorem Decoding.signed (h : Decoding c₀ c out) (hm : c₀.mode.signed = true) : c.mode.signed = true := by
  have hmode : c.mode = c₀.mode := congrArg Params.mode h.params
  rw [hmode]
  exact hm

theorem Decoding.expectedSig (h : Decoding c₀ c out) (hprev : c.prevSig = c₀.sigAfter ds) (d : Bytes) :
    c.expectedSig d = c₀.sigAfter (ds ++ [d]) := by
  have hkey : c.signingKey = c₀.signingKey := congrArg Params.signingKey h.params
  have hts : c.timestamp = c₀.timestamp := congrArg Params.timestamp h.params
  have hscope : c.scope = c₀.scope := congrArg Params.scope h.params
  rw [ChunkedReader.sigAfter_concat, ChunkedReader.expectedSig, hkey, hts, hscope, hprev]

theorem SignedDecoding.inChunk (h : SignedDecoding c₀ c out) (hrem : c.remaining ≠ 0) :
    ∃ ds cur, out = ds.flatten ++ cur ∧ InChunk c₀ c ds cur := by
  obtain ⟨ds, cur, hout, ⟨h0, -⟩ | ⟨-, hin⟩⟩ := h.chunks
  · exact absurd h0 hrem
  · exact ⟨ds, cur, hout, hin⟩

theorem SignedDecoding.opens (h : SignedDecoding c₀ c out) (ho : Opens c c') :
    ∃ ds cur, out = ds.flatten ++ cur ∧ InChunk c₀ c' ds cur := by
  rcases ho with ⟨hrem, rfl⟩ | ⟨hrem, hnext, hdone⟩
  · exact h.inChunk hrem
  · obtain ⟨ds, cur, hout, ⟨-, rfl, hch⟩ | ⟨h0, -⟩⟩ := h.chunks
    · obtain ⟨raw, line, sizeText, sig, size, c₁, htake, ⟨hline, -⟩, hsplit, -, hend | hend⟩ :=
        nextChunk_ok hnext
      · obtain ⟨-, rfl⟩ := hend
        have hsigned := h.decoding.signed h.signed
        rw [hsigned] at hsplit
        have hraw : raw <:+: content c₀.src := by
          refine IsInfix.trans ?_ h.decoding.rest.isInfix
          rw [htake.content_eq]
          exact (prefix_append _ _).isInfix
        have hrest : content c₁.src <:+ content c₀.src := by
          refine IsSuffix.trans ?_ h.decoding.rest
          rw [htake.content_eq]
          exact suffix_append _ _
        refine ⟨ds, [], hout, ⟨hch.vouched, hch.full, ?_, hrest⟩, ?_, ?_⟩
        · rw [← hch.prevSig, htake.same]
          rfl
        · rw [htake.same]
          exact if_pos hsigned
        · exact (splitChunkHeader_sig hsplit).isInfix.trans (hline.isInfix.trans hraw)
      · obtain ⟨-, c₂, c₃, -, -, -, rfl⟩ := hend
        simp at hdone
    · exact absurd hrem h0

theorem InChunk.take (h : InChunk c₀ c ds cur) (hdata : content c.src = data ++ content src) :
    InChunk c₀ (c.take src data) ds (cur ++ data) := by
  refine ⟨⟨h.vouched, h.full, h.prevSig, ?_⟩, ?_, h.claimed⟩
  · show cur ++ data ++ content src <:+ content c₀.src
    rw [append_assoc, ← hdata]
    exact h.here
  · show c.chunkHash.map (· ++ data) = _
    rw [h.hashed]
    rfl

theorem InChunk.finish (h : InChunk c₀ c ds cur) (hd : Decoding c₀ c out) (hm : c₀.mode.signed = true) (hcur : cur ≠ [])
    (hf : finishChunk c = .ok () c') :
    Chunks c₀ c' (ds ++ [cur]) [] ∧ c'.remaining = c.remaining := by
  obtain ⟨c₁, ⟨hsame, hcontent⟩, hverify⟩ := finishChunk_ok hf
  have hm₁ : c₁.mode.signed = true := by rw [hsame]; exact hd.signed hm
  obtain ⟨hsig, hc'⟩ := (verifyChunkSignature_signed hm₁).mp hverify
  have hsig' : c₀.sigAfter (ds ++ [cur]) = c.chunkSig := by
    rw [← hd.expectedSig h.prevSig]
    rw [hsame] at hsig
    rw [← hsig]
    rw [h.hashed]
    rfl
  have hin : cur <:+: content c₀.src := (prefix_append cur _).isInfix.trans h.here.isInfix
  refine ⟨⟨h.vouched.concat hin (by rw [hsig']; exact h.claimed), ?_, ?_, ?_⟩, ?_⟩
  · intro d hdm
    rcases mem_append.mp hdm with hdm | hdm
    · exact h.full d hdm
    · rw [mem_singleton.mp hdm]
      exact hcur
  · rw [hc', hsig', hsame]
  · rw [hc']
    refine IsSuffix.trans ?_ h.here
    rw [hcontent]
    exact (suffix_append _ _).trans (suffix_append _ _)
  · rw [hc', hsame]

/-- At the end of the body, the empty chunk and the trailer are signed as well. -/
theorem SignedDecoding.ended (h : SignedDecoding c₀ c out) (hrem : c.remaining = 0) (hnext : nextChunk c = .ok () c')
    (hdone : c'.done = true) : SignedEnd c₀ c' out := by
  refine ⟨h.decoding.ended hnext hdone, ?_⟩
  obtain ⟨ds, cur, hout, hchunks⟩ := h.chunks
  rcases hchunks with ⟨-, rfl, hch⟩ | ⟨h0, -⟩
  · obtain ⟨raw, line, sizeText, sig, size, c₁, htake, ⟨hline, -⟩, hsplit, -, hend | hend⟩ :=
      nextChunk_ok hnext
    · obtain ⟨-, rfl⟩ := hend
      have hd : c₁.done = true := hdone
      rw [htake.same] at hd
      exact absurd h.decoding.done (by rw [hd]; simp)
    · obtain ⟨-, c₂, c₃, hverify, htrailer, -, rfl⟩ := hend
      have hsigned := h.decoding.signed h.signed
      rw [hsigned] at hsplit
      have hb : (c₁.begin sig) = { c with src := c₁.src, chunkSig := sig, chunkHash := some [] } := by
        unfold ChunkedReader.begin
        rw [htake.same]
        simp only [hsigned, if_true]
      rw [hb] at hverify
      obtain ⟨hsig, hc₂⟩ := (verifyChunkSignature_signed (by exact hsigned)).mp hverify
      have hsig' : c₀.sigAfter (ds ++ [[]]) = sig := by
        rw [← h.decoding.expectedSig hch.prevSig]
        exact hsig
      have hrest : content c₁.src <:+ content c₀.src := by
        refine IsSuffix.trans ?_ h.decoding.rest
        rw [htake.content_eq]
        exact suffix_append _ _
      have hraw : raw <:+: content c₀.src := by
        refine IsInfix.trans ?_ h.decoding.rest.isInfix
        rw [htake.content_eq]
        exact (prefix_append _ _).isInfix
      obtain ⟨raw', fields, hcontent, hc₃, hfields, hsigt⟩ := readTrailer_ok htrailer
      have hraw' : raw' <:+: content c₀.src := by
        refine IsInfix.trans ?_ hrest.isInfix
        have hsrc : c₂.src = c₁.src := by rw [hc₂]
        rw [← hsrc, hcontent]
        exact (prefix_append _ _).isInfix
      refine ⟨ds, fields, by rw [hout, append_nil], hch.full, ?_, ?_, ?_, ?_⟩
      · refine hch.vouched.concat nil_infix ?_
        rw [hsig']
        exact (splitChunkHeader_sig hsplit).isInfix.trans (hline.isInfix.trans hraw)
      · rw [hc₃, hc₂, ← h.decoding.trailer]
      · exact fun q hq => (hfields q hq).1.mono hraw'
      · intro hmode
        have hmode₂ : c₂.mode = .streamingSignedTrailer := by
          rw [hc₂, ← hmode]
          exact congrArg Params.mode h.decoding.params
        have hin := hsigt hmode₂
        have hkey : c₂.signingKey = c₀.signingKey := by
          rw [hc₂]; exact congrArg Params.signingKey h.decoding.params
        have hts : c₂.timestamp = c₀.timestamp := by
          rw [hc₂]; exact congrArg Params.timestamp h.decoding.params
        have hscope : c₂.scope = c₀.scope := by
          rw [hc₂]; exact congrArg Params.scope h.decoding.params
        have hprev : c₂.prevSig = c₀.sigAfter (ds ++ [[]]) := by rw [hc₂, hsig']
        rw [hkey, hts, hscope, hprev] at hin
        exact hin.trans hraw'
  · exact absurd hrem h0

/-- **A run of reads in a signed mode.** -/
theorem signedDecoding_run (c₀ : ChunkedReader P σ) :
    SoFarInv (SignedDecoding c₀) (fun c e out => e = .eof → SignedEnd c₀ c out) := by
  apply chunked_run
  case live => exact fun h => ⟨h.decoding.err, h.decoding.done⟩
  case opens =>
    intro c c' out h ho
    obtain ⟨ds, cur, hout, hin⟩ := h.opens ho
    exact ⟨h.decoding.opens ho, h.signed, ds, cur, hout, .inr ⟨ho.remaining, hin⟩⟩
  case take =>
    intro c out src data h hrem hdata _ hleft
    obtain ⟨ds, cur, hout, hin⟩ := h.inChunk hrem
    refine ⟨h.decoding.take hdata, h.signed, ds, cur ++ data, ?_, .inr ⟨hleft, hin.take hdata⟩⟩
    rw [hout, append_assoc]
  case finish =>
    intro c c' out src data h hrem hdata _ hleft hfin
    obtain ⟨ds, cur, hout, hin⟩ := h.inChunk hrem
    have hne : cur ++ data ≠ [] := by
      intro hnil
      have hz : data = [] := (append_eq_nil_iff.mp hnil).2
      rw [hz] at hleft
      exact hrem hleft
    have h₂ := h.decoding.take hdata
    obtain ⟨hch, hrem'⟩ := (hin.take hdata).finish h₂ h.signed hne hfin
    refine ⟨h₂.finish hfin, h.signed, ds ++ [cur ++ data], [], ?_,
      .inl ⟨hrem'.trans hleft, rfl, hch⟩⟩
    rw [hout]
    simp
  case ended => exact fun h hrem hnext hdone => h.ended hrem hnext hdone

end BlindBucket.Auth
