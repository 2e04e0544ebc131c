import BlindBucket.Auth.ChunkSigs

/-!
# A body that is framed and signed as it should be

The text a client sends for a signed body: its chunks with their header lines, the empty
chunk and the trailer. `framed_release` says that the reader decodes it to the data of the
chunks, whatever the buffers it is read with, if the lines and the trailer are within the
limits the reader sets.
-/

namespace BlindBucket.Auth

open ByteIo GoText List

variable {P : Primitives} {σ : Type} [ByteReader σ GoErr] [LawfulReader σ]

/-! ## The text of a body -/

def crlf : Bytes := [0x0D, 0x0A]

/-- A size in hexadecimal digits, perhaps with zeros in front. -/
structure SizeText (n : Nat) where
  text : Bytes
  some_digit : text ≠ []
  value : parseHexDigits 0 text = some n

structure Frame where
  data : Bytes
  size : SizeText data.length
  full : data ≠ []
  small : data.length ≤ maxChunkSize

structure TrailerLine where
  line : Bytes
  field : Bytes × Bytes
  one_line : 0x0A ∉ line
  is_field : trailerField line = some field
  not_signature : field.1 ≠ trailerSignature

def headerLine (sizeText sig : Bytes) : Bytes :=
  sizeText ++ 0x3B :: (ascii "chunk-signature=" ++ sig)

def Params.sigOf (P : Primitives) (q : Params) (prevSig data : Bytes) : Bytes :=
  P.sign q.signingKey (P.chunkString q.timestamp q.scope prevSig data)

def Params.trailerSig (P : Primitives) (q : Params) (prevSig : Bytes)
    (fields : List (Bytes × Bytes)) : Bytes :=
  P.sign q.signingKey (P.trailerString q.timestamp q.scope prevSig (canonicalText fields))

/-- The end of a body: the empty chunk, the trailer in the mode that has one, and an empty line. -/
structure Ending where
  size : SizeText 0
  lines : List TrailerLine
  /-- Whatever follows the body. -/
  tail : Bytes

def Ending.fields (e : Ending) : List (Bytes × Bytes) := e.lines.map TrailerLine.field

/-- The text of the trailer after the signature `prevSig`. -/
def Ending.trailerText (P : Primitives) (q : Params) (e : Ending) (prevSig : Bytes) : Bytes :=
  match q.mode with
  | .streamingSignedTrailer =>
    (e.lines.flatMap fun l => l.line ++ crlf)
      ++ (trailerSignature ++ 0x3A :: q.trailerSig P prevSig e.fields) ++ crlf ++ crlf
  | _ => crlf

/-- The text of the end of a body after the signature `prevSig`. -/
def Ending.text (P : Primitives) (q : Params) (e : Ending) (prevSig : Bytes) : Bytes :=
  headerLine e.size.text (q.sigOf P prevSig []) ++ crlf
    ++ e.trailerText P q (q.sigOf P prevSig []) ++ e.tail

/-- The text of a body after the signature `prevSig`. -/
def bodyText (P : Primitives) (q : Params) (e : Ending) : Bytes → List Frame → Bytes
  | prevSig, [] => e.text P q prevSig
  | prevSig, f :: fs =>
    headerLine f.size.text (q.sigOf P prevSig f.data) ++ crlf ++ f.data ++ crlf
      ++ bodyText P q e (q.sigOf P prevSig f.data) fs

def bodyData (fs : List Frame) : Bytes := fs.flatMap Frame.data

/-- What a header line adds to the digits: the name of the extension, a signature and a CRLF. -/
def headerOverhead : Nat := 17 + 64 + 2

/-- The limits of the reader: on every line, and on the number of lines of a trailer, to which the
signature adds one. -/
structure WithinLimits (q : Params) (fs : List Frame) (e : Ending) : Prop where
  sizes : ∀ f ∈ fs, f.size.text.length + headerOverhead ≤ maxChunkHeaderLine
  lastSize : e.size.text.length + headerOverhead ≤ maxChunkHeaderLine
  lines : ∀ l ∈ e.lines, l.line.length + 2 ≤ maxChunkHeaderLine
  count : e.lines.length + 1 ≤ maxTrailerLines
  /-- A trailer is sent only in the mode that has one. -/
  noTrailer : q.mode ≠ .streamingSignedTrailer → e.lines = []

/-! ## Lines -/

theorem sign_length (key s : Bytes) : (P.sign key s).length = 64 := by
  rw [Primitives.sign, hex_length, P.hmac_length]

theorem newline_not_mem_sign (key s : Bytes) : 0x0A ∉ P.sign key s := by
  intro h
  exact absurd (graphic_hex h).1 (by decide)

variable {n : Nat} {s : SizeText n} {key str total data : Bytes} {f : Frame} {t : TrailerText} {e : Ending}
  {fs : List Frame} {c₀ c' : ChunkedReader P σ}

theorem SizeText.not_mem (s : SizeText n) {b : UInt8} (hb : hexValue b = none) :
    b ∉ s.text := fun h => mem_parseHexDigits s.value h hb

theorem SizeText.chunkSize (s : SizeText n) (hn : n ≤ maxChunkSize) : chunkSize s.text = .ok n := by
  have hlt : n < 2 ^ 63 := by
    unfold maxChunkSize at hn
    omega
  unfold Auth.chunkSize
  rw [parseHex_digits s.some_digit s.value hlt]
  dsimp only
  rw [if_neg (by omega), Int.toNat_natCast]

theorem headerLine_length (sizeText key s : Bytes) :
    (headerLine sizeText (P.sign key s)).length + 2 = sizeText.length + headerOverhead := by
  have hlen : (ascii "chunk-signature=").length = 16 := by decide
  unfold headerLine headerOverhead
  rw [length_append, length_cons, length_append, hlen, sign_length]

theorem headerLine_line (s : SizeText n) (key str : Bytes) : 0x0A ∉ headerLine s.text (P.sign key str) := by
  have hname : 0x0A ∉ (0x3B :: ascii "chunk-signature=") := by decide
  intro h
  rcases mem_append.mp h with h | h
  · exact s.not_mem (by decide) h
  · rw [← cons_append] at h
    rcases mem_append.mp h with h | h
    · exact hname h
    · exact newline_not_mem_sign key str h

theorem splitChunkHeader_headerLine (s : SizeText n) (sig : Bytes) :
    splitChunkHeader (headerLine s.text sig) true = .ok (s.text, sig) := by
  unfold splitChunkHeader headerLine
  rw [cut_append (s.not_mem (by decide))]
  rfl

/-! ## What the methods do with such a text -/

variable {c : ChunkedReader P σ} {rest : Bytes}

theorem readLine_header (hc : content c.src = headerLine s.text (P.sign key str) ++ crlf ++ rest)
    (hlen : s.text.length + headerOverhead ≤ maxChunkHeaderLine) :
    ∃ src, readLine c = .ok (headerLine s.text (P.sign key str)) { c with src := src }
      ∧ content src = rest := by
  refine readLine_crlf ?_ (headerLine_line s key str) (by rw [headerLine_length]; exact hlen)
  rw [hc]
  simp [crlf]

theorem nextChunk_header (hm : c.mode.signed = true)
    (hc : content c.src = headerLine s.text (P.sign key str) ++ crlf ++ rest)
    (hlen : s.text.length + headerOverhead ≤ maxChunkHeaderLine) (hn : n ≤ maxChunkSize) :
    ∃ src, content src = rest ∧ ∀ c',
      (if n = 0 then finishBody else modify fun c => { c with remaining := n } : Method P σ Unit)
          { c with src := src, chunkSig := P.sign key str, chunkHash := some [] } = .ok () c' →
        nextChunk c = .ok () c' := by
  obtain ⟨src, hline, hrest⟩ := readLine_header hc hlen
  refine ⟨src, hrest, ?_⟩
  intro c' hnext
  have hsplit : splitChunkHeader (headerLine s.text (P.sign key str)) c.mode.signed = .ok (s.text, P.sign key str) := by
    rw [hm, splitChunkHeader_headerLine]
  have hbegin : (modify (·.begin (P.sign key str)) : Method P σ _) { c with src := src }
      = .ok () { c with src := src, chunkSig := P.sign key str, chunkHash := some [] } := by
    show EStateM.Result.ok () _ = _
    unfold ChunkedReader.begin
    simp only [hm, if_true]
  refine failing_ok.mpr ?_
  rw [method_bind_run hline]
  rw [method_bind_run (show (get : Method P σ _) { c with src := src }
    = .ok { c with src := src } { c with src := src } from rfl)]
  rw [method_bind_run (orFail_ok.mpr ⟨hsplit, rfl⟩)]
  dsimp only
  rw [method_bind_run (orFail_ok.mpr ⟨s.chunkSize hn, rfl⟩), method_bind_run hbegin]
  exact hnext

theorem nextChunk_data (hm : c.mode.signed = true)
    (hc : content c.src = headerLine f.size.text (P.sign key str) ++ crlf ++ rest)
    (hlen : f.size.text.length + headerOverhead ≤ maxChunkHeaderLine) :
    ∃ src, nextChunk c = .ok () { c with
        src := src, chunkSig := P.sign key str, chunkHash := some [], remaining := f.data.length }
      ∧ content src = rest := by
  obtain ⟨src, hrest, hrun⟩ := nextChunk_header hm hc hlen f.small
  refine ⟨src, hrun _ ?_, hrest⟩
  rw [if_neg (fun h => f.full (length_eq_zero_iff.mp h))]
  rfl

theorem finishChunk_run {cur rest : Bytes} (hm : c.mode.signed = true)
    (hc : content c.src = crlf ++ rest) (hhash : c.chunkHash = some cur)
    (hsig : c.expectedSig cur = c.chunkSig) :
    ∃ src, finishChunk c = .ok () { c with src := src, prevSig := c.chunkSig } ∧ content src = rest := by
  obtain ⟨src, hcrlf, hrest⟩ := expectCRLF_run hc
  refine ⟨src, ?_, hrest⟩
  refine failing_ok.mpr ?_
  rw [method_bind_run hcrlf]
  refine (verifyChunkSignature_signed (by exact hm)).mpr ⟨?_, rfl⟩
  rw [hhash]
  exact hsig

theorem readTrailerLines_fields (ls : List TrailerLine)
    (hc : content c.src = (ls.flatMap fun l => l.line ++ crlf) ++ rest)
    (hlen : ∀ l ∈ ls, l.line.length + 2 ≤ maxChunkHeaderLine) :
    ∃ src, content src = rest ∧ readTrailerLines (ls.length + n) t c
      = readTrailerLines n { t with canonical := t.canonical ++ canonicalText (ls.map TrailerLine.field) }
          { c with src := src, trailer := trailerHeaders c.trailer (ls.map TrailerLine.field) } := by
  induction ls generalizing c t with
  | nil =>
    refine ⟨c.src, hc, ?_⟩
    simp [canonicalText, trailerHeaders]
  | cons l ls ih =>
    have hc' : content c.src = l.line ++ 0x0D :: 0x0A :: ((ls.flatMap fun l => l.line ++ crlf) ++ rest) := by
      rw [hc]
      simp [crlf]
    obtain ⟨src, hline, hrest⟩ :=
      readLine_crlf hc' l.one_line (hlen l mem_cons_self)
    have hne : l.line ≠ [] := by
      intro h
      have := l.is_field
      rw [h] at this
      simp [trailerField, cut] at this
    obtain ⟨src', hrest', hrun⟩ := ih (c := { c with src := src, trailer := Header.set c.trailer l.field.1 l.field.2 })
      hrest
      (fun l' hl' => hlen l' (mem_cons_of_mem _ hl'))
    refine ⟨src', hrest', ?_⟩
    rw [length_cons, show ls.length + 1 + n = (ls.length + n) + 1 by omega, readTrailerLines]
    dsimp only
    rw [hline]
    dsimp only
    rw [if_neg hne, l.is_field]
    dsimp only
    rw [if_neg l.not_signature, hrun]
    simp [canonicalText, trailerHeaders]

def signatureLine (sig : Bytes) : Bytes := trailerSignature ++ 0x3A :: sig

theorem trailerField_signatureLine (key str : Bytes) :
    trailerField (signatureLine (P.sign key str)) = some (trailerSignature, P.sign key str) := by
  have hcolon : 0x3A ∉ trailerSignature := by decide
  have hname : toLower (trimSpace trailerSignature) = trailerSignature := by decide
  have hvalue : trimSpace (P.sign key str) = P.sign key str :=
    trimSpace_graphic (fun b hb => graphic_hex hb)
  unfold trailerField signatureLine
  rw [cut_append hcolon, Option.map_some]
  rw [hname, hvalue]

theorem signatureLine_line (key str : Bytes) : 0x0A ∉ signatureLine (P.sign key str) := by
  have hname : 0x0A ∉ trailerSignature ++ [0x3A] := by decide
  unfold signatureLine
  intro h
  rw [show trailerSignature ++ 0x3A :: P.sign key str
    = trailerSignature ++ [0x3A] ++ P.sign key str by simp] at h
  rcases mem_append.mp h with h | h
  · exact hname h
  · exact newline_not_mem_sign key str h

theorem signatureLine_length (key str : Bytes) :
    (signatureLine (P.sign key str)).length + 2 ≤ maxChunkHeaderLine := by
  have hname : trailerSignature.length = 23 := by decide
  unfold signatureLine maxChunkHeaderLine
  rw [length_append, length_cons, sign_length]
  decide

theorem readTrailerLines_end (hc : content c.src = crlf ++ rest) :
    ∃ src, readTrailerLines n t c = .ok t { c with src := src } := by
  cases n with
  | zero => exact ⟨c.src, rfl⟩
  | succ n =>
    have hc' : content c.src = [] ++ 0x0D :: 0x0A :: rest := hc
    obtain ⟨src, hline, -⟩ := readLine_crlf hc' not_mem_nil (by decide)
    refine ⟨src, ?_⟩
    rw [readTrailerLines]
    dsimp only
    rw [hline]
    rfl

theorem readTrailerLines_signature
    (hc : content c.src = signatureLine (P.sign key str) ++ crlf ++ (crlf ++ rest)) :
    ∃ src, readTrailerLines (n + 1) t c
      = .ok { t with signature := P.sign key str } { c with src := src } := by
  have hc' : content c.src = signatureLine (P.sign key str) ++ 0x0D :: 0x0A :: (crlf ++ rest) := by
    rw [hc]
    simp [crlf]
  obtain ⟨src, hline, hrest⟩ :=
    readLine_crlf hc' (signatureLine_line key str) (signatureLine_length key str)
  have hne : signatureLine (P.sign key str) ≠ [] := by simp [signatureLine]
  obtain ⟨src', hend⟩ := readTrailerLines_end
    (c := { c with src := src }) hrest
  refine ⟨src', ?_⟩
  rw [readTrailerLines]
  dsimp only
  rw [hline]
  dsimp only
  rw [trailerField_signatureLine]
  exact hend

/-- The trailer of a body is read, and its fields are the headers of the trailer. -/
theorem readTrailer_text (hc : content c.src = e.trailerText P c.params c.prevSig ++ e.tail)
    (hw : WithinLimits c.params fs e) :
    ∃ src, readTrailer c = .ok () { c with
      src := src, trailer := trailerHeaders c.trailer e.fields } := by
  by_cases hm : c.mode = .streamingSignedTrailer
  · have htext : content c.src = (e.lines.flatMap fun l => l.line ++ crlf)
        ++ (signatureLine (c.params.trailerSig P c.prevSig e.fields) ++ crlf ++ (crlf ++ e.tail)) := by
      rw [hc, Ending.trailerText, show c.params.mode = .streamingSignedTrailer from hm]
      simp [signatureLine]
    have hcount := hw.count
    obtain ⟨n, hn⟩ : ∃ n, maxTrailerLines = e.lines.length + (n + 1) :=
      ⟨maxTrailerLines - e.lines.length - 1, by omega⟩
    obtain ⟨src, hrest, hfields⟩ :=
      readTrailerLines_fields e.lines htext hw.lines
    obtain ⟨src', hsig⟩ := readTrailerLines_signature
      (c := { c with src := src, trailer := trailerHeaders c.trailer e.fields }) hrest
    refine ⟨src', ?_⟩
    have hall : readTrailerLines maxTrailerLines {} c
        = .ok { canonical := canonicalText e.fields,
                signature := c.params.trailerSig P c.prevSig e.fields }
            { c with src := src', trailer := trailerHeaders c.trailer e.fields } := by
      rw [hn, hfields]
      exact hsig
    unfold readTrailer
    rw [hall]
    dsimp only
    rw [if_neg (not_not.mpr hm)]
    exact if_pos rfl
  · have hnone := hw.noTrailer hm
    have htext : content c.src = crlf ++ e.tail := by
      rw [hc, Ending.trailerText]
      split
      next h =>
        exact absurd h hm
      · rfl
    obtain ⟨src, hend⟩ := readTrailerLines_end htext
    refine ⟨src, ?_⟩
    unfold readTrailer
    rw [hend]
    dsimp only
    rw [if_pos hm, Ending.fields, hnone]
    rfl

/-- The end of a body is read to the end, if the length and the checksums are right. -/
theorem nextChunk_end (hm : c.mode.signed = true) (hc : content c.src = e.text P c.params c.prevSig)
    (hw : WithinLimits c.params fs e) (hlen : c.decoded = c.expectedDecoded)
    (hsum : settleChecksums P c.checksums (trailerHeaders c.trailer e.fields) = .ok ()) :
    ∃ c', nextChunk c = .ok () c' ∧ c'.done = true := by
  have hc' : content c.src = headerLine e.size.text (c.params.sigOf P c.prevSig []) ++ crlf
      ++ (e.trailerText P c.params (c.params.sigOf P c.prevSig []) ++ e.tail) := by
    rw [hc, Ending.text, append_assoc]
  obtain ⟨src, hrest, hrun⟩ := nextChunk_header hm hc' hw.lastSize (Nat.zero_le _)
  obtain ⟨src', htrailer⟩ := readTrailer_text (c := { c with
    src := src, chunkSig := c.params.sigOf P c.prevSig [], chunkHash := some [],
    prevSig := c.params.sigOf P c.prevSig [] }) hrest hw
  refine ⟨_, hrun { c with
    src := src', chunkSig := c.params.sigOf P c.prevSig [], chunkHash := some [],
    prevSig := c.params.sigOf P c.prevSig [], trailer := trailerHeaders c.trailer e.fields,
    done := true } ?_, rfl⟩
  refine (method_bind_run ((verifyChunkSignature_signed (by exact hm)).mpr ⟨rfl, rfl⟩)).trans ?_
  refine (method_bind_run htrailer).trans ?_
  have hsettle : settle ({ c with
      src := src', chunkSig := c.params.sigOf P c.prevSig [], chunkHash := some [],
      prevSig := c.params.sigOf P c.prevSig [],
      trailer := trailerHeaders c.trailer e.fields } : ChunkedReader P σ) = .ok () _ :=
    settle_ok.mpr ⟨hlen, hsum, rfl⟩
  exact method_bind_run hsettle

/-! ## Whole bodies -/

/-- Where the reader stands in a body: `fs` is still to come, after what is left of the current
chunk. -/
inductive Place (q : Params) (e : Ending) (c : ChunkedReader P σ) (data : Bytes) : Prop where
  /-- Between two chunks. -/
  | between (fs : List Frame) (hrem : c.remaining = 0) (hdata : data = bodyData fs)
      (htext : content c.src = bodyText P q e c.prevSig fs) (hw : WithinLimits q fs e)
  /-- Inside a chunk of which `cur` has been read and `rest` is left. -/
  | inside (fs : List Frame) (cur rest : Bytes) (hrest : rest ≠ [])
      (hrem : c.remaining = rest.length) (hdata : data = rest ++ bodyData fs)
      (hhash : c.chunkHash = some cur) (hsig : c.chunkSig = q.sigOf P c.prevSig (cur ++ rest))
      (htext : content c.src = rest ++ crlf ++ bodyText P q e c.chunkSig fs)
      (hw : WithinLimits q fs e)

/-- The reader `c₀` was given a body with the data `total`, and `data` of it is still to come. -/
structure Framed (c₀ : ChunkedReader P σ) (e : Ending) (total : Bytes) (c : ChunkedReader P σ)
    (data : Bytes) : Prop where
  signed : c₀.mode.signed = true
  place : Place c₀.params e c data
  decoding : ∃ out, out ++ data = total ∧ Decoding c₀ c out

/-- The checks at the end of the body pass. -/
structure Settles (c₀ : ChunkedReader P σ) (e : Ending) (total : Bytes) : Prop where
  length : c₀.decoded + total.length = c₀.expectedDecoded
  checksums : settleChecksums P (c₀.checksums.map (·.write total))
    (trailerHeaders c₀.trailer e.fields) = .ok ()

theorem ChunkedReader.expectedSig_eq (c : ChunkedReader P σ) (d : Bytes) :
    c.expectedSig d = c.params.sigOf P c.prevSig d := rfl

theorem WithinLimits.tail {q : Params} (h : WithinLimits q (f :: fs) e) : WithinLimits q fs e :=
  ⟨fun g hg => h.sizes g (mem_cons_of_mem _ hg), h.lastSize, h.lines, h.count, h.noTrailer⟩

theorem Framed.opens (h : Framed c₀ e total c data) (hs : Settles c₀ e total) :
    (data = [] ∧ ∃ c', c.remaining = 0 ∧ nextChunk c = .ok () c' ∧ c'.done = true)
    ∨ ∃ c', Opens c c' ∧ Framed c₀ e total c' data ∧ c'.remaining ≠ 0 := by
  obtain ⟨out, htotal, hd⟩ := h.decoding
  have hparams := hd.params
  have hm := hd.signed h.signed
  cases h.place with
  | inside fs cur rest hrest hrem hdata hhash hsig htext hw =>
    have hne : c.remaining ≠ 0 := by
      rw [hrem]
      exact fun h0 => hrest (length_eq_zero_iff.mp h0)
    exact .inr ⟨c, .inl ⟨hne, rfl⟩, h, hne⟩
  | between fs hrem hdata htext hw =>
    cases fs with
    | nil =>
      left
      have hnil : data = [] := hdata
      rw [hnil, append_nil] at htotal
      subst htotal
      refine ⟨hnil, ?_⟩
      rw [← hparams] at htext hw
      have hexp : c.expectedDecoded = c₀.expectedDecoded := congrArg Params.expectedDecoded hparams
      obtain ⟨c', hnext, hdone⟩ := nextChunk_end hm htext hw
        (by rw [hd.decoded, hexp]; exact hs.length)
        (by rw [hd.checksums, hd.trailer]; exact hs.checksums)
      exact ⟨c', hrem, hnext, hdone⟩
    | cons f fs =>
      right
      rw [bodyText, append_assoc, append_assoc] at htext
      obtain ⟨src, hnext, hsrc⟩ :=
        nextChunk_data hm htext (hw.sizes f mem_cons_self)
      have hne : f.data.length ≠ 0 := fun h0 => f.full (length_eq_zero_iff.mp h0)
      have hopens : Opens c _ := .inr ⟨hrem, hnext, hd.done⟩
      refine ⟨_, hopens, ⟨h.signed, ?_, out, htotal, hd.opens hopens⟩, hne⟩
      refine .inside fs [] f.data f.full rfl ?_ rfl rfl ?_ hw.tail
      · rw [hdata]
        rfl
      · rw [append_assoc]
        exact hsrc

theorem Opens.unique {c₁ c₂ : ChunkedReader P σ} (h₁ : Opens c c₁) (h₂ : Opens c c₂) : c₁ = c₂ := by
  rcases h₁ with ⟨hrem, rfl⟩ | ⟨hrem, hnext, -⟩
  · rcases h₂ with ⟨-, rfl⟩ | ⟨h0, -⟩
    · rfl
    · exact absurd h0 hrem
  · rcases h₂ with ⟨h0, -⟩ | ⟨-, hnext', -⟩
    · exact absurd hrem h0
    · rw [hnext] at hnext'
      cases hnext'
      rfl

theorem ChunkedReader.read_opens (herr : c.err = none) (hdone : c.done = false) (h : Opens c c') (k : Nat) :
    read c k = c'.readData k := by
  rcases ChunkedReader.read_cases herr hdone k with
    ⟨e, d, hrem, hnext, -⟩ | ⟨d, hrem, hnext, hd, -⟩ | ⟨d, ho, hread⟩
  · rcases h with ⟨h0, -⟩ | ⟨-, hnext', -⟩
    · exact absurd hrem h0
    · rw [hnext] at hnext'
      simp at hnext'
  · rcases h with ⟨h0, -⟩ | ⟨-, hnext', hd'⟩
    · exact absurd hrem h0
    · rw [hnext] at hnext'
      cases hnext'
      exact absurd hd (by rw [hd']; simp)
  · rw [hread, ho.unique h]

theorem ChunkedReader.read_end (herr : c.err = none) (hdone : c.done = false) (hrem : c.remaining = 0)
    (hnext : nextChunk c = .ok () c') (hd : c'.done = true) (k : Nat) : read c k = ⟨[], some .eof, c'⟩ := by
  rcases ChunkedReader.read_cases herr hdone k with
    ⟨e, d, -, hnext', -⟩ | ⟨d, -, hnext', -, hread⟩ | ⟨d, ho, -⟩
  · rw [hnext] at hnext'
    simp at hnext'
  · rw [hnext] at hnext'
    cases hnext'
    exact hread
  · rcases ho with ⟨h0, -⟩ | ⟨-, hnext', hd'⟩
    · exact absurd hrem h0
    · rw [hnext] at hnext'
      cases hnext'
      exact absurd hd (by rw [hd']; simp)

/-- A read inside a chunk releases the next bytes and finds the signature right. -/
theorem Framed.readData (h : Framed c₀ e total c data) (hrem₀ : c.remaining ≠ 0) (k : Nat) :
    ∃ rest, data = (c.readData k).out ++ rest ∧ (c.readData k).err = none
      ∧ Framed c₀ e total (c.readData k).next rest := by
  obtain ⟨out, htotal, hd⟩ := h.decoding
  have hparams := hd.params
  have hm := hd.signed h.signed
  cases h.place with
  | between fs hrem hdata htext hw => exact absurd hrem hrem₀
  | inside fs cur left hleft hrem hdata hhash hsig htext hw =>
    rcases c.readData_cases k with ⟨_, _, hshort, -⟩ | ⟨src, d, rest, hsplit, hsrc, hlen, hcases⟩
    · rw [htext, append_assoc, length_append] at hshort
      omega
    · -- the bytes read are the first of those left in the chunk
      have hd_le : d.length ≤ left.length := by
        rw [hlen, hrem]
        exact Nat.min_le_right ..
      obtain ⟨left', rfl⟩ : ∃ left', left = d ++ left' := by
        have hfirst : d <+: content c.src := ⟨rest, hsplit.symm⟩
        have hchunk : left <+: content c.src := by
          rw [htext, append_assoc]
          exact prefix_append _ _
        obtain ⟨t, ht⟩ := prefix_of_prefix_length_le hfirst hchunk hd_le
        exact ⟨t, ht.symm⟩
      have hsrc' : content src = left' ++ (crlf ++ bodyText P c₀.params e c.chunkSig fs) := by
        rw [htext, append_assoc, append_assoc] at hsplit
        rw [hsrc]
        exact (append_cancel_left hsplit).symm
      have hrem' : (c.take src d).remaining = left'.length := by
        show c.remaining - d.length = _
        rw [hrem, length_append]
        omega
      have htake : Decoding c₀ (c.take src d) (out ++ d) := hd.take (by rw [hsplit, hsrc])
      have hhash' : (c.take src d).chunkHash = some (cur ++ d) := by
        show c.chunkHash.map (· ++ d) = _
        rw [hhash]
        rfl
      have hsig' : (c.take src d).chunkSig = c₀.params.sigOf P (c.take src d).prevSig (cur ++ d ++ left') := by
        rw [append_assoc]
        exact hsig
      have hto : out ++ d ++ (left' ++ bodyData fs) = total := by
        rw [← htotal, hdata]
        simp
      have hdata' : data = d ++ (left' ++ bodyData fs) := by rw [hdata, append_assoc]
      rcases hcases with ⟨hne, hread⟩ | hfin
      · rw [hread]
        refine ⟨left' ++ bodyData fs, hdata', rfl, h.signed, ?_, out ++ d, hto, htake⟩
        refine .inside fs (cur ++ d) left' ?_ hrem' rfl hhash' hsig' ?_ hw
        · rintro rfl
          exact hne hrem'
        · rw [append_assoc]
          exact hsrc'
      · -- the chunk is complete
        have h0 : (c.take src d).remaining = 0 := by
          rcases hfin with ⟨h0, -⟩ | ⟨h0, -⟩
          · exact h0
          · exact h0
        obtain rfl : left' = [] := by
          rw [hrem'] at h0
          exact length_eq_zero_iff.mp h0
        rw [append_nil] at hsig'
        obtain ⟨src', hrun, hrest⟩ := finishChunk_run (c := c.take src d) hm hsrc' hhash' (by
          rw [ChunkedReader.expectedSig_eq, show (c.take src d).params = c₀.params from hparams]
          exact hsig'.symm)
        rcases hfin with ⟨-, c', hfin, hread⟩ | ⟨-, e', c', hfin, -⟩
        · rw [hrun] at hfin
          cases hfin
          rw [hread]
          refine ⟨bodyData fs, hdata', rfl, h.signed, ?_, out ++ d, hto, htake.finish hrun⟩
          exact .between fs h0 rfl hrest hw
        · rw [hrun] at hfin
          simp at hfin

/-- **A framed and signed body is released as it is**, and ends in `io.EOF`. -/
theorem framed_release (hs : Settles c₀ e total) :
    ReleaseInv (Framed c₀ e total) (fun _ err rest => err = .eof ∧ rest = []) := by
  intro c data k h
  obtain ⟨out, -, hd⟩ := h.decoding
  rcases h.opens hs with ⟨hnil, c', hrem, hnext, hdone⟩ | ⟨c₁, ho, h₁, hrem₁⟩
  · rw [ChunkedReader.read_end hd.err hd.done hrem hnext hdone]
    exact ⟨[], by rw [hnil]; rfl, rfl, rfl⟩
  · obtain ⟨rest, hdata, herr, hnext⟩ := h₁.readData hrem₁ k
    rw [ChunkedReader.read_opens hd.err hd.done ho, herr]
    exact ⟨rest, hdata, hnext⟩

/-- A read inside a chunk with room for a byte brings one, or fails. -/
theorem ChunkedReader.readData_progress {k : Nat} (hk : 0 < k)
    (hrem : c.remaining ≠ 0) (herr : (c.readData k).err = none) : (c.readData k).out ≠ [] := by
  have hpos : 0 < min k c.remaining := Nat.lt_min.mpr ⟨hk, Nat.pos_of_ne_zero hrem⟩
  have hfull : ∀ d : Bytes, d.length = min k c.remaining → d ≠ [] := by
    rintro _ hlen rfl
    rw [← hlen] at hpos
    simp at hpos
  rcases c.readData_cases k with ⟨_, _, -, -, hread⟩ |
    ⟨_, d, _, -, -, hlen, ⟨-, hread⟩ | ⟨-, _, -, hread⟩ | ⟨-, _, _, -, hread⟩⟩
  · rw [hread] at herr
    simp at herr
  · rw [hread]
    exact hfull d hlen
  · rw [hread]
    exact hfull d hlen
  · rw [hread]
    exact hfull d hlen

theorem ChunkedReader.progress : Progress (ChunkedReader P σ) := by
  intro c k hk herr
  cases he : c.err with
  | some e =>
    rw [ChunkedReader.read_failed he] at herr
    simp at herr
  | none =>
    cases hd : c.done with
    | true =>
      rw [ChunkedReader.read_done he hd] at herr
      simp at herr
    | false =>
      rcases ChunkedReader.read_cases he hd k with
        ⟨_, _, -, -, hread⟩ | ⟨_, -, -, -, hread⟩ | ⟨c', ho, hread⟩
      · rw [hread] at herr
        simp at herr
      · rw [hread] at herr
        simp at herr
      · rw [hread] at herr ⊢
        exact ChunkedReader.readData_progress hk ho.remaining herr

end BlindBucket.Auth
