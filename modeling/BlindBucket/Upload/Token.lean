import BlindBucket.Keys.Contexts
import BlindBucket.Proxy.ListBuffer

/-!
# Upload tokens

An upload token carries the state of a multipart upload: the id the provider gave, the wrapped data key and the id of
the manifest. It is sealed under a key of the key id it names and bound to the bucket and the key of the object, and
the client hands it back as text.

The text is decoded strictly, so the bits a last character leaves over have to be zero. Line breaks are another
matter: `base64` skips them in strict mode as well.
-/

namespace BlindBucket.Upload

open ByteIo Fields GoText BaseText ObjectMeta Proxy List

def tokenVersion : UInt8 := 0x01
def nonceSize : Nat := 12
def tagSize : Nat := 16
def aadPrefix : Bytes := ascii "blindbucket/v1/upload-token"
def maxUploadIDLen : Nat := 1024
def maxTokenLen : Nat := 4096

structure Token where
  kid : Bytes
  uploadID : Bytes
  wrappedDEK : Bytes
  manifestID : Manifest.ID
deriving DecidableEq

/-- What a token is sealed with: the cipher, and the token keys of a key provider. -/
structure Provider where
  aead : Aead tagSize
  tokenKey : Bytes → Try Bytes

def tokenAEAD (P : Provider) (kid : Bytes) : Try Bytes := do
  let tk ← P.tokenKey kid
  if tk.length ∈ [16, 24, 32] then .ok tk
  else .error (errorf "crypto/aes: invalid key size %d" [.int tk.length])

def tokenAAD (bucket key : Bytes) : Try Bytes :=
  if 0xffff < bucket.length ∨ 0xffff < key.length then
    .error (errorf "upload: bucket or key exceeds the length prefix" [])
  else .ok (aadPrefix ++ (field 2 bucket ++ field 2 key))

def Token.body (t : Token) : Bytes := field 2 t.uploadID ++ (t.wrappedDEK ++ t.manifestID.val)

/-- The bytes of a token before the text encoding. -/
def sealedBytes (kid nonce sealed : Bytes) : Bytes := tokenVersion :: (field 2 kid ++ (nonce ++ sealed))

/-- `Seal`, with the nonce it draws. -/
def sealToken (P : Provider) (t : Token) (bucket key nonce : Bytes) : Try Bytes := do
  validateKID t.kid
  if t.uploadID.length = 0 ∨ maxUploadIDLen < t.uploadID.length then
    .error (errorf "upload: upstream upload id is %d bytes, outside 1..%d"
      [.int t.uploadID.length, .int maxUploadIDLen])
  else if t.wrappedDEK.length ≠ wrappedDEKSize then
    .error (errorf "upload: wrapped key is %d bytes, want %d" [.int t.wrappedDEK.length, .int wrappedDEKSize])
  else do
    let tk ← tokenAEAD P t.kid
    let aad ← tokenAAD bucket key
    .ok (rawURLEncoding.encode (sealedBytes t.kid nonce (P.aead.sealBytes tk nonce t.body aad)))

def tokenf (format : String) (args : List Arg) : Error := wrapf .uploadToken format args

/-- The end of `Open`, on a body that is authentic. -/
def parseTokenBody (kid body : Bytes) : Try Token :=
  if body.length < 2 then .error (tokenf "%w: truncated body" [])
  else
    let idLen := ofBe (body.take 2)
    if h : idLen ≠ 0 ∧ idLen ≤ maxUploadIDLen ∧ body.length = 2 + idLen + wrappedDEKSize + Manifest.idSize then
      .ok
        { kid, uploadID := (body.drop 2).take idLen
          wrappedDEK := (body.drop (2 + idLen)).take wrappedDEKSize
          manifestID := ⟨body.drop (2 + idLen + wrappedDEKSize), by rw [length_drop]; omega⟩ }
    else .error (tokenf "%w: malformed body" [])

def namedKey (P : Provider) (kid : Bytes) : Try Bytes :=
  (tokenAEAD P kid).mapError fun err =>
    if isSentinel .unknownKID err then tokenf "%w: unknown key id" [] else err

/-- What opens is a body. -/
def authentic : Option Bytes → Try Bytes
  | none => .error (tokenf "%w: authentication failed" [])
  | some body => .ok body

/-- `Open`, from the decoded bytes on. -/
def openBytes (P : Provider) (raw bucket key : Bytes) : Try Token :=
  if raw.length < 3 ∨ raw.head? ≠ some tokenVersion then .error (tokenf "%w: unrecognised token version" [])
  else
    let kidLen := ofBe ((raw.drop 1).take 2)
    if raw.length < 3 + kidLen + nonceSize + tagSize then .error (tokenf "%w: truncated" [])
    else do
      let kid := (raw.drop 3).take kidLen
      (validateKID kid).mapError fun _ => tokenf "%w: unusable key id" []
      let tk ← namedKey P kid
      let aad ← tokenAAD bucket key
      let nonce := (raw.drop (3 + kidLen)).take nonceSize
      let body ← authentic (P.aead.openBytes tk nonce (raw.drop (3 + kidLen + nonceSize)) aad)
      parseTokenBody kid body

def openToken (P : Provider) (token bucket key : Bytes) : Try Token :=
  if token = [] ∨ maxTokenLen < token.length then .error (tokenf "%w: length %d" [.int token.length])
  else
    match rawURLEncoding.decodeStrict token with
    | none => .error (tokenf "%w: not valid base64url" [])
    | some raw => openBytes P raw bucket key

/-! ## The layout -/

variable {bucket key s : Bytes} {t : Token} {P : Provider}

theorem tokenAAD_ok {aad : Bytes} (h : tokenAAD bucket key = .ok aad) :
    Short 2 bucket ∧ Short 2 key ∧ aad = aadPrefix ++ (field 2 bucket ++ field 2 key) := by
  obtain ⟨_, h⟩ := else_ok h
  exact ⟨by unfold Short; omega, by unfold Short; omega, (Except.ok.inj h).symm⟩

theorem tokenAAD_inj {bucket' key' aad : Bytes} (h : tokenAAD bucket key = .ok aad)
    (h' : tokenAAD bucket' key' = .ok aad) : bucket' = bucket ∧ key' = key := by
  obtain ⟨hb, hk, rfl⟩ := tokenAAD_ok h
  obtain ⟨hb', hk', heq⟩ := tokenAAD_ok h'
  obtain ⟨hbucket, hrest⟩ := field_append_inj hb hb' (append_cancel_left heq)
  exact ⟨hbucket.symm, (field_inj hk hk' hrest).symm⟩

theorem parseTokenBody_body (hid : t.uploadID.length ≠ 0) (hlong : t.uploadID.length ≤ maxUploadIDLen)
    (hdek : t.wrappedDEK.length = wrappedDEKSize) : parseTokenBody t.kid t.body = .ok t := by
  have hmid := t.manifestID.property
  have htwo : (beBytes 2 t.uploadID.length).length = 2 := beBytes_length 2 _
  have hshort : t.uploadID.length < 256 ^ 2 := by
    unfold maxUploadIDLen at hlong
    omega
  have hbody : t.body = beBytes 2 t.uploadID.length ++ (t.uploadID ++ (t.wrappedDEK ++ t.manifestID.val)) := by
    rw [Token.body, field, append_assoc]
  have hlen : t.body.length = 2 + t.uploadID.length + wrappedDEKSize + Manifest.idSize := by
    rw [hbody, length_append, length_append, length_append]
    omega
  have htake : ofBe (t.body.take 2) = t.uploadID.length := by rw [hbody, take_left' htwo, ofBe_beBytes hshort]
  have hdrop : t.body.drop 2 = t.uploadID ++ (t.wrappedDEK ++ t.manifestID.val) := by
    rw [hbody, drop_left' htwo]
  have hdek' : t.body.drop (2 + t.uploadID.length) = t.wrappedDEK ++ t.manifestID.val := by
    rw [← drop_drop, hdrop, drop_left]
  have hmid' : t.body.drop (2 + t.uploadID.length + wrappedDEKSize) = t.manifestID.val := by
    rw [← drop_drop, hdek', drop_left' hdek]
  unfold parseTokenBody
  simp only [htake]
  rw [if_neg (by omega), dif_pos ⟨hid, hlong, hlen⟩]
  congr 1
  obtain ⟨kid, uploadID, wrappedDEK, manifestID⟩ := t
  simp only [Token.mk.injEq, true_and]
  exact ⟨by rw [hdrop, take_left], by rw [hdek', take_left' hdek], Subtype.ext hmid'⟩

theorem openBytes_sealedBytes (P : Provider) {kid nonce sealed : Bytes} (hkid : validateKID kid = .ok ())
    (hn : nonce.length = nonceSize) (ht : tagSize ≤ sealed.length) (bucket key : Bytes) :
    openBytes P (sealedBytes kid nonce sealed) bucket key = (do
      let tk ← namedKey P kid
      let aad ← tokenAAD bucket key
      let body ← authentic (P.aead.openBytes tk nonce sealed aad)
      parseTokenBody kid body) := by
  have hkidlen := Keys.validateKID_length hkid
  have htwo : (beBytes 2 kid.length).length = 2 := beBytes_length 2 _
  have hraw : sealedBytes kid nonce sealed = tokenVersion :: (beBytes 2 kid.length ++ (kid ++ (nonce ++ sealed))) := by
    rw [sealedBytes, field, append_assoc]
  have hlen : (sealedBytes kid nonce sealed).length = 3 + kid.length + nonceSize + sealed.length := by
    rw [hraw, length_cons, length_append, length_append, length_append]
    omega
  have hlead : ofBe (((sealedBytes kid nonce sealed).drop 1).take 2) = kid.length := by
    rw [hraw, drop_one, tail_cons, take_left' htwo, ofBe_beBytes (by omega)]
  have h3 : (sealedBytes kid nonce sealed).drop 3 = kid ++ (nonce ++ sealed) := by
    rw [hraw, drop_succ_cons, drop_left' htwo]
  have hnonce : (sealedBytes kid nonce sealed).drop (3 + kid.length) = nonce ++ sealed := by
    rw [← drop_drop, h3, drop_left]
  have hrest : (sealedBytes kid nonce sealed).drop (3 + kid.length + nonceSize) = sealed := by
    rw [← drop_drop, hnonce, drop_left' hn]
  unfold openBytes
  simp only [hlead, h3, hnonce, hrest, take_left, take_left' hn, hkid]
  rw [if_neg, if_neg (by omega)]
  · rfl
  · rw [hraw]
    simp

theorem encode_fits {nonce sealed : Bytes} (hkid : validateKID t.kid = .ok ()) (hn : nonce.length = nonceSize)
    (hlong : t.uploadID.length ≤ maxUploadIDLen) (hdek : t.wrappedDEK.length = wrappedDEKSize)
    (hs : sealed.length = t.body.length + tagSize) :
    ¬ (rawURLEncoding.encode (sealedBytes t.kid nonce sealed) = []
      ∨ maxTokenLen < (rawURLEncoding.encode (sealedBytes t.kid nonce sealed)).length) := by
  have hkidlen := Keys.validateKID_length hkid
  have hmid := t.manifestID.property
  have hlen : (sealedBytes t.kid nonce sealed).length
      = 3 + t.kid.length + nonceSize + (2 + t.uploadID.length + wrappedDEKSize + Manifest.idSize + tagSize) := by
    rw [sealedBytes, length_cons, length_append, length_append, hs, Token.body, field, field,
      length_append, length_append, length_append, length_append, beBytes_length, beBytes_length]
    omega
  have hcount := rawURLEncoding.encode_length (sealedBytes t.kid nonce sealed)
  have hbounds := rawURLEncoding.count_bounds (sealedBytes t.kid nonce sealed).length
  rw [← hcount] at hbounds
  unfold maxUploadIDLen at hlong
  unfold maxTokenLen
  have hwidth : rawURLEncoding.width = 6 := rfl
  have hsizes : nonceSize = 12 ∧ tagSize = 16 ∧ wrappedDEKSize = 60 ∧ Manifest.idSize = 16 := ⟨rfl, rfl, rfl, rfl⟩
  rw [hwidth] at hbounds
  intro h
  rcases h with h | h
  · rw [h, length_nil] at hbounds
    omega
  · omega

/-! ## Binding and spelling -/

/-- **The sealed messages**: this token's is one of them, and no other has its key and its nonce. -/
structure Sealed (P : Provider) (log : Aead.Record → Prop) (t : Token) (bucket key nonce : Bytes) : Prop where
  ideal : P.aead.Ideal (fun _ => True) log
  size : nonce.length = nonceSize
  logged : ∀ tk aad, tokenAEAD P t.kid = .ok tk → tokenAAD bucket key = .ok aad → log ⟨tk, nonce, aad, t.body⟩
  fresh : ∀ tk aad, tokenAEAD P t.kid = .ok tk → tokenAAD bucket key = .ok aad →
    ∀ r, log r → r.key = tk → r.nonce = nonce → r = ⟨tk, nonce, aad, t.body⟩

theorem sealToken_ok {nonce : Bytes} (h : sealToken P t bucket key nonce = .ok s) :
    validateKID t.kid = .ok () ∧ t.uploadID.length ≠ 0 ∧ t.uploadID.length ≤ maxUploadIDLen
      ∧ t.wrappedDEK.length = wrappedDEKSize ∧ ∃ tk aad, tokenAEAD P t.kid = .ok tk ∧ tokenAAD bucket key = .ok aad
        ∧ s = rawURLEncoding.encode (sealedBytes t.kid nonce (P.aead.sealBytes tk nonce t.body aad)) := by
  obtain ⟨_, hkid, h⟩ := bind_ok h
  obtain ⟨hid, h⟩ := else_ok h
  obtain ⟨hdek, h⟩ := else_ok h
  obtain ⟨tk, htk, h⟩ := bind_ok h
  obtain ⟨aad, haad, h⟩ := bind_ok h
  exact ⟨hkid, by omega, by omega, Decidable.not_not.mp hdek, tk, aad, htk, haad, (Except.ok.inj h).symm⟩

theorem openToken_sealed {nonce tk aad : Bytes} (h : sealToken P t bucket key nonce = .ok s)
    (hn : nonce.length = nonceSize) (htk : tokenAEAD P t.kid = .ok tk) (haad : tokenAAD bucket key = .ok aad)
    (bucket' key' : Bytes) :
    openToken P s bucket' key' = (do
      let aad' ← tokenAAD bucket' key'
      let body ← authentic (P.aead.openBytes tk nonce (P.aead.sealBytes tk nonce t.body aad) aad')
      parseTokenBody t.kid body) := by
  obtain ⟨hkid, _, hlong, hdek, tk', aad₀, htk', haad', rfl⟩ := sealToken_ok h
  obtain rfl := Except.ok.inj (htk'.symm.trans htk)
  obtain rfl := Except.ok.inj (haad'.symm.trans haad)
  have hsize := P.aead.sealBytes_length tk' nonce t.body aad₀
  have hnamed : namedKey P t.kid = .ok tk' := by
    unfold namedKey
    rw [htk]
    rfl
  unfold openToken
  rw [if_neg (encode_fits hkid hn hlong hdek hsize), rawURLEncoding.decodeStrict_encode]
  dsimp only
  rw [openBytes_sealedBytes P hkid hn (by omega), hnamed, ok_bind]

theorem openToken_round_trip {log : Aead.Record → Prop} {nonce : Bytes} (hlog : Sealed P log t bucket key nonce)
    (h : sealToken P t bucket key nonce = .ok s) :
    openToken P s bucket key = .ok t := by
  obtain ⟨_, hid, hlong, hdek, tk, aad, htk, haad, _⟩ := sealToken_ok h
  rw [openToken_sealed h hlog.size htk haad, haad, ok_bind, hlog.ideal.opens trivial (hlog.logged tk aad htk haad)]
  exact parseTokenBody_body hid hlong hdek

/-- **A token opens for the object it was sealed for only, and strings that `Open` accepts are tokens of their own
unless they differ in line breaks only.** -/
theorem upload_token_one_spelling_iff {P : Provider} {log : Aead.Record → Prop} {t : Token}
    {bucket key nonce s : Bytes} (hlog : Sealed P log t bucket key nonce)
    (h : sealToken P t bucket key nonce = .ok s) :
    openToken P s bucket key = .ok t
    ∧ (∀ bucket' key', (bucket', key') ≠ (bucket, key) → ∀ t', openToken P s bucket' key' ≠ .ok t')
    ∧ ∀ s₁ s₂ b k t₁ t₂, openToken P s₁ b k = .ok t₁ → openToken P s₂ b k = .ok t₂ → s₁ ≠ s₂ →
      (rawURLEncoding.decodeStrict s₁ ≠ rawURLEncoding.decodeStrict s₂
        ↔ Alphabet.skipBreaks s₁ ≠ Alphabet.skipBreaks s₂) := by
  refine ⟨openToken_round_trip hlog h, ?_, ?_⟩
  · intro bucket' key' hne t' hopen
    obtain ⟨_, _, _, _, tk, aad, htk, haad, _⟩ := sealToken_ok h
    rw [openToken_sealed h hlog.size htk haad] at hopen
    obtain ⟨aad', haad', hopen⟩ := bind_ok hopen
    obtain ⟨body, hbody, _⟩ := bind_ok hopen
    have hopens : P.aead.openBytes tk nonce (P.aead.sealBytes tk nonce t.body aad) aad' = some body := by
      cases hb : P.aead.openBytes tk nonce (P.aead.sealBytes tk nonce t.body aad) aad' with
      | none =>
        rw [hb] at hbody
        simp [authentic] at hbody
      | some b =>
        rw [hb] at hbody
        rw [Except.ok.inj hbody]
    -- the message that opened is logged, and with this nonce there is only the token's own
    have hrecord := hlog.fresh tk aad htk haad _ (hlog.ideal.logged trivial hopens) rfl rfl
    have heq : aad' = aad := congrArg Aead.Record.aad hrecord
    obtain ⟨hb, hk⟩ := tokenAAD_inj haad (heq ▸ haad')
    exact hne (by rw [hb, hk])
  · intro s₁ s₂ b k t₁ t₂ h₁ h₂ _
    have hdecodes : ∀ {s t}, openToken P s b k = .ok t → ∃ raw, rawURLEncoding.decodeStrict s = some raw := by
      intro s t hs
      obtain ⟨_, hs⟩ := else_ok hs
      split at hs
      · simp at hs
      next raw hraw =>
        exact ⟨raw, hraw⟩
    obtain ⟨x, hx⟩ := hdecodes h₁
    obtain ⟨y, hy⟩ := hdecodes h₂
    rw [hx, hy, not_iff_not, Option.some_inj]
    exact rawURLEncoding.decodeStrict_eq_iff hx hy

/-- A token whose fields are zero, and a cipher that opens its one message. -/
def plainToken : Token := ⟨[0x6B], [0x75], replicate wrappedDEKSize 0, ⟨replicate Manifest.idSize 0, Manifest.length_zeroId⟩⟩

def plainRecord : Aead.Record :=
  ⟨replicate 32 0, replicate nonceSize 0, aadPrefix ++ (field 2 [0x62] ++ field 2 [0x6F]), plainToken.body⟩

def plainProvider : Provider := ⟨Aead.tableAead tagSize [plainRecord], fun _ => .ok (replicate 32 0)⟩

theorem plainToken_sealed : Sealed plainProvider (· ∈ [plainRecord]) plainToken [0x62] [0x6F]
    (replicate nonceSize 0) := by
  have htk : ∀ {tk}, tokenAEAD plainProvider plainToken.kid = .ok tk → tk = replicate 32 0 := by
    intro tk h
    exact (Except.ok.inj h).symm
  have haad : ∀ {aad}, tokenAAD [0x62] [0x6F] = .ok aad → aad = plainRecord.aad := by
    intro aad h
    exact (Except.ok.inj h).symm
  refine ⟨Aead.tableAead_ideal _ _, length_replicate, ?_, ?_⟩
  · intro tk aad h1 h2
    rw [htk h1, haad h2]
    exact mem_singleton.mpr rfl
  · intro tk aad h1 h2 r hr _ _
    rw [htk h1, haad h2]
    exact mem_singleton.mp hr

theorem plainToken_seals : ∃ s, sealToken plainProvider plainToken [0x62] [0x6F] (replicate nonceSize 0) = .ok s :=
  ⟨_, rfl⟩

theorem upload_token_one_spelling_plain :
    ∃ s, sealToken plainProvider plainToken [0x62] [0x6F] (replicate nonceSize 0) = .ok s
      ∧ openToken plainProvider s [0x62] [0x6F] = .ok plainToken := by
  obtain ⟨s, hs⟩ := plainToken_seals
  exact ⟨s, hs, (upload_token_one_spelling_iff plainToken_sealed hs).1⟩

/-- The text of a token with a line break behind it is another text of the same token. -/
theorem line_break_accepted : ∃ s, sealToken plainProvider plainToken [0x62] [0x6F] (replicate nonceSize 0) = .ok s
      ∧ openToken plainProvider s [0x62] [0x6F] = .ok plainToken
      ∧ openToken plainProvider (s ++ [0x0A]) [0x62] [0x6F] = .ok plainToken ∧ s ≠ s ++ [0x0A]
      ∧ rawURLEncoding.decodeStrict s = rawURLEncoding.decodeStrict (s ++ [0x0A]) := by
  obtain ⟨s, hs⟩ := plainToken_seals
  have hopen := openToken_round_trip plainToken_sealed hs
  have hbreaks : Alphabet.skipBreaks (s ++ [0x0A]) = Alphabet.skipBreaks s := by
    unfold Alphabet.skipBreaks
    rw [filter_append]
    exact append_nil _
  have hsame : rawURLEncoding.decodeStrict (s ++ [0x0A]) = rawURLEncoding.decodeStrict s := by
    unfold Alphabet.decodeStrict
    rw [hbreaks]
  have hlong : s.length < maxTokenLen := by
    rw [← Except.ok.inj hs, rawURLEncoding.encode_length]
    decide
  refine ⟨s, hs, hopen, ?_, by simp, hsame.symm⟩
  unfold openToken at hopen ⊢
  rw [hsame, if_neg (by simp; omega)]
  obtain ⟨_, hopen⟩ := else_ok hopen
  exact hopen

end BlindBucket.Upload
