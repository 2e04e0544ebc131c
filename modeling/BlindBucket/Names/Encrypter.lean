import BlindBucket.Errors
import BlindBucket.Lib.BaseText
import BlindBucket.Lib.Fields
import BlindBucket.Lib.GoText

/-!
# Encrypted object names

A key is cut at its slashes and each segment is sealed on its own, under the path in front of it: the
synthetic IV is a keyed hash of that path and the segment, and the segment is encrypted from there.
HMAC-SHA256 and AES-CTR, under the two keys derived from the name key, are what an `Encrypter` holds.

Opening a stored key rebuilds the path that each segment was sealed under, segment by segment, so it
undoes the mapping and the mapping never takes two keys to one. Neither needs anything of the hash.
-/

namespace BlindBucket.Names

open ByteIo GoText Fields BaseText List

/-- The two keyed functions of the name key. -/
structure Encrypter where
  /-- HMAC-SHA256 under `prfKey`. -/
  prf : Bytes → Bytes
  /-- The first bytes of the AES-CTR key stream under `encKey` that starts at an IV. -/
  keyStream : Bytes → Nat → Bytes
  prf_length : ∀ x, (prf x).length = 32
  keyStream_length : ∀ iv n, (keyStream iv n).length = n

def ivSize : Nat := 16

def maxStoredKey : Nat := 1024

def slash : UInt8 := 0x2F

/-- `base32.StdEncoding.WithPadding(base32.NoPadding)`. -/
def encoding : Alphabet where
  width := 5
  chars := ascii "ABCDEFGHIJKLMNOPQRSTUVWXYZ234567"
  width_pos := by decide
  width_le := by decide
  size := by decide
  nodup := by decide
  no_lf := by decide
  no_cr := by decide

def xorKeyStream (stream x : Bytes) : Bytes := zipWith (· ^^^ ·) x stream

namespace Encrypter

variable (e : Encrypter)

/-- `syntheticIV`; the lengths that `writeLP` puts in front keep their low sixteen bits. -/
def syntheticIV (context segment : Bytes) : Bytes :=
  (e.prf (field 2 context ++ field 2 segment)).take ivSize

def sealSegment (context segment : Bytes) : Bytes :=
  let iv := e.syntheticIV context segment
  encoding.encode (iv ++ xorKeyStream (e.keyStream iv segment.length) segment)

def openSegment (context segment : Bytes) : Try Bytes :=
  match encoding.decode segment with
  | none => .error (wrapf .name "%w: segment is not valid base32" [])
  | some raw =>
    if encoding.encode raw ≠ segment then
      .error (wrapf .name "%w: segment is not canonically encoded" [])
    else if raw.length < ivSize then
      .error (wrapf .name "%w: segment is shorter than an IV" [])
    else
      let iv := raw.take ivSize
      let body := raw.drop ivSize
      let plain := xorKeyStream (e.keyStream iv body.length) body
      if iv ≠ e.syntheticIV context plain then
        .error (wrapf .name "%w: segment fails its own check" [])
      else
        .ok plain

/-- The loop of `EncryptKey`, from the segment at `offset` on. -/
def encryptSegments (plain : Bytes) (offset : Nat) : List Bytes → List Bytes
  | [] => []
  | segment :: rest =>
    e.sealSegment (plain.take offset) segment
      :: encryptSegments plain (offset + (segment.length + 1)) rest

def encryptKey (plain : Bytes) : Try Bytes :=
  if plain = [] then .ok []
  else
    let stored := join slash (e.encryptSegments plain 0 (split slash plain))
    if stored.length > maxStoredKey then
      .error (wrapf .nameTooLong "%w: %d bytes encrypts to %d, the maximum is %d"
        [.int plain.length, .int stored.length, .int maxStoredKey])
    else
      .ok stored

/-- The loop of `DecryptKey`, with what the builder holds. -/
def decryptSegments (plain : Bytes) : List Bytes → Try (List Bytes)
  | [] => .ok []
  | segment :: rest => do
      let opened ← e.openSegment plain segment
      let out ← decryptSegments (plain ++ opened ++ [slash]) rest
      .ok (opened :: out)

def decryptKey (stored : Bytes) : Try Bytes :=
  if stored = [] then .ok []
  else do
    let out ← e.decryptSegments [] (split slash stored)
    .ok (join slash out)

def encryptPrefix (pre : Bytes) : Try (Bytes × Bool) :=
  if pre = [] then .ok ([], true)
  else if ¬ [slash] <:+ pre then
    -- the last segment is partial, so the listing is narrowed to its parent
    match lastIndex slash pre with
    | none => .ok ([], false)
    | some i => do
        let encrypted ← e.encryptKey (pre.take i)
        .ok (encrypted ++ [slash], false)
  else do
    let encrypted ← e.encryptKey (trimSuffix [slash] pre)
    .ok (encrypted ++ [slash], true)

end Encrypter

/-! ## One segment -/

variable {stream x context s : Bytes} {segs : List Bytes}

theorem xorKeyStream_length (h : stream.length = x.length) : (xorKeyStream stream x).length = x.length := by
  unfold xorKeyStream
  rw [length_zipWith, h, Nat.min_self]

theorem xorKeyStream_twice (h : stream.length = x.length) : xorKeyStream stream (xorKeyStream stream x) = x := by
  unfold xorKeyStream
  induction x generalizing stream with
  | nil => simp
  | cons b x ih =>
    cases stream with
    | nil => simp at h
    | cons k stream =>
      rw [zipWith_cons_cons, zipWith_cons_cons, ih (by simpa using h)]
      simp only [UInt8.xor_assoc, UInt8.xor_self, UInt8.xor_zero]

theorem slash_not_mem_encode (x : Bytes) : slash ∉ encoding.encode x := by
  intro h
  exact absurd (encoding.mem_encode h) (by decide)

namespace Encrypter

variable (e : Encrypter)

theorem syntheticIV_length (context segment : Bytes) : (e.syntheticIV context segment).length = ivSize := by
  unfold syntheticIV
  rw [length_take, e.prf_length]
  rfl

theorem slash_not_mem_sealSegment (context segment : Bytes) :
    slash ∉ e.sealSegment context segment := slash_not_mem_encode _

theorem sealSegment_ne_nil (context segment : Bytes) : e.sealSegment context segment ≠ [] := by
  intro h
  have hraw := encoding.decode_encode
    (e.syntheticIV context segment
      ++ xorKeyStream (e.keyStream (e.syntheticIV context segment) segment.length) segment)
  have hnil : encoding.decode [] = some [] := by decide
  unfold sealSegment at h
  rw [h, hnil] at hraw
  have hlen := congrArg length (Option.some.inj hraw)
  rw [length_append, e.syntheticIV_length] at hlen
  exact absurd hlen (by simp [ivSize]; omega)

/-- **A sealed segment is opened under the path it was sealed under.** -/
theorem openSegment_sealSegment (context segment : Bytes) :
    e.openSegment context (e.sealSegment context segment) = .ok segment := by
  have hiv := e.syntheticIV_length context segment
  have hstream : (e.keyStream (e.syntheticIV context segment) segment.length).length = segment.length :=
    e.keyStream_length _ _
  unfold openSegment sealSegment
  simp only [encoding.decode_encode]
  rw [if_neg (by simp), if_neg (by rw [length_append, hiv]; omega)]
  rw [take_left' hiv, drop_left' hiv, xorKeyStream_length hstream, xorKeyStream_twice hstream]
  rw [if_neg (by simp)]

variable {t : Bytes}

theorem sealSegment_inj (h : e.sealSegment context s = e.sealSegment context t) : s = t := by
  have hs := e.openSegment_sealSegment context s
  rw [h, e.openSegment_sealSegment] at hs
  exact (Except.ok.inj hs).symm

/-! ## A path of segments -/

/-- Segments sealed one after the other, each under the path in front of it. -/
def sealPath (context : Bytes) : List Bytes → List Bytes
  | [] => []
  | s :: rest => e.sealSegment context s :: sealPath (context ++ s ++ [slash]) rest

theorem sealPath_length (context : Bytes) (segs : List Bytes) :
    (e.sealPath context segs).length = segs.length := by
  induction segs generalizing context with
  | nil => rfl
  | cons s rest ih => rw [sealPath, length_cons, ih, length_cons]

theorem slash_not_mem_sealPath (h : t ∈ e.sealPath context segs) : slash ∉ t := by
  induction segs generalizing context with
  | nil => simp [sealPath] at h
  | cons s rest ih =>
    rcases mem_cons.mp h with rfl | h
    · exact e.slash_not_mem_sealSegment _ _
    · exact ih h

theorem sealPath_append (context : Bytes) (as bs : List Bytes) :
    ∃ context', e.sealPath context (as ++ bs) = e.sealPath context as ++ e.sealPath context' bs := by
  induction as generalizing context with
  | nil => exact ⟨context, rfl⟩
  | cons a as ih =>
    obtain ⟨context', h⟩ := ih (context ++ a ++ [slash])
    exact ⟨context', by rw [cons_append, sealPath, h, sealPath, cons_append]⟩

theorem sealPath_inj {as bs : List Bytes} (h : e.sealPath context as = e.sealPath context bs) : as = bs := by
  induction as generalizing context bs with
  | nil =>
    cases bs with
    | nil => rfl
    | cons b bs => simp [sealPath] at h
  | cons a as ih =>
    cases bs with
    | nil => simp [sealPath] at h
    | cons b bs =>
      obtain ⟨hhead, htail⟩ := cons.inj h
      have hab := e.sealSegment_inj hhead
      subst hab
      rw [ih htail]

/-- The loop of `EncryptKey` seals the path: what it takes from the front of the key is the path of the
segments it has passed. -/
theorem encryptSegments_eq {plain : Bytes} (hne : segs ≠ []) (h : plain = context ++ join slash segs) :
    e.encryptSegments plain context.length segs = e.sealPath context segs := by
  induction segs generalizing context with
  | nil => exact absurd rfl hne
  | cons s rest ih =>
    rw [encryptSegments, h, take_left]
    congr 1
    cases rest with
    | nil => rfl
    | cons t rest =>
      have hlen : (context ++ s ++ [slash]).length = context.length + (s.length + 1) := by
        rw [length_append, length_append]
        rfl
      rw [← h, ← hlen]
      refine ih (by simp) ?_
      rw [h, join]
      simp

theorem decryptSegments_sealPath (context : Bytes) (segs : List Bytes) :
    e.decryptSegments context (e.sealPath context segs) = .ok segs := by
  induction segs generalizing context with
  | nil => rfl
  | cons s rest ih =>
    rw [sealPath, decryptSegments, e.openSegment_sealSegment, ok_bind, ih, ok_bind]

/-! ## Keys -/

variable {plain stored : Bytes}

theorem encryptKey_ok (hne : plain ≠ []) (h : e.encryptKey plain = .ok stored) :
    stored = join slash (e.sealPath [] (split slash plain)) := by
  unfold encryptKey at h
  rw [if_neg hne] at h
  have hpath : e.encryptSegments plain ([] : Bytes).length (split slash plain)
      = e.sealPath [] (split slash plain) :=
    e.encryptSegments_eq (split_ne_nil slash plain) (join_split slash plain).symm
  rw [length_nil] at hpath
  rw [hpath] at h
  obtain ⟨_, h⟩ := else_ok h
  exact (Except.ok.inj h).symm

theorem sealPath_split_ne_nil (plain : Bytes) : e.sealPath [] (split slash plain) ≠ [] := by
  intro h
  have hlen := e.sealPath_length [] (split slash plain)
  rw [h] at hlen
  exact split_ne_nil slash plain (eq_nil_of_length_eq_zero hlen.symm)

theorem split_encryptKey (hne : plain ≠ [])
    (h : e.encryptKey plain = .ok stored) : split slash stored = e.sealPath [] (split slash plain) := by
  rw [e.encryptKey_ok hne h]
  exact split_join (fun t ht => e.slash_not_mem_sealPath ht) (e.sealPath_split_ne_nil plain)

theorem encryptKey_ne_nil (hne : plain ≠ []) (h : e.encryptKey plain = .ok stored) : stored ≠ [] := by
  intro hnil
  have hsplit := e.split_encryptKey hne h
  rw [hnil] at hsplit
  cases hseg : split slash plain with
  | nil => exact absurd hseg (split_ne_nil _ _)
  | cons s rest =>
    rw [hseg] at hsplit
    exact e.sealSegment_ne_nil [] s (cons.inj hsplit).1.symm

theorem decryptKey_encryptKey (h : e.encryptKey plain = .ok stored) : e.decryptKey stored = .ok plain := by
  by_cases hne : plain = []
  · subst hne
    have hstored : stored = [] := (Except.ok.inj h).symm
    rw [hstored]
    rfl
  · unfold decryptKey
    rw [if_neg (e.encryptKey_ne_nil hne h), e.split_encryptKey hne h, e.decryptSegments_sealPath, ok_bind,
      join_split]

theorem count_encryptKey (h : e.encryptKey plain = .ok stored) : stored.count slash = plain.count slash := by
  by_cases hne : plain = []
  · subst hne
    have hstored : stored = [] := (Except.ok.inj h).symm
    rw [hstored]
  · have hplain : (join slash (split slash plain)).count slash = (split slash plain).length - 1 :=
      count_join fun t ht => not_mem_split ht
    rw [join_split] at hplain
    rw [e.encryptKey_ok hne h, count_join fun t ht => e.slash_not_mem_sealPath ht, e.sealPath_length, hplain]

end Encrypter

/-- **Name encryption is invertible and injective**, for every key whose stored form fits: opening gives
the key back, the slashes stay, and no two keys are stored under one name. -/
theorem encryptKey_invertible (e : Encrypter) {k stored : Bytes} (h : e.encryptKey k = .ok stored) :
    e.decryptKey stored = .ok k ∧ stored.count slash = k.count slash
      ∧ ∀ k', e.encryptKey k' = .ok stored → k' = k := by
  refine ⟨e.decryptKey_encryptKey h, e.count_encryptKey h, ?_⟩
  intro k' h'
  have hk := e.decryptKey_encryptKey h
  rw [e.decryptKey_encryptKey h'] at hk
  exact Except.ok.inj hk

/-- An encrypter whose hash is constant and whose key stream is zero. -/
def blankEncrypter : Encrypter where
  prf _ := replicate 32 0
  keyStream _ n := replicate n 0
  prf_length _ := length_replicate
  keyStream_length _ _ := length_replicate

/-- An empty segment under the blank encrypter. -/
def blankSegment : Bytes := replicate 26 0x41

theorem encryptKey_invertible_slashes :
    blankEncrypter.decryptKey (blankSegment ++ slash :: (blankSegment ++ slash :: blankSegment))
      = .ok (ascii "//") :=
  (encryptKey_invertible blankEncrypter (by decide +kernel)).1

/-! ## Any stored key -/

namespace Encrypter

variable (e : Encrypter)

/-- **An accepted segment is the sealed form of what it opens to.** The bits that base32 leaves over are settled
by encoding again, the rest by the check of the IV. -/
theorem openSegment_ok {segment p : Bytes} (h : e.openSegment context segment = .ok p) :
    segment = e.sealSegment context p := by
  unfold openSegment at h
  split at h
  · simp at h
  next raw _ =>
    by_cases hcanon : encoding.encode raw ≠ segment
    · rw [if_pos hcanon] at h
      simp at h
    rw [if_neg hcanon] at h
    by_cases hshort : raw.length < ivSize
    · rw [if_pos hshort] at h
      simp at h
    rw [if_neg hshort] at h
    obtain ⟨hiv, h⟩ := else_ok h
    have hstream := e.keyStream_length (raw.take ivSize) (raw.drop ivSize).length
    have hp := Except.ok.inj h
    rw [hp, not_not] at hiv
    have hlen : p.length = (raw.drop ivSize).length := by rw [← hp, xorKeyStream_length hstream]
    unfold sealSegment
    rw [← hiv]
    dsimp only
    rw [hlen, ← hp, xorKeyStream_twice hstream, take_append_drop]
    exact (not_not.mp hcanon).symm

theorem decryptSegments_ok {names : List Bytes} (h : e.decryptSegments context segs = .ok names) :
    segs = e.sealPath context names := by
  induction segs generalizing context names with
  | nil =>
    rw [← Except.ok.inj h]
    rfl
  | cons s rest ih =>
    obtain ⟨p, hp, h⟩ := bind_ok h
    obtain ⟨out, hout, h⟩ := bind_ok h
    rw [← Except.ok.inj h, sealPath, ← e.openSegment_ok hp, ← ih hout]

variable {k : Bytes}

/-- What `DecryptKey` accepts is a path of sealed names, and they need not be the segments of any key. -/
theorem decryptKey_ok (hne : s ≠ []) (h : e.decryptKey s = .ok k) :
    ∃ names, names ≠ [] ∧ split slash s = e.sealPath [] names ∧ k = join slash names := by
  unfold decryptKey at h
  rw [if_neg hne] at h
  obtain ⟨names, hnames, h⟩ := bind_ok h
  have hpath := e.decryptSegments_ok hnames
  refine ⟨names, ?_, hpath, (Except.ok.inj h).symm⟩
  intro hnil
  rw [hnil] at hpath
  exact split_ne_nil slash s hpath

/-- What a stored key has to be besides a path of sealed names. -/
structure Regular (s : Bytes) : Prop where
  /-- It is not the sealed empty name alone: `EncryptKey` leaves the empty key empty. -/
  not_empty : s ≠ e.sealSegment [] []
  /-- No name sealed in it has a slash: `EncryptKey` cuts there. -/
  no_slash : ∀ names, split slash s = e.sealPath [] names → ∀ p ∈ names, slash ∉ p

theorem regular_nil : e.Regular [] := by
  refine ⟨(e.sealSegment_ne_nil [] []).symm, ?_⟩
  intro names h p hp
  cases names with
  | nil => simp at hp
  | cons n rest => exact absurd (cons.inj h).1.symm (e.sealSegment_ne_nil [] n)

theorem regular_iff {names : List Bytes} (h : split slash s = e.sealPath [] names) :
    e.Regular s ↔ names ≠ [[]] ∧ ∀ p ∈ names, slash ∉ p := by
  constructor
  · intro hr
    refine ⟨?_, hr.no_slash names h⟩
    intro hone
    refine hr.not_empty ?_
    rw [← join_split slash s, h, hone]
    rfl
  · intro ⟨hone, hslash⟩
    refine ⟨?_, ?_⟩
    · intro hs
      rw [hs, split_of_not_mem (e.slash_not_mem_sealSegment _ _)] at h
      have hpath : e.sealPath [] [[]] = e.sealPath [] names := h
      exact hone (e.sealPath_inj hpath).symm
    · intro names' h'
      rwa [e.sealPath_inj (h'.symm.trans h)]

/-- A regular stored key is the sealed path of the key it opens to. -/
theorem split_of_regular (hne : s ≠ []) (h : e.decryptKey s = .ok k) (hr : e.Regular s) :
    k ≠ [] ∧ split slash s = e.sealPath [] (split slash k) := by
  obtain ⟨names, hnames, hpath, hk⟩ := e.decryptKey_ok hne h
  obtain ⟨hone, hslash⟩ := (e.regular_iff hpath).mp hr
  refine ⟨?_, by rw [hk, split_join hslash hnames, hpath]⟩
  intro hnil
  exact hone (join_eq_nil hnames (hk.symm.trans hnil))

theorem eq_of_regular {s' : Bytes} (h : e.decryptKey s = .ok k) (h' : e.decryptKey s' = .ok k) (hr : e.Regular s)
    (hr' : e.Regular s') : s' = s := by
  have hempty : ∀ {t : Bytes}, t ≠ [] → e.Regular t → e.decryptKey t ≠ .ok [] := by
    intro t hne ht hopen
    exact (e.split_of_regular hne hopen ht).1 rfl
  by_cases hs : s = []
  · subst hs
    rw [← Except.ok.inj h] at h'
    by_contra hne
    exact hempty hne hr' h'
  · by_cases hs' : s' = []
    · subst hs'
      rw [← Except.ok.inj h'] at h
      exact absurd h (hempty hs hr)
    · rw [← join_split slash s, ← join_split slash s', (e.split_of_regular hs h hr).2,
        (e.split_of_regular hs' h' hr').2]

end Encrypter

/-- **A stored key that opens is the stored form of the key it opens to exactly when it is regular**, and no two
regular stored keys open to one key. -/
theorem stored_name_canonical_iff (e : Encrypter) {s k t : Bytes} (hs : e.decryptKey s = .ok k)
    (ht : e.encryptKey k = .ok t) :
    (t = s ↔ e.Regular s) ∧ ∀ s', e.decryptKey s' = .ok k → e.Regular s → e.Regular s' → s' = s := by
  refine ⟨⟨?_, ?_⟩, fun s' hs' hr hr' => e.eq_of_regular hs hs' hr hr'⟩
  · intro heq
    subst heq
    by_cases hk : k = []
    · subst hk
      rw [← Except.ok.inj ht]
      exact e.regular_nil
    · refine (e.regular_iff (e.split_encryptKey hk ht)).mpr ⟨?_, fun p hp => not_mem_split hp⟩
      intro hone
      refine hk ?_
      rw [← join_split slash k, hone]
      rfl
  · intro hr
    by_cases hne : s = []
    · subst hne
      have hk : k = [] := (Except.ok.inj hs).symm
      rw [hk] at ht
      exact (Except.ok.inj ht).symm
    · obtain ⟨hk, hpath⟩ := e.split_of_regular hne hs hr
      rw [e.encryptKey_ok hk ht, ← hpath, join_split]

theorem stored_name_canonical_iff_slash :
    blankEncrypter.decryptKey (blankSegment ++ slash :: blankSegment) = .ok (ascii "/")
      ∧ blankEncrypter.Regular (blankSegment ++ slash :: blankSegment) := by
  have hs : blankEncrypter.decryptKey (blankSegment ++ slash :: blankSegment) = .ok (ascii "/") := by
    decide +kernel
  have ht : blankEncrypter.encryptKey (ascii "/") = .ok (blankSegment ++ slash :: blankSegment) := by
    decide +kernel
  exact ⟨hs, (stored_name_canonical_iff blankEncrypter hs ht).1.mp rfl⟩

/-- The first segment of the stored form of `/`, on its own, opens to the empty key, which is stored as the empty
string: under every encrypter two stored keys open to it. -/
theorem empty_name_opens : (blankEncrypter.decryptKey blankSegment = .ok [] ∧ blankEncrypter.encryptKey [] = .ok []
      ∧ ([] : Bytes) ≠ blankSegment)
    ∧ ∀ e : Encrypter, e.decryptKey (e.sealSegment [] []) = .ok [] ∧ e.encryptKey [] = .ok []
      ∧ [] ≠ e.sealSegment [] [] := by
  refine ⟨⟨by decide +kernel, rfl, by decide⟩, ?_⟩
  intro e
  refine ⟨?_, rfl, (e.sealSegment_ne_nil [] []).symm⟩
  unfold Encrypter.decryptKey
  rw [if_neg (e.sealSegment_ne_nil [] []), split_of_not_mem (e.slash_not_mem_sealSegment _ _)]
  rw [Encrypter.decryptSegments, e.openSegment_sealSegment]
  rfl

end BlindBucket.Names
