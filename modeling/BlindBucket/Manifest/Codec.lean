import BlindBucket.Lib.Int64
import BlindBucket.Manifest.Manifest
import BlindBucket.Stream.RoundTrip

/-!
# The manifest codec, in both directions

`parseBody` reads a body in one way only: whatever it accepts under the current magic is the body of the manifest it
returns. Together with the tag this makes `Marshal` and `Unmarshal` inverse to each other, for every byte string and
not only for those that were written.
-/

namespace BlindBucket.Manifest

open ByteIo BlindBucket.Stream Machine List

/-- What a manifest says of itself, without a key to verify it. -/
def peekIdentity (raw : Bytes) : Try (Bytes × Bytes × ID) :=
  if raw.length < magic.length + macSize then
    .error (errorf "manifest: %d bytes is too short to be a manifest" [.int raw.length])
  else do
    let m ← parseBody (raw.take (raw.length - macSize))
    .ok (m.bucket, m.key, m.id)

/-! ## What a read took -/

theorem must_ok {α : Type} {what : String} {o : Option α} {a : α} (h : must what o = .ok a) : o = some a := by
  cases o with
  | none => simp [must] at h
  | some b => rw [Except.ok.inj h]

variable {n : Nat} {buf dek rest : Bytes} {m : Manifest} {K : Crypto} {H : Hmac}

theorem next_eq_some {b rest : Bytes} (h : next n buf = some (b, rest)) : buf = b ++ rest ∧ b.length = n := by
  obtain ⟨_, h⟩ := Option.ite_none_left_eq_some.mp h
  cases h
  exact ⟨(take_append_drop n buf).symm, length_take_of_le (by omega)⟩

theorem next_ofBe {w : Nat}
    (h : (do let (b, buf) ← next w buf; some (ofBe b, buf)) = some (n, rest)) :
    buf = beBytes w n ++ rest ∧ n < 256 ^ w := by
  obtain ⟨⟨b, rest'⟩, hnext, h⟩ := Option.bind_eq_some_iff.mp h
  cases h
  obtain ⟨hbuf, rfl⟩ := next_eq_some hnext
  exact ⟨by rw [beBytes_ofBe, hbuf], ofBe_lt b⟩

theorem readLP_eq_some {s rest : Bytes} (h : readLP buf = some (s, rest)) :
    buf = (beBytes 2 s.length ++ s) ++ rest := by
  obtain ⟨⟨n, buf'⟩, hlen, h⟩ := Option.bind_eq_some_iff.mp h
  obtain ⟨hbuf, _⟩ := next_ofBe hlen
  obtain ⟨hbuf', rfl⟩ := next_eq_some h
  rw [hbuf, hbuf', append_assoc]

theorem parseSalt_ok {salt : Salt} (h : parseSalt false buf = .ok (salt, rest)) :
    buf = salt.val ++ rest := by
  unfold parseSalt at h
  rw [if_neg (by simp)] at h
  split at h
  · cases h
    exact (take_append_drop saltSize buf).symm
  · simp at h

theorem parseId_ok {id : ID} (h : parseId buf = .ok (id, rest)) : buf = id.val ++ rest := by
  unfold parseId at h
  split at h
  · cases h
    exact (take_append_drop idSize buf).symm
  · simp at h

theorem parseEntries_ok {count : Nat} {parts : List Part}
    (h : parseEntries false count buf = .ok (parts, rest)) :
    buf = parts.flatMap entryBytes ++ rest ∧ parts.length = count := by
  induction count generalizing buf parts with
  | zero =>
    cases h
    exact ⟨rfl, rfl⟩
  | succ count ih =>
    obtain ⟨⟨number, b1⟩, hnumber, h⟩ := bind_ok h
    obtain ⟨⟨size, b2⟩, hsize, h⟩ := bind_ok h
    obtain ⟨_, _, h⟩ := bind_ok h
    obtain ⟨⟨salt, b3⟩, hsalt, h⟩ := bind_ok h
    obtain ⟨⟨later, b4⟩, hlater, h⟩ := bind_ok h
    cases h
    obtain ⟨h1, _⟩ := next_ofBe (must_ok hnumber)
    obtain ⟨h2, _⟩ := next_ofBe (must_ok hsize)
    obtain ⟨h4, hlen⟩ := ih hlater
    have h3 : b2 = salt.val ++ b3 := parseSalt_ok hsalt
    refine ⟨?_, by rw [length_cons, hlen]⟩
    rw [h1, h2, h3, h4, flatMap_cons, entryBytes, Int.toNat_natCast]
    simp only [append_assoc]

/-- **A body that begins with the current magic is read in one way.** -/
theorem parseBody_ok {body : Bytes} (hmagic : magic <+: body) (h : parseBody body = .ok m) :
    m.legacy = false ∧ body = m.bodyBytes := by
  obtain ⟨⟨b, b1⟩, hb, h⟩ := bind_ok h
  obtain ⟨legacy, hlegacy, h⟩ := bind_ok h
  obtain ⟨⟨bucket, b2⟩, hbucket, h⟩ := bind_ok h
  obtain ⟨⟨key, b3⟩, hkey, h⟩ := bind_ok h
  obtain ⟨⟨id, b4⟩, hid, h⟩ := bind_ok h
  obtain ⟨⟨count, b5⟩, hcount, h⟩ := bind_ok h
  obtain ⟨⟨parts, b6⟩, hparts, h⟩ := bind_ok h
  obtain ⟨h1, hlen⟩ := next_eq_some (must_ok hb)
  have hmb : b = magic := by
    obtain ⟨rest, hrest⟩ := hmagic
    exact (append_inj (h1.symm.trans hrest.symm) (by rw [hlen]; rfl)).1
  rw [hmb] at hlegacy
  cases hlegacy
  obtain ⟨hempty, h⟩ := else_ok h
  have h6 : b6 = [] := eq_nil_of_length_eq_zero (Decidable.not_not.mp hempty)
  obtain ⟨h5, _⟩ := next_ofBe (must_ok hcount)
  obtain ⟨hentries, hcounted⟩ := parseEntries_ok hparts
  rw [← Except.ok.inj h]
  refine ⟨rfl, ?_⟩
  unfold bodyBytes
  rw [h1, hmb, readLP_eq_some (must_ok hbucket), readLP_eq_some (must_ok hkey), parseId_ok hid, h5, hentries, h6,
    hcounted, append_nil]

theorem unmarshal_bytes {raw bucket key : Bytes} {id : ID} (h : unmarshal K H raw dek bucket key id = .ok m)
    (hmagic : magic <+: raw) :
    m.legacy = false ∧ ∃ k, macKey K dek = .ok k ∧ raw = m.bodyBytes ++ H.sum k m.bodyBytes := by
  obtain ⟨k, hk, h⟩ := bind_ok h
  split at h
  · simp at h
  dsimp only at h
  split at h
  · simp at h
  rename_i htag
  obtain ⟨m', hm, h⟩ := bind_ok h
  have heq : m' = m := by
    obtain ⟨_, h⟩ := else_ok h
    split at h
    · simp at h
    · exact Except.ok.inj h
  rw [heq] at hm
  have hbody : magic <+: raw.take (raw.length - macSize) := by
    refine (prefix_take_iff).mpr ⟨hmagic, ?_⟩
    omega
  obtain ⟨hl, hbytes⟩ := parseBody_ok hbody hm
  refine ⟨hl, k, hk, ?_⟩
  rw [← hbytes, Decidable.not_not.mp htag, take_append_drop]

/-! ## The two directions -/

theorem marshal_of_valid {k : Bytes} (hv : m.validate = .ok ()) (hk : macKey K dek = .ok k) :
    m.marshal K H dek = .ok (m.bodyBytes ++ H.sum k m.bodyBytes) := by
  obtain ⟨hb, hkey⟩ := validate_fields hv
  unfold marshal appendLP
  rw [hv, ok_bind, hk, ok_bind, if_neg (by omega), ok_bind, if_neg (by omega), ok_bind]
  simp only [bodyBytes, append_assoc]

theorem sum_fits {ps : List Part} (hok : ∀ p ∈ ps, p.Ok) (hlen : ps.length ≤ maxParts) :
    InInt64 (ps.map Part.plainSize).sum := by
  have hbound : 0 ≤ (ps.map Part.plainSize).sum
      ∧ (ps.map Part.plainSize).sum ≤ (ps.length : Int) * (maxPlaintextSize : Nat) := by
    clear hlen
    induction ps with
    | nil => simp
    | cons p ps ih =>
      obtain ⟨h0, h1⟩ := ih fun q hq => hok q (mem_cons_of_mem p hq)
      have hp := hok p mem_cons_self
      have hnonneg := hp.size_nonneg
      have hle := hp.size_le
      rw [map_cons, sum_cons, length_cons, Int.natCast_add, Int.add_mul]
      omega
  have hmul : (ps.length : Int) * (maxPlaintextSize : Nat) ≤ (maxParts : Nat) * (maxPlaintextSize : Nat) :=
    Int.mul_le_mul_of_nonneg_right (by omega) (by omega)
  have hmax : ((maxParts : Nat) : Int) * (maxPlaintextSize : Nat) < 2 ^ 63 := by decide
  exact ⟨by omega, by omega⟩

/-- **The manifest codec.** What was written is read back, with and without the key, and whatever is accepted under
the current magic is what writing its manifest gives; its numbers ascend, and no sum of its sizes overflows. -/
theorem manifest_codec (K : Crypto) (H : Hmac) (dek : Bytes) : (∀ (m : Manifest) raw, m.marshal K H dek = .ok raw →
      (∃ m', unmarshal K H raw dek m.bucket m.key m.id = .ok m'
        ∧ m'.bucket = m.bucket ∧ m'.key = m.key ∧ m'.id = m.id ∧ m'.parts = m.parts)
      ∧ peekIdentity raw = .ok (m.bucket, m.key, m.id))
    ∧ ∀ raw bucket key id m, magic <+: raw → unmarshal K H raw dek bucket key id = .ok m →
      m.marshal K H dek = .ok raw
      ∧ m.parts.Pairwise (fun p q => p.number < q.number)
      ∧ (∀ p ∈ m.parts, 1 ≤ p.number ∧ p.number ≤ maxParts)
      ∧ ∀ ps : List Part, ps.Sublist m.parts → InInt64 (ps.map Part.plainSize).sum := by
  constructor
  · intro m raw h
    -- a manifest that was read without salts is written with the zero ones it holds
    have hcurrent : Manifest.marshal K H { m with legacy := false } dek = .ok raw := h
    refine ⟨⟨_, unmarshal_marshal (m := { m with legacy := false }) rfl hcurrent, rfl, rfl, rfl, rfl⟩, ?_⟩
    obtain ⟨hv, k, _, rfl⟩ := marshal_ok hcurrent
    have hparse := parseBody_bodyBytes hv rfl
    generalize bodyBytes { m with legacy := false } = body at hparse ⊢
    have htag := H.sum_length k body
    have hlen : (body ++ H.sum k body).length - macSize = body.length := by
      rw [length_append]
      omega
    have hlong : ¬ (body ++ H.sum k body).length < magic.length + macSize := by
      intro hshort
      have hmagic : body.length < 4 := by
        rw [length_append, htag] at hshort
        exact Nat.lt_of_add_lt_add_right hshort
      unfold parseBody next at hparse
      rw [if_pos hmagic] at hparse
      simp [must, bind, Except.bind] at hparse
    unfold peekIdentity
    rw [if_neg hlong, hlen, take_left, hparse]
    rfl
  · intro raw bucket key id m hmagic h
    obtain ⟨hv, _⟩ := unmarshal_ok h
    obtain ⟨_, hlen, hok, hasc⟩ := validate_ok hv
    obtain ⟨_, k, hk, hraw⟩ := unmarshal_bytes h hmagic
    refine ⟨hraw ▸ marshal_of_valid hv hk, hasc, fun p hp => ⟨(hok p hp).number_pos, (hok p hp).number_le⟩, ?_⟩
    intro ps hps
    exact sum_fits (fun p hp => hok p (hps.subset hp)) (hps.length_le.trans hlen)

def onePart : Manifest := ⟨[0x62], [0x6B], ⟨replicate idSize 0, length_zeroId⟩, [⟨1, 3, zeroSalt⟩], false⟩

theorem manifest_codec_one_part :
    ∃ (H : Hmac) (raw : _), onePart.marshal plainCrypto H (replicate keySize 0) = .ok raw
      ∧ peekIdentity raw = .ok ([0x62], [0x6B], onePart.id)
      ∧ ∃ m', unmarshal plainCrypto H raw (replicate keySize 0) [0x62] [0x6B] onePart.id = .ok m'
        ∧ m'.marshal plainCrypto H (replicate keySize 0) = .ok raw := by
  let H : Hmac := ⟨fun _ _ => replicate macSize 0, length_zeroMac⟩
  obtain ⟨hwritten, hread⟩ := manifest_codec plainCrypto H (replicate keySize 0)
  have hraw : onePart.marshal plainCrypto H (replicate keySize 0) = .ok _ :=
    marshal_of_valid (by decide) (if_neg (by decide))
  obtain ⟨⟨m', hm, _⟩, hpeek⟩ := hwritten _ _ hraw
  have hmagic : magic <+: onePart.bodyBytes ++ replicate macSize 0 := ⟨_, rfl⟩
  exact ⟨H, _, hraw, hpeek, m', hm, (hread _ _ _ _ _ hmagic hm).1⟩

end BlindBucket.Manifest
