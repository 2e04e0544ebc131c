import BlindBucket.Keys.Aad
import BlindBucket.Lib.Fields

/-!
# Contexts of wrapped keys

A wrapped key is bound to what it is for by its associated data: an object, a file, a key id, a tenant,
or one of the secrets that a keyring has once. Two different contexts never have the same associated
data. Each kind of context begins with a label of its own, and no label begins another, although the
prefix of objects begins the one of files: an object goes on with the length of its key id, whose first
byte is zero.
-/

namespace BlindBucket.Keys

open ByteIo GoText ObjectMeta Fields List

inductive Context where
  | object (kid bucket key : Bytes)
  | file (kid : Bytes)
  | kek (kid : Bytes)
  | tenantKEK (tenant kid : Bytes)
  | tenantName (tenant : Bytes)
  | audit
  | name
  | freshness
  | directory

def Context.aad : Context → Try Bytes
  | .object kid bucket key => objectAAD kid bucket key
  | .file kid => fileAAD kid
  | .kek kid => kekAAD kid
  | .tenantKEK tenant kid => tenantKEKAAD tenant kid
  | .tenantName tenant => tenantNameAAD tenant
  | .audit => .ok auditAAD
  | .name => .ok nameAAD
  | .freshness => .ok freshnessAAD
  | .directory => .ok aadDirectory

inductive ContextKind where
  | object | file | kek | tenantKEK | tenantName | audit | name | freshness | directory
deriving DecidableEq

def Context.kind : Context → ContextKind
  | .object .. => .object
  | .file _ => .file
  | .kek _ => .kek
  | .tenantKEK .. => .tenantKEK
  | .tenantName _ => .tenantName
  | .audit => .audit
  | .name => .name
  | .freshness => .freshness
  | .directory => .directory

/-- What the associated data of a kind of context begins with. -/
def ContextKind.label : ContextKind → Bytes
  | .object => aadObjectPrefix ++ [0]
  | .file => aadFilePrefix
  | .kek => aadKEKPrefix
  | .tenantKEK => aadTenantKEKPrefix
  | .tenantName => aadTenantNamePrefix
  | .audit => auditAAD
  | .name => nameAAD
  | .freshness => freshnessAAD
  | .directory => aadDirectory

/-! ## Fields -/

theorem appendLP_ok {dst x aad : Bytes} (h : appendLP dst x = .ok aad) : Short 2 x ∧ aad = dst ++ field 2 x := by
  obtain ⟨hlen, h⟩ := else_ok h
  refine ⟨?_, (Except.ok.inj h).symm⟩
  unfold Short
  omega

variable {kid aad : Bytes} {c : Context}

theorem validateKID_length (h : validateKID kid = .ok ()) : kid.length ≤ 64 := by
  obtain ⟨hlen, h⟩ := else_ok h
  unfold maxKIDLen at hlen
  omega

theorem objectAAD_ok {bucket key aad : Bytes} (h : objectAAD kid bucket key = .ok aad) :
    (kid.length ≤ 64 ∧ Short 2 kid ∧ Short 2 bucket ∧ Short 2 key)
      ∧ aad = aadObjectPrefix ++ (field 2 kid ++ (field 2 bucket ++ field 2 key)) := by
  obtain ⟨_, hkid, h⟩ := bind_ok h
  obtain ⟨a, ha, h⟩ := bind_ok h
  obtain ⟨b, hb, h⟩ := bind_ok h
  obtain ⟨hs1, rfl⟩ := appendLP_ok ha
  obtain ⟨hs2, rfl⟩ := appendLP_ok hb
  obtain ⟨hs3, rfl⟩ := appendLP_ok h
  refine ⟨⟨validateKID_length hkid, hs1, hs2, hs3⟩, ?_⟩
  rw [append_assoc, append_assoc]

theorem fileAAD_ok (h : fileAAD kid = .ok aad) :
    Short 2 kid ∧ aad = aadFilePrefix ++ field 2 kid := by
  obtain ⟨_, -, h⟩ := bind_ok h
  exact appendLP_ok h

theorem kekAAD_ok (h : kekAAD kid = .ok aad) : Short 2 kid ∧ aad = aadKEKPrefix ++ field 2 kid := by
  obtain ⟨_, -, h⟩ := bind_ok h
  exact appendLP_ok h

theorem tenantKEKAAD_ok {tenant aad : Bytes} (h : tenantKEKAAD tenant kid = .ok aad) :
    (Short 2 tenant ∧ Short 2 kid) ∧ aad = aadTenantKEKPrefix ++ (field 2 tenant ++ field 2 kid) := by
  obtain ⟨a, ha, h⟩ := bind_ok h
  obtain ⟨hs1, rfl⟩ := appendLP_ok ha
  obtain ⟨hs2, rfl⟩ := appendLP_ok h
  exact ⟨⟨hs1, hs2⟩, append_assoc _ _ _⟩

/-! ## Labels -/

theorem Context.label_begins (h : c.aad = .ok aad) : c.kind.label <+: aad := by
  cases c with
  | object kid bucket key =>
    obtain ⟨⟨hkid, -⟩, rfl⟩ := objectAAD_ok h
    -- a key id is shorter than 256 bytes, so the first byte of its length is zero
    have hzero : beBytes 2 kid.length = 0 :: beBytes 1 kid.length := by
      unfold beBytes
      have hdiv : kid.length / 256 ^ 1 = 0 := Nat.div_eq_of_lt (by omega)
      rw [hdiv]
      rfl
    simp [Context.kind, ContextKind.label, field, hzero]
  | file kid =>
    obtain ⟨-, rfl⟩ := fileAAD_ok h
    exact prefix_append _ _
  | kek kid =>
    obtain ⟨-, rfl⟩ := kekAAD_ok h
    exact prefix_append _ _
  | tenantKEK tenant kid =>
    obtain ⟨-, rfl⟩ := tenantKEKAAD_ok h
    exact prefix_append _ _
  | tenantName tenant =>
    obtain ⟨-, rfl⟩ := appendLP_ok h
    exact prefix_append _ _
  | audit | name | freshness | directory => exact Except.ok.inj h ▸ prefix_refl _

theorem ContextKind.label_incomparable {k k' : ContextKind} (h : k.label <+: k'.label) : k = k' := by
  cases k <;> cases k' <;> first | rfl | exact absurd h (by decide)

theorem Context.kind_eq {c' : Context} (h : c.aad = .ok aad) (h' : c'.aad = .ok aad) :
    c.kind = c'.kind := by
  rcases prefix_or_prefix_of_prefix (label_begins h) (label_begins h') with hp | hp
  · exact ContextKind.label_incomparable hp
  · exact (ContextKind.label_incomparable hp).symm

/-- **Contexts never collide**: associated data names one context. -/
theorem contexts_never_collide {c c' : Context} {aad : Bytes} (h : c.aad = .ok aad)
    (h' : c'.aad = .ok aad) : c = c' := by
  have hkind := Context.kind_eq h h'
  cases c with
  | object kid bucket key =>
    cases c' with
    | object kid' bucket' key' =>
      obtain ⟨⟨-, hs1, hs2, hs3⟩, hx⟩ := objectAAD_ok h
      obtain ⟨⟨-, hs1', hs2', hs3'⟩, hx'⟩ := objectAAD_ok h'
      obtain ⟨hkid, hrest⟩ := field_append_inj hs1 hs1' (append_cancel_left (hx.symm.trans hx'))
      obtain ⟨hbucket, hlast⟩ := field_append_inj hs2 hs2' hrest
      rw [hkid, hbucket, field_inj hs3 hs3' hlast]
    | _ => simp [Context.kind] at hkind
  | file kid =>
    cases c' with
    | file kid' =>
      obtain ⟨hs, hx⟩ := fileAAD_ok h
      obtain ⟨hs', hx'⟩ := fileAAD_ok h'
      rw [field_inj hs hs' (append_cancel_left (hx.symm.trans hx'))]
    | _ => simp [Context.kind] at hkind
  | kek kid =>
    cases c' with
    | kek kid' =>
      obtain ⟨hs, hx⟩ := kekAAD_ok h
      obtain ⟨hs', hx'⟩ := kekAAD_ok h'
      rw [field_inj hs hs' (append_cancel_left (hx.symm.trans hx'))]
    | _ => simp [Context.kind] at hkind
  | tenantKEK tenant kid =>
    cases c' with
    | tenantKEK tenant' kid' =>
      obtain ⟨⟨hs1, hs2⟩, hx⟩ := tenantKEKAAD_ok h
      obtain ⟨⟨hs1', hs2'⟩, hx'⟩ := tenantKEKAAD_ok h'
      obtain ⟨htenant, hlast⟩ := field_append_inj hs1 hs1' (append_cancel_left (hx.symm.trans hx'))
      rw [htenant, field_inj hs2 hs2' hlast]
    | _ => simp [Context.kind] at hkind
  | tenantName tenant =>
    cases c' with
    | tenantName tenant' =>
      obtain ⟨hs, hx⟩ := appendLP_ok h
      obtain ⟨hs', hx'⟩ := appendLP_ok h'
      rw [field_inj hs hs' (append_cancel_left (hx.symm.trans hx'))]
    | _ => simp [Context.kind] at hkind
  | _ =>
    -- the secrets that a keyring has once have nothing but their kind
    cases c' <;> first | rfl | exact absurd hkind (by simp [Context.kind])

theorem contexts_never_collide_file : fileAAD [0x6B] = .ok (aadFilePrefix ++ field 2 [0x6B]) ∧
      ∀ c : Context, c.aad = fileAAD [0x6B] → c = .file [0x6B] := by
  have hfile : fileAAD [0x6B] = .ok (aadFilePrefix ++ field 2 [0x6B]) := by decide
  refine ⟨hfile, fun c hc => ?_⟩
  exact contexts_never_collide (hc.trans hfile) hfile

end BlindBucket.Keys
