import BlindBucket.Keys.KidOwners

/-!
# The life of a key

Keys are added, take turns at being the active one, and are removed when a rotation has moved everything off them.
-/

namespace BlindBucket.Keys

open ByteIo GoText ObjectMeta List

variable {r r' : Keyring} {row : KeyRow} {kid : Bytes} {A : Aead wrapTagSize}

namespace Keyring

def remove (r : Keyring) (kid : Bytes) : Try Keyring :=
  if kid ∉ r.kids then .error (wrapf .unknownKID "%w: %q" [.bytes kid])
  else if kid = r.active then
    .error (errorf "keys: %q is the active key; make another key active before removing it" [.bytes kid])
  else if r.keys.length = 1 then .error (errorf "keys: %q is the only key in the keyring" [.bytes kid])
  else
    .ok { r with
      keys := r.keys.filter fun row => row.kid ≠ kid
      sorted := r.sorted.filter _
      valid := fun x hx => r.valid x (mem_filter.mp hx).1 }

theorem remove_ok (h : r.remove kid = .ok r') : r'.active = r.active ∧ kid ≠ r.active ∧ r.keys ≠ [] ∧
    ∀ x, x ∈ r'.keys ↔ x ∈ r.keys ∧ x.kid ≠ kid := by
  obtain ⟨hmem, h⟩ := else_ok h
  obtain ⟨hne, h⟩ := else_ok h
  obtain ⟨-, h⟩ := else_ok h
  cases h
  refine ⟨rfl, hne, fun hnil => ?_, fun x => by simp⟩
  simp [kids, hnil] at hmem

theorem lookup_of_mem (h : row ∈ r.keys) : r.lookup row.kid = .ok row.kek := by
  rw [lookup, find_of_mem h]

theorem lookup_of_not_mem (h : kid ∉ r.kids) : r.lookup kid = .error (wrapf .unknownKID "%w: %q" [.bytes kid]) := by
  have hnone : (r.keys.find? fun row => row.kid = kid) = none := by
    refine find?_eq_none.mpr fun row hrow he => h ?_
    rw [← of_decide_eq_true he]
    exact mem_map_of_mem hrow
  rw [lookup, hnone]

end Keyring

/-- What an operator does to a keyring. -/
inductive RingOp where
  | add (kid kek : Bytes) (created : Option Int)
  | setActive (kid : Bytes)
  | remove (kid : Bytes)

namespace Keyring

def apply (r : Keyring) : RingOp → Try Keyring
  | .add kid kek created => r.add kid kek created
  | .setActive kid => r.setActive kid
  | .remove kid => r.remove kid

/-- What is refused leaves the keyring as it was. -/
def after (r : Keyring) (op : RingOp) : Keyring := (r.apply op).toOption.getD r

def run (r : Keyring) (ops : List RingOp) : Keyring := ops.foldl after r

/-- There is an active key, or no key at all. -/
def Usable (r : Keyring) : Prop := r.active ∈ r.kids ∨ r.keys = [] ∧ r.active = []

/-- What an operation does to the keys. -/
structure Follows (r : Keyring) (op : RingOp) (r' : Keyring) : Prop where
  keeps : ∀ row ∈ r.keys, op ≠ .remove row.kid → row ∈ r'.keys
  adds : ∀ row ∈ r'.keys, row ∈ r.keys ∨ op = .add row.kid row.kek row.created
  usable : r.Usable → r'.Usable

variable {op : RingOp} {ops : List RingOp}

theorem apply_follows (h : r.apply op = .ok r') : r.Follows op r' := by
  cases op with
  | add kid kek created =>
    have hkids := mem_kids_add h
    obtain ⟨-, ⟨hk, hkeys⟩, hactive, -⟩ := add_ok h
    refine ⟨fun row hrow _ => ?_, fun row hrow => ?_, fun hu => .inl ?_⟩
    · rw [hkeys]
      exact mem_insertRow.mpr (.inr hrow)
    · rw [hkeys] at hrow
      rcases mem_insertRow.mp hrow with rfl | hrow
      · exact .inr rfl
      · exact .inl hrow
    · rw [hactive, hkids]
      split
      · exact .inl rfl
      next hne => exact .inr (hu.resolve_right fun hn => hne hn.2)
  | setActive kid =>
    obtain ⟨hmem, h⟩ := then_ok h
    cases h
    exact ⟨fun _ hrow _ => hrow, fun _ => .inl, fun _ => .inl hmem⟩
  | remove kid =>
    obtain ⟨hactive, hne, hkeys, hmem⟩ := remove_ok h
    refine ⟨fun row hrow hop => (hmem row).mpr ⟨hrow, fun he => hop (he ▸ rfl)⟩,
      fun row hrow => .inl ((hmem row).mp hrow).1, fun hu => .inl ?_⟩
    -- the active key is never the one that goes
    obtain ⟨row, hrow, hkid⟩ := mem_map.mp (hu.resolve_right fun hn => hkeys hn.1)
    rw [hactive, ← hkid]
    exact mem_map_of_mem ((hmem row).mpr ⟨hrow, fun he => hne (he.symm.trans hkid)⟩)

theorem after_follows (r : Keyring) (op : RingOp) : r.Follows op (r.after op) := by
  unfold after
  cases h : r.apply op with
  | error e => exact ⟨fun _ hrow _ => hrow, fun _ => .inl, id⟩
  | ok r' => exact apply_follows h

theorem run_keeps (h : row ∈ r.keys) (hops : .remove row.kid ∉ ops) : row ∈ (r.run ops).keys := by
  induction ops generalizing r with
  | nil => exact h
  | cons op ops ih =>
    rw [mem_cons, not_or] at hops
    exact ih ((r.after_follows op).keeps row h (Ne.symm hops.1)) hops.2

theorem run_adds (h : row ∈ (r.run ops).keys) : row ∈ r.keys ∨ .add row.kid row.kek row.created ∈ ops := by
  induction ops generalizing r with
  | nil => exact .inl h
  | cons op ops ih =>
    rcases ih h with h | h
    · rcases (r.after_follows op).adds row h with h | rfl
      · exact .inl h
      · exact .inr mem_cons_self
    · exact .inr (mem_cons_of_mem _ h)

end Keyring

/-- **A keyring that has keys has an active one**, whatever calls were made. -/
theorem active_key_present (ops : List RingOp) : (newKeyring.run ops).keys = [] ∨
    (newKeyring.run ops).active ∈ (newKeyring.run ops).kids := by
  have hrun : ∀ r : Keyring, r.Usable → (r.run ops).Usable := by
    induction ops with
    | nil => exact fun _ h => h
    | cons op ops ih => exact fun r h => ih _ ((r.after_follows op).usable h)
  exact (hrun newKeyring (.inr ⟨rfl, rfl⟩)).symm.imp And.left id

/-- **What was wrapped under a key unwraps until the key is removed**, and not afterwards, as long as no key is added
with its id. -/
theorem wrapped_until_removed (hA : A.Correct) (h : kid ∈ r.kids) {nonce dek : Bytes}
    (hnonce : nonce.length = wrapNonceSize) (hdek : dek.length ≤ maxSealed) (aad : Bytes) :
    ∃ wrapped, r.wrap A nonce kid dek aad = .ok wrapped ∧ ∀ ops, .remove kid ∉ ops →
      (r.run ops).unwrap A kid wrapped aad = .ok dek ∧ ∀ r' ops', (r.run ops).remove kid = .ok r' →
        (∀ kek created, .add kid kek created ∉ ops') →
          (r'.run ops').unwrap A kid wrapped aad = .error (wrapf .unknownKID "%w: %q" [.bytes kid]) := by
  obtain ⟨row, hrow, rfl⟩ := mem_map.mp h
  have hseal := sealKey_ok A nonce aad row.kek.property hdek
  refine ⟨_, by rw [Keyring.wrap, Keyring.lookup_of_mem hrow, ok_bind, hseal], fun ops hops => ⟨?_, ?_⟩⟩
  · rw [Keyring.unwrap, Keyring.lookup_of_mem (Keyring.run_keeps hrow hops), ok_bind, openKey_sealKey hA hnonce hseal]
  · intro r' ops' hremove hadd
    have hgone : row.kid ∉ (r'.run ops').kids := by
      intro hmem
      -- it would have been added again
      obtain ⟨x, hx, hkid⟩ := mem_map.mp hmem
      rcases Keyring.run_adds hx with hx | hx
      · exact (((Keyring.remove_ok hremove).2.2.2 x).mp hx).2 hkid
      · exact hadd _ _ (hkid ▸ hx)
    rw [Keyring.unwrap, Keyring.lookup_of_not_mem hgone]
    rfl

def twoKeys : Keyring := newKeyring.run [.add (ascii "a") (replicate 32 0) none, .add (ascii "b") (replicate 32 1) none]

/-- The second key is made active, then the first one again, and the second is removed. -/
theorem wrapped_until_removed_second : ∃ wrapped r',
    twoKeys.wrap (Aead.openAead _) (replicate 12 0) (ascii "b") [7] [] = .ok wrapped ∧
      (twoKeys.run [.setActive (ascii "b")]).unwrap (Aead.openAead _) (ascii "b") wrapped [] = .ok [7] ∧
      (twoKeys.run [.setActive (ascii "b"), .setActive (ascii "a")]).remove (ascii "b") = .ok r' ∧
      (r'.run [.add (ascii "c") (replicate 32 2) none]).unwrap (Aead.openAead _) (ascii "b") wrapped [] =
        .error (wrapf .unknownKID "%w: %q" [.bytes (ascii "b")]) := by
  obtain ⟨w, hw, h⟩ := wrapped_until_removed Aead.openAead_correct (show ascii "b" ∈ twoKeys.kids by decide +kernel)
    (show (replicate 12 0).length = 12 from rfl) (show [7].length ≤ maxSealed by decide) []
  have hok : ((twoKeys.run [.setActive (ascii "b"), .setActive (ascii "a")]).remove (ascii "b")).toOption.isSome
      = true := by decide +kernel
  cases hr : (twoKeys.run [.setActive (ascii "b"), .setActive (ascii "a")]).remove (ascii "b") with
  | error e => simp [hr, Except.toOption] at hok
  | ok r' =>
    have hc : ∀ kek created, RingOp.add (ascii "b") kek created ∉ [.add (ascii "c") (replicate 32 2) none] := by
      intro kek created hmem
      have hkid := (RingOp.add.inj (mem_singleton.mp hmem)).1
      exact absurd hkid (by decide)
    exact ⟨w, r', hw, (h _ (by simp)).1, rfl, (h _ (by simp)).2 r' _ hr hc⟩

end BlindBucket.Keys
