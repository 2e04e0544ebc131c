import Mathlib.Data.List.Induction
import Mathlib.Data.Set.Function

/-!
# Chains of signatures

A signer protects a sequence of pieces by signing, for each of them, a string made of the
signature before it and the piece. The first signature is of a string of its own, the root.

A verifier sees pieces with signatures that fit together. If every string it accepts is one
the signer has signed in some chain, and no two strings signed have one signature, then the
pieces are the beginning of a chain that was signed from that root: a signature already
names everything before it.
-/

namespace SignedChain

open List

variable {Str Sig Data : Type}

/-- A chain: its root, the string that is signed for a piece after a signature, and the pieces
that were signed. -/
structure Chain (Str Sig Data : Type) where
  root : Str
  link : Sig → Data → Str
  sent : List Data

variable {sign : Str → Sig} {L : Set (Chain Str Sig Data)} {b b' : Chain Str Sig Data}

/-- The signature after the pieces `ds`. -/
def Chain.after (sign : Str → Sig) (b : Chain Str Sig Data) (ds : List Data) : Sig :=
  ds.foldl (fun s d => sign (b.link s d)) (sign b.root)

theorem Chain.after_concat (b : Chain Str Sig Data) (ds : List Data) (d : Data) :
    b.after sign (ds ++ [d]) = sign (b.link (b.after sign ds) d) := by
  unfold Chain.after
  rw [foldl_append]
  rfl

/-- The strings signed for the pieces of a chain. -/
def Chain.Links (sign : Str → Sig) (b : Chain Str Sig Data) (s : Str) : Prop :=
  ∃ ds d, ds ++ [d] <+: b.sent ∧ s = b.link (b.after sign ds) d

/-- The strings that were signed in the chains of `L`. -/
def Signed (sign : Str → Sig) (L : Set (Chain Str Sig Data)) : Set Str :=
  {s | ∃ b ∈ L, s = b.root ∨ b.Links sign s}

/-- What a set of chains needs so that a signature names everything before it. -/
structure Distinct (sign : Str → Sig) (L : Set (Chain Str Sig Data)) : Prop where
  /-- No two signed strings have the same signature. -/
  inj : Set.InjOn sign (Signed sign L)
  /-- A root is no string that is signed for a piece. -/
  root_ne_link : ∀ b ∈ L, ∀ b' ∈ L, ∀ s d, b.root ≠ b'.link s d
  /-- The string for a piece shows the signature before it. -/
  link_sig : ∀ b ∈ L, ∀ b' ∈ L, ∀ s d s' d', b.link s d = b'.link s' d' → s = s'

/-- Pieces that come with strings which were all signed. -/
def Accepted (sign : Str → Sig) (L : Set (Chain Str Sig Data)) (b : Chain Str Sig Data) (got : List Data) : Prop :=
  ∀ ds d, ds ++ [d] <+: got → ∃ b' ∈ L, b'.Links sign (b.link (b.after sign ds) d)

/-- No piece of `got` stands for another one that was signed. -/
def Genuine (L : Set (Chain Str Sig Data)) (b : Chain Str Sig Data) (got : List Data) : Prop :=
  ∀ d ∈ got, ∀ b' ∈ L, ∀ d' ∈ b'.sent, ∀ s s', b.link s d = b'.link s' d' → d = d'

theorem signed_root (hb : b ∈ L) : b.root ∈ Signed sign L := ⟨b, hb, .inl rfl⟩

theorem signed_link (hb : b ∈ L) {s : Str} (h : b.Links sign s) : s ∈ Signed sign L :=
  ⟨b, hb, .inr h⟩

variable {got : List Data}

theorem Accepted.begins {e : List Data} (h : Accepted sign L b got) (he : e <+: got) :
    Accepted sign L b e := fun ds d hds => h ds d (hds.trans he)

/-- **A signature names what was signed before it**, back to the root. -/
theorem Distinct.after_inj (h : Distinct sign L) (hb : b ∈ L) (hb' : b' ∈ L) {ds : List Data}
    (hacc : Accepted sign L b got) (hgen : Genuine L b got) (hds : ds <+: b'.sent)
    (heq : b.after sign got = b'.after sign ds) : b.root = b'.root ∧ got = ds := by
  induction got using List.reverseRecOn generalizing ds with
  | nil =>
    rcases eq_nil_or_concat ds with rfl | ⟨e', d', rfl⟩
    · exact ⟨h.inj (signed_root hb) (signed_root hb') heq, rfl⟩
    · rw [concat_eq_append] at heq hds
      rw [Chain.after_concat] at heq
      have hroot := h.inj (signed_root hb) (signed_link hb' ⟨e', d', hds, rfl⟩) heq
      exact absurd hroot (h.root_ne_link b hb b' hb' _ _)
  | append_singleton e d ih =>
    rw [Chain.after_concat] at heq
    obtain ⟨b₁, hb₁, hlinks⟩ := hacc e d (prefix_refl _)
    rcases eq_nil_or_concat ds with rfl | ⟨e', d', rfl⟩
    · have hroot := h.inj (signed_link hb₁ hlinks) (signed_root hb') heq
      exact absurd hroot.symm (h.root_ne_link b' hb' b hb _ _)
    · rw [concat_eq_append] at heq hds ⊢
      rw [Chain.after_concat] at heq
      have hlink := h.inj (signed_link hb₁ hlinks) (signed_link hb' ⟨e', d', hds, rfl⟩) heq
      have hsig := h.link_sig b hb b' hb' _ _ _ _ hlink
      obtain ⟨hroot, rfl⟩ := ih (hacc.begins (prefix_append e [d]))
        (fun x hx => hgen x (mem_append_left _ hx))
        ((prefix_append e' [d']).trans hds) hsig
      have hd := hgen d (mem_append_right _ (mem_singleton.mpr rfl)) b' hb' d'
        (hds.subset (mem_append_right _ (mem_singleton.mpr rfl))) _ _ hlink
      exact ⟨hroot, by rw [hd]⟩

/-- **Pieces whose strings were all signed are the beginning of a chain that was signed** from the
same root, if no piece stands for another in the string that is signed. -/
theorem Distinct.exists_chain (h : Distinct sign L) (hb : b ∈ L) (hacc : Accepted sign L b got) (hgen : Genuine L b got) :
    ∃ b' ∈ L, b'.root = b.root ∧ got <+: b'.sent := by
  rcases eq_nil_or_concat got with rfl | ⟨e, d, rfl⟩
  · exact ⟨b, hb, rfl, nil_prefix⟩
  · rw [concat_eq_append] at hacc hgen ⊢
    obtain ⟨b', hb', ds, d', hds, hlink⟩ := hacc e d (prefix_refl _)
    have hsig := h.link_sig b hb b' hb' _ _ _ _ hlink
    obtain ⟨hroot, rfl⟩ := h.after_inj hb hb' (hacc.begins (prefix_append e [d]))
      (fun x hx => hgen x (mem_append_left _ hx)) ((prefix_append ds [d']).trans hds) hsig
    have hd := hgen d (mem_append_right _ (mem_singleton.mpr rfl)) b' hb' d'
      (hds.subset (mem_append_right _ (mem_singleton.mpr rfl))) _ _ hlink
    exact ⟨b', hb', hroot.symm, by rw [hd]; exact hds⟩

end SignedChain
