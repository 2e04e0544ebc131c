import BlindBucket.Lib.Reader

/-!
# Readers one after another

A chain reads pieces of one stream in turn. Each piece has a reader of its own, and the
next is opened where the one before left the stream. The chain ends with the last
piece, or with the first error that is not the `EOF` of a piece.

`Chain.releaseInv` puts the invariants of the pieces together to one of the chain.
-/

namespace ByteIo

/-- What a chain reads: how many pieces there are, and how piece `i` is opened once the
reader of the piece before has come to its end. -/
structure Pieces (ρ ε : Type) where
  count : Nat
  openNext : Nat → ρ → Except (ReadErr ε) ρ

/-- A chain, at piece `idx`. After the last piece `cur` is a reader nobody reads from. -/
structure Chain (ρ ε : Type) where
  pieces : Pieces ρ ε
  idx : Nat
  cur : ρ
  err : Option (ReadErr ε) := none

namespace Chain

variable {ρ ε : Type} [ByteReader ρ ε]

/-- The loop of `Read`. Every round but the last one opens a piece. -/
def readLoop (k : Nat) : Nat → Chain ρ ε → ReadResult (Chain ρ ε) ε
  | 0, c => ⟨[], none, c⟩
  | fuel + 1, c =>
    let q := read c.cur k
    if q.out ≠ [] then ⟨q.out, none, { c with cur := q.next }⟩
    else
      match q.err with
      | none => ⟨[], none, { c with cur := q.next }⟩
      | some .eof =>
        if c.pieces.count ≤ c.idx + 1 then
          ⟨[], some .eof, { c with idx := c.idx + 1, cur := q.next, err := some .eof }⟩
        else
          match c.pieces.openNext (c.idx + 1) q.next with
          | .error e => ⟨[], some e, { c with idx := c.idx + 1, cur := q.next, err := some e }⟩
          | .ok r => readLoop k fuel { c with idx := c.idx + 1, cur := r }
      | some e => ⟨[], some e, { c with cur := q.next, err := some e }⟩

instance : ByteReader (Chain ρ ε) ε where
  read c k :=
    match c.err with
    | some e => ⟨[], some e, c⟩
    | none => readLoop k (c.pieces.count - c.idx + 1) c

theorem read_of_err {c : Chain ρ ε} {e : ReadErr ε} (h : c.err = some e) (k : Nat) : read c k = ⟨[], some e, c⟩ := by
  show (match c.err with | some e => _ | none => _) = _
  rw [h]

theorem read_of_err_none {c : Chain ρ ε} (h : c.err = none) (k : Nat) :
    read c k = readLoop k (c.pieces.count - c.idx + 1) c := by
  show (match c.err with | some e => _ | none => _) = _
  rw [h]

theorem progress (hp : Progress ρ) : Progress (Chain ρ ε) := by
  -- a round that opens a piece leaves a round for every piece after it
  have hloop : ∀ k, 0 < k → ∀ fuel (c : Chain ρ ε), 0 < fuel → c.pieces.count ≤ c.idx + fuel →
      (readLoop k fuel c).err = none → (readLoop k fuel c).out ≠ [] := by
    intro k hk fuel
    induction fuel with
    | zero => intro c h1; omega
    | succ fuel ih =>
      intro c _ h2
      rw [readLoop]
      split
      next hout =>
        exact fun _ => hout
      next hout =>
        split
        next herr =>
          exact absurd (Decidable.not_not.mp hout) (hp c.cur k hk herr)
        · split
          · exact by simp
          next hmore =>
            split
            · exact by simp
            · exact ih { c with idx := c.idx + 1, cur := _ } (by omega)
                (by show c.pieces.count ≤ c.idx + 1 + fuel; omega)
        · exact by simp
  intro c k hk hnone
  cases he : c.err with
  | some e =>
    rw [read_of_err he] at hnone
    simp at hnone
  | none =>
    rw [read_of_err_none he] at hnone ⊢
    exact hloop k hk _ c (by omega) (by omega) hnone

variable {pieces : Pieces ρ ε} {I : Nat → ρ → Bytes → Prop}
  {Fin : Nat → ρ → ReadErr ε → Bytes → Prop} {D W : Nat → Bytes}

/-- What a chain that reads `pieces` has before it: the rest of a piece and all that follows. -/
def At (pieces : Pieces ρ ε) (I : Nat → ρ → Bytes → Prop) (W : Nat → Bytes)
    (c : Chain ρ ε) (data : Bytes) : Prop :=
  c.pieces = pieces ∧ c.err = none ∧ c.idx < pieces.count
    ∧ ∃ d, data = d ++ W (c.idx + 1) ∧ I c.idx c.cur d

/-- What is known of the chain when a read has left `rest` to be released. -/
abbrev After (pieces : Pieces ρ ε) (I : Nat → ρ → Bytes → Prop) (W : Nat → Bytes)
    (FinC : ρ → ReadErr ε → Bytes → Prop) (q : ReadResult (Chain ρ ε) ε) (rest : Bytes) : Prop :=
  match q.err with
  | none => At pieces I W q.next rest
  | some e => FinC q.next.cur e rest

/--
**From the pieces to the chain.** `D i` is what piece `i` releases and `W i` what the chain releases
from there on. Each piece has its invariant `I i`, which its reader keeps; when that reader
is at its end, the next piece can be opened with its own, or the chain fails.
-/
theorem releaseInv (FinC : ρ → ReadErr ε → Bytes → Prop)
    (htidy : ∀ (r : ρ) k, (read r k).out ≠ [] → (read r k).err = none)
    (hrel : ∀ i, i < pieces.count → ReleaseInv (I i) (Fin i))
    (hW : ∀ i, i < pieces.count → W i = D i ++ W (i + 1)) (hend : W pieces.count = [])
    (hlast : ∀ i r rest, i + 1 = pieces.count → Fin i r .eof rest → FinC r .eof rest)
    (hnext : ∀ i r rest, i + 1 < pieces.count → Fin i r .eof rest → rest = [] ∧
      match pieces.openNext (i + 1) r with
      | .ok r' => I (i + 1) r' (D (i + 1))
      | .error e => FinC r e (W (i + 1)))
    (herr : ∀ i r e rest, i < pieces.count → e ≠ .eof → Fin i r e rest →
      FinC r e (rest ++ W (i + 1))) :
    ReleaseInv (At pieces I W) (fun (c : Chain ρ ε) e rest => FinC c.cur e rest) := by
  have hloop : ∀ k fuel (c : Chain ρ ε) data, At pieces I W c data →
      ∃ rest, data = (readLoop k fuel c).out ++ rest ∧ After pieces I W FinC (readLoop k fuel c) rest := by
    intro k fuel
    induction fuel with
    | zero => intro c data h; exact ⟨data, rfl, h⟩
    | succ fuel ih =>
      intro c data ⟨hpieces, hnone, hidx, d, hdata, hI⟩
      obtain ⟨rest, hd, hstep⟩ := hrel c.idx hidx c.cur d k hI
      rw [readLoop]
      split
      · -- the piece has something to say
        rename_i hout
        rw [htidy c.cur k hout] at hstep
        refine ⟨rest ++ W (c.idx + 1), ?_, hpieces, hnone, hidx, rest, rfl, hstep⟩
        rw [hdata, hd, List.append_assoc]
      next hout =>
        rw [Decidable.not_not.mp hout, List.nil_append] at hd
        rw [hdata, hd]
        split
        next he =>
          rw [he] at hstep
          exact ⟨rest ++ W (c.idx + 1), rfl, hpieces, hnone, hidx, rest, rfl, hstep⟩
        next he =>
          rw [he] at hstep
          split
          · -- it was the last one
            rename_i hle
            rw [hpieces] at hle
            have hcount : c.idx + 1 = pieces.count := by omega
            refine ⟨rest, ?_, hlast _ _ _ hcount hstep⟩
            rw [hcount, hend, List.append_nil]
            rfl
          next hlt =>
            rw [hpieces] at hlt
            obtain ⟨rfl, hopen⟩ := hnext _ _ _ (by omega) hstep
            rw [hpieces]
            split
            next e he' =>
              rw [he'] at hopen
              exact ⟨W (c.idx + 1), rfl, hopen⟩
            next r he' =>
              rw [he'] at hopen
              exact ih { c with pieces := pieces, idx := c.idx + 1, cur := r } (W (c.idx + 1))
                ⟨rfl, hnone, by show c.idx + 1 < _; omega, D (c.idx + 1), hW _ (by omega), hopen⟩
        next e hne he =>
          rw [he] at hstep
          exact ⟨rest ++ W (c.idx + 1), rfl, herr _ _ _ _ hidx hne hstep⟩
  intro c data k h
  rw [read_of_err_none h.2.1]
  exact hloop k _ c data h

end Chain

end ByteIo
