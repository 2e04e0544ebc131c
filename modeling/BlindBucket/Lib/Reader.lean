import BlindBucket.Lib.Bytes
import Mathlib.Data.List.Basic
import Mathlib.Tactic.Common

/-!
# Readers

A byte source in the sense of Go's `io.Reader`. One `read` offers a buffer of some
size and gets back at most that many bytes, an error, or both; how a source cuts its
bytes into reads is its own business.

The laws say what may be relied on whatever the cuts are. A source has a *content*,
the bytes still to come, and a set of errors it may end with. A read delivers a prefix
of the content, an error comes only once the content is exhausted, and a source may
answer with nothing at all only fewer than a hundred times in a row, which is the
number `bufio` gives up at.

`readFull` is `io.ReadFull`; its two specification lemmas are all that is ever used
of it. `readMany` reads with a given sequence of buffer sizes until the first error,
and `ReleaseInv` is the induction rule for it.
-/

namespace ByteIo

open List

/-- How a read fails: the sentinels callers test for, or something else. -/
inductive ReadErr (ε : Type) where
  | eof
  | unexpectedEOF
  | noProgress
  | other (e : ε)
deriving DecidableEq, Repr

/-- What one call of `Read` returns, and the source afterwards. -/
structure ReadResult (σ ε : Type) where
  out : Bytes
  err : Option (ReadErr ε)
  next : σ

/-- A read gives an error and no bytes, or no error and what a buffer of `k` holds of some bytes. -/
def ReadResult.OneOrOther {σ ε : Type} (q : ReadResult σ ε) (k : Nat) : Prop :=
  (q.out = [] ∧ q.err ≠ none) ∨ ∃ p, p ≠ [] ∧ q.out = p.take k ∧ q.err = none

variable {k : Nat} {data : Bytes}

theorem ReadResult.OneOrOther.nonempty {σ ε : Type} {q : ReadResult σ ε} (h : q.OneOrOther k) (hk : 0 < k)
    (hnone : q.err = none) : q.out ≠ [] := by
  rcases h with ⟨_, herr⟩ | ⟨p, hp, hout, _⟩
  · exact absurd hnone herr
  · rw [hout]
    intro hnil
    rcases take_eq_nil_iff.mp hnil with h | h
    · omega
    · exact hp h

theorem ReadResult.OneOrOther.tidy {σ ε : Type} {q : ReadResult σ ε} (h : q.OneOrOther k) (hout : q.out ≠ []) :
    q.err = none := by
  rcases h with ⟨hnil, _⟩ | ⟨_, _, _, hnone⟩
  · exact absurd hnil hout
  · exact hnone


/-- Anything with a `Read` method. The number is the size of the buffer offered. -/
class ByteReader (σ : Type) (ε : outParam Type) where
  read : σ → Nat → ReadResult σ ε

export ByteReader (read)

/-- How many reads without a byte or an error `bufio` puts up with. -/
def maxConsecutiveEmptyReads : Nat := 100

/-- A source whose reads are the pieces of one byte string. -/
class LawfulReader (σ : Type) {ε : outParam Type} [ByteReader σ ε] where
  /-- The bytes still to come. -/
  content : σ → Bytes
  /-- The errors that may follow them. -/
  Ends : σ → ReadErr ε → Prop
  /-- How many more empty reads may come in a row. -/
  idle : σ → Nat
  out_le : ∀ (s : σ) (k : Nat), (read s k).out.length ≤ k
  content_read : ∀ (s : σ) (k : Nat), content s = (read s k).out ++ content (read s k).next
  ends_read : ∀ (s : σ) (k : Nat) (e : ReadErr ε), Ends (read s k).next e → Ends s e
  err_read : ∀ (s : σ) (k : Nat) (e : ReadErr ε), (read s k).err = some e →
    content (read s k).next = [] ∧ Ends (read s k).next e
  idle_read : ∀ (s : σ) (k : Nat), 0 < k → (read s k).out = [] → (read s k).err = none →
    idle (read s k).next < idle s
  idle_lt : ∀ s : σ, idle s < maxConsecutiveEmptyReads

export LawfulReader (content Ends idle)

variable {σ ε : Type} [ByteReader σ ε]

/-- `t` is what `s` becomes after some reads. -/
inductive Steps : σ → σ → Prop where
  | refl (s : σ) : Steps s s
  | tail {s t : σ} (k : Nat) : Steps s t → Steps s (read t k).next

variable {s t : σ} {J : σ → Bytes → Prop} {Gin : σ → ReadErr ε → Bytes → Prop}

theorem Steps.trans {u : σ} (h₁ : Steps s t) (h₂ : Steps t u) : Steps s u := by
  induction h₂ with
  | refl => exact h₁
  | tail k _ ih => exact Steps.tail k ih

theorem Steps.one (s : σ) (k : Nat) : Steps s (read s k).next := Steps.tail k (Steps.refl s)

theorem Steps.invariant {P : σ → Prop} (hP : ∀ s k, P s → P (read s k).next) (h : Steps s t) (hs : P s) : P t := by
  induction h with
  | refl => exact hs
  | tail k _ ih => exact hP _ k ih

theorem Steps.ends [LawfulReader σ] (h : Steps s t) {e : ReadErr ε} (he : Ends t e) : Ends s e := by
  induction h with
  | refl => exact he
  | tail k _ ih => exact ih (LawfulReader.ends_read _ k e he)

/-! ## Reading a fixed number of bytes -/

/-- The loop of `io.ReadAtLeast`: read on until `n` bytes are in or a read fails. -/
def readLoop : Nat → σ → Nat → ReadResult σ ε
  | 0, s, _ => ⟨[], none, s⟩
  | fuel + 1, s, n =>
    if n = 0 then ⟨[], none, s⟩
    else
      let r := read s n
      match r.err with
      | some e => ⟨r.out, some e, r.next⟩
      | none =>
        let t := readLoop fuel r.next (n - r.out.length)
        ⟨r.out ++ t.out, t.err, t.next⟩

/-- The error `io.ReadFull` reports for a source that failed with `e` after `out`. -/
def shortErr (out : Bytes) : ReadErr ε → ReadErr ε
  | .eof => if out.isEmpty then .eof else .unexpectedEOF
  | e => e

/--
`io.ReadFull`. The fuel is the number of reads `n` bytes can take at most, since at
least one read in a hundred brings one.
-/
def readFull (s : σ) (n : Nat) : ReadResult σ ε :=
  let r := readLoop (n * maxConsecutiveEmptyReads) s n
  ⟨r.out, if n ≤ r.out.length then none else r.err.map (shortErr r.out), r.next⟩

theorem readLoop_steps (fuel : Nat) (s : σ) (n : Nat) : Steps s (readLoop fuel s n).next := by
  induction fuel generalizing s n with
  | zero => exact Steps.refl s
  | succ fuel ih =>
    rw [readLoop]
    split
    · exact Steps.refl s
    · dsimp only
      split
      · exact Steps.one s n
      · exact (Steps.one s n).trans (ih _ _)

theorem readFull_steps (s : σ) (n : Nat) : Steps s (readFull s n).next :=
  readLoop_steps _ s n

section Lawful

variable [LawfulReader σ]

/-- With enough fuel, the loop stops at `n` bytes or at the end of the content. -/
theorem readLoop_spec (fuel : Nat) (s : σ) (n : Nat) (hf : n = 0 ∨ (n - 1) * maxConsecutiveEmptyReads + idle s < fuel) :
    (readLoop fuel s n).out = (content s).take n
      ∧ content (readLoop fuel s n).next = (content s).drop n
      ∧ ((content s).length < n → ∃ e, (readLoop fuel s n).err = some e ∧ Ends s e) := by
  induction fuel generalizing s n with
  | zero =>
    rcases hf with rfl | h
    · simp [readLoop]
    · omega
  | succ fuel ih =>
    rw [readLoop]
    split
    next hn =>
      subst hn
      simp
    next hn =>
      have hle := LawfulReader.out_le s n
      have hc := LawfulReader.content_read s n
      dsimp only
      split
      next e he =>
        obtain ⟨hnil, hend⟩ := LawfulReader.err_read s n e he
        rw [hnil, append_nil] at hc
        refine ⟨?_, ?_, fun _ => ⟨e, rfl, LawfulReader.ends_read s n e hend⟩⟩
        · rw [hc, take_of_length_le hle]
        · rw [hnil, hc, drop_of_length_le hle]
      next he =>
        -- a byte arrived, or one of the few empty reads was used up
        have hfuel : n - (read s n).out.length = 0 ∨ (n - (read s n).out.length - 1) * maxConsecutiveEmptyReads
              + idle (read s n).next < fuel := by
          rcases hf with h0 | hf
          · exact absurd h0 hn
          rcases Nat.eq_zero_or_pos (read s n).out.length with h0 | hpos
          · have hidle := LawfulReader.idle_read s n (Nat.pos_of_ne_zero hn) (length_eq_zero_iff.mp h0) he
            rw [h0, Nat.sub_zero]
            omega
          · rcases Nat.eq_zero_or_pos (n - (read s n).out.length) with h1 | h1
            · exact Or.inl h1
            · have hlt := LawfulReader.idle_lt (read s n).next
              have hmul : (n - (read s n).out.length - 1 + 1) * maxConsecutiveEmptyReads
                  ≤ (n - 1) * maxConsecutiveEmptyReads :=
                Nat.mul_le_mul_right _ (by omega)
              rw [Nat.add_mul] at hmul
              omega
        obtain ⟨h1, h2, h3⟩ := ih (read s n).next (n - (read s n).out.length) hfuel
        refine ⟨?_, ?_, ?_⟩
        · rw [h1, hc, take_append, take_of_length_le hle]
        · rw [h2, hc, drop_append, drop_of_length_le hle, nil_append]
        · intro hshort
          rw [hc, length_append] at hshort
          obtain ⟨e, h4, h5⟩ := h3 (by omega)
          exact ⟨e, h4, LawfulReader.ends_read s n e h5⟩

theorem readFull_loop_spec (s : σ) (n : Nat) : (readFull s n).out = (content s).take n
      ∧ content (readFull s n).next = (content s).drop n
      ∧ ((content s).length < n → ∃ e, (readLoop (n * maxConsecutiveEmptyReads) s n).err = some e ∧ Ends s e) := by
  refine readLoop_spec _ s n ?_
  rcases Nat.eq_zero_or_pos n with h | h
  · exact Or.inl h
  · have hlt := LawfulReader.idle_lt s
    obtain ⟨m, rfl⟩ : ∃ m, n = m + 1 := ⟨n - 1, by omega⟩
    rw [Nat.add_sub_cancel, Nat.add_mul]
    omega

theorem readFull_out (s : σ) (n : Nat) : (readFull s n).out = (content s).take n :=
  (readFull_loop_spec s n).1

theorem readFull_content (s : σ) (n : Nat) :
    content (readFull s n).next = (content s).drop n := (readFull_loop_spec s n).2.1

variable {n : Nat}

theorem readFull_err_none (h : n ≤ (content s).length) : (readFull s n).err = none := by
  have hout := readFull_out s n
  have hlen : n ≤ (readFull s n).out.length := by rw [hout, length_take]; omega
  unfold readFull at hlen ⊢
  dsimp only at hlen ⊢
  rw [if_pos hlen]

theorem readFull_err_some (h : (content s).length < n) :
    ∃ e, (readFull s n).err = some (shortErr (content s) e) ∧ Ends s e := by
  obtain ⟨hout, _, h3⟩ := readFull_loop_spec s n
  obtain ⟨e, he, hend⟩ := h3 h
  have hall : (readFull s n).out = content s := by
    rw [hout, take_of_length_le (Nat.le_of_lt h)]
  refine ⟨e, ?_, hend⟩
  rw [← hall]
  unfold readFull at hall ⊢
  dsimp only at hall ⊢
  rw [if_neg (by rw [hall]; omega), he]
  rfl

end Lawful

/-! ## Whole runs of reads -/

/-- Read with these buffer sizes, one after another, until a read fails. -/
def readMany : σ → List Nat → ReadResult σ ε
  | s, [] => ⟨[], none, s⟩
  | s, k :: ks =>
    let r := read s k
    match r.err with
    | some e => ⟨r.out, some e, r.next⟩
    | none =>
      let t := readMany r.next ks
      ⟨r.out ++ t.out, t.err, t.next⟩

/-- A reader that is another one in a wrapping reads the same. -/
theorem readMany_wrapped {ρ : Type} [ByteReader ρ ε] (f : ρ → σ)
    (h : ∀ r k, read (f r) k = ⟨(read r k).out, (read r k).err, f (read r k).next⟩) (ks : List Nat) :
    ∀ r : ρ, (readMany (f r) ks).out = (readMany r ks).out
      ∧ (readMany (f r) ks).err = (readMany r ks).err := by
  induction ks with
  | nil => intro r; exact ⟨rfl, rfl⟩
  | cons k ks ih =>
    intro r
    obtain ⟨h1, h2⟩ := ih (read r k).next
    unfold readMany
    rw [h r k]
    dsimp only
    cases (read r k).err with
    | some e => exact ⟨rfl, rfl⟩
    | none => exact ⟨by dsimp only; rw [h1], h2⟩

/--
`I s data` says that `s` releases nothing but a prefix of `data`, and `Fin s e rest`
what is known of the source `s` that has just failed with `e` while `rest` was not
released. The invariant has to hold over one read.
-/
def ReleaseInv (I : σ → Bytes → Prop) (Fin : σ → ReadErr ε → Bytes → Prop) : Prop :=
  ∀ s data k, I s data → ∃ rest, data = (read s k).out ++ rest ∧
    match (read s k).err with
    | none => I (read s k).next rest
    | some e => Fin (read s k).next e rest

variable {Fin : σ → ReadErr ε → Bytes → Prop}

variable {I : σ → Bytes → Prop}

theorem ReleaseInv.readMany (h : ReleaseInv I Fin) (ks : List Nat) : ∀ {s : σ} {data : Bytes}, I s data →
      ∃ rest, data = (readMany s ks).out ++ rest ∧
        match (readMany s ks).err with
        | none => I (readMany s ks).next rest
        | some e => Fin (readMany s ks).next e rest := by
  induction ks with
  | nil => intro s data hI; exact ⟨data, by simp [ByteIo.readMany], by simpa [ByteIo.readMany]⟩
  | cons k ks ih =>
    intro s data hI
    obtain ⟨rest, hdata, hstep⟩ := h s data k hI
    rw [ByteIo.readMany]
    split
    next e he =>
      rw [he] at hstep
      exact ⟨rest, hdata, hstep⟩
    next he =>
      rw [he] at hstep
      obtain ⟨rest', hrest, hrun⟩ := ih hstep
      exact ⟨rest', by rw [append_assoc, ← hrest]; exact hdata, hrun⟩

/-- Two invariants at once. What is not released yet is the same for both. -/
theorem ReleaseInv.and (h₁ : ReleaseInv I Fin) (h₂ : ReleaseInv J Gin) :
    ReleaseInv (fun s data => I s data ∧ J s data) (fun s e rest => Fin s e rest ∧ Gin s e rest) := by
  intro s data k ⟨hI, hJ⟩
  obtain ⟨rest, hdata, hstep⟩ := h₁ s data k hI
  obtain ⟨rest', hdata', hstep'⟩ := h₂ s data k hJ
  obtain rfl := append_cancel_left (hdata.symm.trans hdata')
  refine ⟨rest, hdata, ?_⟩
  split
  next he =>
    rw [he] at hstep hstep'
    exact ⟨hstep, hstep'⟩
  next e he =>
    rw [he] at hstep hstep'
    exact ⟨hstep, hstep'⟩

theorem ReleaseInv.or (h₁ : ReleaseInv I Fin) (h₂ : ReleaseInv J Fin) :
    ReleaseInv (fun s data => I s data ∨ J s data) Fin := by
  intro s data k h
  rcases h with h | h
  · obtain ⟨rest, hdata, hstep⟩ := h₁ s data k h
    refine ⟨rest, hdata, ?_⟩
    split
    next he =>
      rw [he] at hstep
      exact Or.inl hstep
    next e he =>
      rw [he] at hstep
      exact hstep
  · obtain ⟨rest, hdata, hstep⟩ := h₂ s data k h
    refine ⟨rest, hdata, ?_⟩
    split
    next he =>
      rw [he] at hstep
      exact Or.inr hstep
    next e he =>
      rw [he] at hstep
      exact hstep

theorem ReleaseInv.mono (h : ReleaseInv I Fin) (hFin : ∀ s e rest, Fin s e rest → Gin s e rest) : ReleaseInv I Gin := by
  intro s data k hI
  obtain ⟨rest, hdata, hstep⟩ := h s data k hI
  refine ⟨rest, hdata, ?_⟩
  split
  next he =>
    rw [he] at hstep
    exact hstep
  next e he =>
    rw [he] at hstep
    exact hFin _ _ _ hstep

theorem ReleaseInv.param {ι : Type} {P : ι → Prop} {I : ι → σ → Bytes → Prop}
    {Fin : ι → σ → ReadErr ε → Bytes → Prop} (h : ∀ x, P x → ReleaseInv (I x) (Fin x)) :
    ReleaseInv (fun s data => ∃ x, P x ∧ I x s data) (fun s e rest => ∃ x, P x ∧ Fin x s e rest) := by
  intro s data k ⟨x, hx, hI⟩
  obtain ⟨rest, hdata, hstep⟩ := h x hx s data k hI
  refine ⟨rest, hdata, ?_⟩
  split
  next he =>
    rw [he] at hstep
    exact ⟨x, hx, hstep⟩
  next e he =>
    rw [he] at hstep
    exact ⟨x, hx, hstep⟩

/-- `I s out` holds of a reader that has released `out` so far, and `Fin s e out` of one that has
then failed with `e`. The invariant has to hold over one read. -/
def SoFarInv (I : σ → Bytes → Prop) (Fin : σ → ReadErr ε → Bytes → Prop) : Prop :=
  ∀ s out k, I s out →
    match (read s k).err with
    | none => I (read s k).next (out ++ (read s k).out)
    | some e => Fin (read s k).next e (out ++ (read s k).out)

theorem SoFarInv.readMany (h : SoFarInv I Fin) (ks : List Nat) : ∀ {s : σ} {out : Bytes}, I s out →
      match (readMany s ks).err with
      | none => I (readMany s ks).next (out ++ (readMany s ks).out)
      | some e => Fin (readMany s ks).next e (out ++ (readMany s ks).out) := by
  induction ks with
  | nil => intro s out hI; simpa [ByteIo.readMany]
  | cons k ks ih =>
    intro s out hI
    have hstep := h s out k hI
    rw [ByteIo.readMany]
    split at hstep
    next he =>
      rw [he]
      rw [← append_assoc]
      exact ih hstep
    next e he =>
      rw [he]
      exact hstep

/-- A reader that answers a non-empty buffer with bytes or with an error. -/
def Progress (σ : Type) [ByteReader σ ε] : Prop :=
  ∀ (s : σ) (k : Nat), 0 < k → (read s k).err = none → (read s k).out ≠ []

/-- With more non-empty buffers than bytes to release, the run reaches an error. -/
theorem ReleaseInv.terminates (h : ReleaseInv I Fin) (hp : Progress σ) (ks : List Nat) :
    ∀ {s : σ} {data : Bytes}, I s data → data.length < (ks.filter (0 < ·)).length →
      (ByteIo.readMany s ks).err ≠ none := by
  induction ks with
  | nil => intro s data _ hlen; simp at hlen
  | cons k ks ih =>
    intro s data hI hlen
    obtain ⟨rest, hdata, hstep⟩ := h s data k hI
    have hsum := congrArg length hdata
    rw [length_append] at hsum
    rw [ByteIo.readMany]
    split
    · simp
    next he =>
      rw [he] at hstep
      refine ih hstep ?_
      -- an empty buffer uses up no byte, any other at least one
      rcases Nat.eq_zero_or_pos k with rfl | hk
      · rw [filter_cons_of_neg (by simp)] at hlen
        omega
      · rw [filter_cons_of_pos (by simpa using hk), length_cons] at hlen
        have hpos : 0 < (read s k).out.length := length_pos_iff.mpr (hp s k hk he)
        omega

/-- **A reader that never stops early is read to its end**, whatever the buffers. -/
theorem ReleaseInv.reads_all (h : ReleaseInv I Fin) (hp : Progress σ) (hend : ∀ s e rest, Fin s e rest → e = .eof ∧ rest = [])
    (hI : I s data) (ks : List Nat) : (ByteIo.readMany s ks).out <+: data
      ∧ (∀ e, (ByteIo.readMany s ks).err = some e → e = .eof ∧ (ByteIo.readMany s ks).out = data
          ∧ Fin (ByteIo.readMany s ks).next e [])
      ∧ (data.length < (ks.filter (0 < ·)).length → (ByteIo.readMany s ks).err = some .eof) := by
  obtain ⟨rest, hdata, hrun⟩ := h.readMany ks hI
  have hstop : ∀ e, (ByteIo.readMany s ks).err = some e → e = .eof ∧ (ByteIo.readMany s ks).out = data
      ∧ Fin (ByteIo.readMany s ks).next e [] := by
    intro e he
    rw [he] at hrun
    obtain ⟨heof, rfl⟩ := hend _ _ _ hrun
    rw [append_nil] at hdata
    exact ⟨heof, hdata.symm, hrun⟩
  refine ⟨⟨rest, hdata.symm⟩, hstop, fun hlen => ?_⟩
  obtain ⟨e, he⟩ := Option.ne_none_iff_exists'.mp (h.terminates hp ks hI hlen)
  rw [he, (hstop e he).1]

theorem ReleaseInv.to_end (h : ReleaseInv I Fin) (hp : Progress σ) (hI : I s data) :
    ∃ ks e rest, (ByteIo.readMany s ks).err = some e ∧ data = (ByteIo.readMany s ks).out ++ rest
      ∧ Fin (ByteIo.readMany s ks).next e rest := by
  have hlong : data.length < ((replicate (data.length + 1) 1).filter (0 < ·)).length := by
    rw [filter_eq_self.mpr (fun k hk => by rw [eq_of_mem_replicate hk]; rfl),
      length_replicate]
    omega
  obtain ⟨e, he⟩ := Option.ne_none_iff_exists'.mp (h.terminates hp _ hI hlong)
  obtain ⟨rest, hdata, hrun⟩ := h.readMany (replicate (data.length + 1) 1) hI
  rw [he] at hrun
  exact ⟨_, e, rest, he, hdata, hrun⟩

/-! ## Bytes in memory -/

/-- `bytes.Reader`, except that what follows the bytes may be any error. -/
structure BytesReader (ε : Type) where
  bytes : Bytes
  ending : ReadErr ε := .eof

variable {ε : Type}

instance : ByteReader (BytesReader ε) ε where
  read b k :=
    if b.bytes = [] then ⟨[], some b.ending, b⟩
    else ⟨b.bytes.take k, none, { b with bytes := b.bytes.drop k }⟩

variable {b : BytesReader ε}

theorem BytesReader.read_nil (h : b.bytes = []) (k : Nat) : read b k = ⟨[], some b.ending, b⟩ := if_pos h

theorem BytesReader.read_cons (h : b.bytes ≠ []) (k : Nat) :
    read b k = ⟨b.bytes.take k, none, { b with bytes := b.bytes.drop k }⟩ := if_neg h

instance : LawfulReader (BytesReader ε) where
  content b := b.bytes
  Ends b e := e = b.ending
  idle _ := 0
  out_le b k := by
    by_cases h : b.bytes = []
    · rw [BytesReader.read_nil h]; exact Nat.zero_le _
    · rw [BytesReader.read_cons h]; exact length_take_le ..
  content_read b k := by
    by_cases h : b.bytes = []
    · rw [BytesReader.read_nil h]; rfl
    · rw [BytesReader.read_cons h]; exact (take_append_drop k b.bytes).symm
  ends_read b k e := by
    by_cases h : b.bytes = []
    · rw [BytesReader.read_nil h]; exact id
    · rw [BytesReader.read_cons h]; exact id
  err_read b k e := by
    by_cases h : b.bytes = []
    · rw [BytesReader.read_nil h]
      intro he
      exact ⟨h, (Option.some.inj he).symm⟩
    · rw [BytesReader.read_cons h]
      intro he
      simp at he
  idle_read b k hk := by
    by_cases h : b.bytes = []
    · rw [BytesReader.read_nil h]
      intro _ he
      simp at he
    · rw [BytesReader.read_cons h]
      intro hnil
      rcases take_eq_nil_iff.mp hnil with h' | h'
      · omega
      · exact absurd h' h
  idle_lt _ := by decide

end ByteIo
