import BlindBucket.Lib.Reader

/-!
# Limited and buffered readers

`LimitReader` is `io.LimitReader` and `Bufio` is `bufio.Reader`, both over any
lawful source and both lawful themselves. What lies beyond a limit is untouched by
reading through it (`LimitReader.beyond_steps`), which is what lets several readers
take turns on one stream.
-/

namespace ByteIo

open List

/-! ## `io.LimitReader` -/

/-- At most `left` more bytes of `src`. -/
structure LimitReader (σ : Type) where
  src : σ
  left : Nat

variable {σ ε : Type} [ByteReader σ ε]

instance : ByteReader (LimitReader σ) ε where
  read l k :=
    if l.left = 0 then ⟨[], some .eof, l⟩
    else
      let r := read l.src (min k l.left)
      ⟨r.out, r.err, ⟨r.next, l.left - r.out.length⟩⟩

variable {l : LimitReader σ}

theorem LimitReader.read_zero (h : l.left = 0) (k : Nat) : read l k = ⟨[], some .eof, l⟩ := if_pos h

theorem LimitReader.read_pos (h : l.left ≠ 0) (k : Nat) :
    read l k = ⟨(read l.src (min k l.left)).out, (read l.src (min k l.left)).err,
      ⟨(read l.src (min k l.left)).next, l.left - (read l.src (min k l.left)).out.length⟩⟩ :=
  if_neg h

section Lawful

variable [LawfulReader σ]

instance : LawfulReader (LimitReader σ) where
  content l := (content l.src).take l.left
  Ends l e := (l.left ≤ (content l.src).length ∧ e = .eof) ∨
    ((content l.src).length ≤ l.left ∧ Ends l.src e)
  idle l := idle l.src
  out_le l k := by
    by_cases h : l.left = 0
    · rw [LimitReader.read_zero h]; exact Nat.zero_le _
    · rw [LimitReader.read_pos h]
      have := LawfulReader.out_le l.src (min k l.left)
      dsimp only; omega
  content_read l k := by
    by_cases h : l.left = 0
    · rw [LimitReader.read_zero h]; rfl
    · rw [LimitReader.read_pos h]
      have hle := LawfulReader.out_le l.src (min k l.left)
      have hc := LawfulReader.content_read l.src (min k l.left)
      rw [hc, take_append, take_of_length_le (by omega)]
  ends_read l k e := by
    by_cases h : l.left = 0
    · rw [LimitReader.read_zero h]; exact id
    · rw [LimitReader.read_pos h]
      have hle := LawfulReader.out_le l.src (min k l.left)
      have hc := congrArg length (LawfulReader.content_read l.src (min k l.left))
      rw [length_append] at hc
      dsimp only
      rintro (⟨h1, h2⟩ | ⟨h1, h2⟩)
      · exact Or.inl ⟨by omega, h2⟩
      · exact Or.inr ⟨by omega, LawfulReader.ends_read _ _ e h2⟩
  err_read l k e := by
    by_cases h : l.left = 0
    · rw [LimitReader.read_zero h]
      intro he
      refine ⟨by simp [h], Or.inl ⟨by simp [h], ?_⟩⟩
      exact (Option.some.inj he).symm
    · rw [LimitReader.read_pos h]
      intro he
      obtain ⟨h1, h2⟩ := LawfulReader.err_read l.src _ e he
      refine ⟨by rw [h1]; simp, Or.inr ⟨by rw [h1]; simp, h2⟩⟩
  idle_read l k hk := by
    by_cases h : l.left = 0
    · rw [LimitReader.read_zero h]; simp
    · rw [LimitReader.read_pos h]
      exact LawfulReader.idle_read l.src _ (by omega)
  idle_lt l := LawfulReader.idle_lt l.src

theorem LimitReader.content_eq (l : LimitReader σ) : content l = (content l.src).take l.left := rfl

/-- The bytes of the source the limit keeps out of reach. -/
def LimitReader.beyond (l : LimitReader σ) : Bytes := (content l.src).drop l.left

theorem LimitReader.beyond_read (l : LimitReader σ) (k : Nat) : (read l k).next.beyond = l.beyond := by
  by_cases h : l.left = 0
  · rw [LimitReader.read_zero h]
  · rw [LimitReader.read_pos h]
    have hle := LawfulReader.out_le l.src (min k l.left)
    have hc := LawfulReader.content_read l.src (min k l.left)
    unfold LimitReader.beyond
    rw [hc, drop_append, drop_of_length_le (l := (read l.src _).out) (by omega),
      nil_append]

theorem LimitReader.beyond_steps {m : LimitReader σ} (h : Steps l m) : m.beyond = l.beyond :=
  Steps.invariant (P := fun m => m.beyond = l.beyond)
    (fun s k hs => by rw [LimitReader.beyond_read, hs]) h rfl

/-- Once the limited reader is exhausted, its source stands just past the limit. -/
theorem LimitReader.content_src_of_nil (h : content l = []) : content l.src = l.beyond := by
  unfold LimitReader.beyond
  rcases take_eq_nil_iff.mp h with h | h
  · rw [h, drop_zero]
  · rw [h, drop_nil]

end Lawful

/-! ## `bufio.Reader` -/

/-- The smallest buffer a `Bufio` has. -/
def minReadBufferSize : Nat := 16

/--
A buffered reader: `buf` was read and not handed out yet, `err` is an error the
source gave that has not been reported yet. A pending error means the source is
exhausted.
-/
structure Bufio (σ : Type) {ε : Type} [ByteReader σ ε] [LawfulReader σ] where
  rd : σ
  size : Nat
  buf : Bytes
  err : Option (ReadErr ε)
  size_ge : minReadBufferSize ≤ size
  err_wf : ∀ e, err = some e → content rd = [] ∧ Ends rd e

variable [LawfulReader σ]

def Bufio.newReaderSize (rd : σ) (size : Nat) : Bufio σ :=
  ⟨rd, max size minReadBufferSize, [], none, Nat.le_max_right _ _, by simp⟩

variable (b : Bufio σ)

/-- The reader once its source has been read and `out` kept of it. -/
def Bufio.refill (k : Nat) (out : Bytes) : Bufio σ :=
  ⟨(read b.rd k).next, b.size, out, (read b.rd k).err, b.size_ge,
    fun e he => LawfulReader.err_read b.rd k e he⟩

/-- The reader with its pending error reported. -/
def Bufio.clear : Bufio σ := ⟨b.rd, b.size, b.buf, none, b.size_ge, by simp⟩

/-- The reader with only `out` left in its buffer. -/
def Bufio.keep (out : Bytes) : Bufio σ :=
  ⟨b.rd, b.size, out, b.err, b.size_ge, b.err_wf⟩

/-- `(*bufio.Reader).Read`: a large read with an empty buffer goes straight through. -/
instance : ByteReader (Bufio σ) ε where
  read b k :=
    if k = 0 then
      if b.buf = [] then ⟨[], b.err, b.clear⟩ else ⟨[], none, b⟩
    else if b.buf = [] then
      match b.err with
      | some e => ⟨[], some e, b.clear⟩
      | none =>
        if b.size ≤ k then ⟨(read b.rd k).out, (read b.rd k).err, (b.refill k []).clear⟩
        else if (read b.rd b.size).out = [] then
          ⟨[], (read b.rd b.size).err, (b.refill b.size []).clear⟩
        else
          ⟨(read b.rd b.size).out.take k, none, b.refill b.size ((read b.rd b.size).out.drop k)⟩
    else ⟨b.buf.take k, none, b.keep (b.buf.drop k)⟩

theorem Bufio.read_cases (k : Nat) : (k = 0 ∧ b.buf = [] ∧ read b k = ⟨[], b.err, b.clear⟩)
    ∨ (k = 0 ∧ b.buf ≠ [] ∧ read b k = ⟨[], none, b⟩)
    ∨ (k ≠ 0 ∧ b.buf = [] ∧ ∃ e, b.err = some e ∧ read b k = ⟨[], some e, b.clear⟩)
    ∨ (k ≠ 0 ∧ b.buf = [] ∧ b.err = none ∧ b.size ≤ k ∧
        read b k = ⟨(read b.rd k).out, (read b.rd k).err, (b.refill k []).clear⟩)
    ∨ (k ≠ 0 ∧ b.buf = [] ∧ b.err = none ∧ (read b.rd b.size).out = [] ∧
        read b k = ⟨[], (read b.rd b.size).err, (b.refill b.size []).clear⟩)
    ∨ (k ≠ 0 ∧ b.buf = [] ∧ b.err = none ∧ (read b.rd b.size).out ≠ [] ∧
        read b k = ⟨(read b.rd b.size).out.take k, none,
          b.refill b.size ((read b.rd b.size).out.drop k)⟩)
    ∨ (k ≠ 0 ∧ b.buf ≠ [] ∧ read b k = ⟨b.buf.take k, none, b.keep (b.buf.drop k)⟩) := by
  dsimp only [read]
  by_cases hk : k = 0
  · by_cases hb : b.buf = []
    · exact .inl ⟨hk, hb, by rw [if_pos hk, if_pos hb]⟩
    · exact .inr (.inl ⟨hk, hb, by rw [if_pos hk, if_neg hb]⟩)
  · by_cases hb : b.buf = []
    · rw [if_neg hk, if_pos hb]
      cases he : b.err with
      | some e => exact .inr (.inr (.inl ⟨hk, hb, e, rfl, rfl⟩))
      | none =>
        by_cases hs : b.size ≤ k
        · exact .inr (.inr (.inr (.inl ⟨hk, hb, rfl, hs, if_pos hs⟩)))
        · rw [if_neg hs]
          by_cases ho : (read b.rd b.size).out = []
          · exact .inr (.inr (.inr (.inr (.inl ⟨hk, hb, rfl, ho, if_pos ho⟩))))
          · exact .inr (.inr (.inr (.inr (.inr (.inl ⟨hk, hb, rfl, ho, if_neg ho⟩)))))
    · exact .inr (.inr (.inr (.inr (.inr (.inr ⟨hk, hb, by rw [if_neg hk, if_neg hb]⟩)))))

instance : LawfulReader (Bufio σ) where
  content b := b.buf ++ content b.rd
  Ends b e := Ends b.rd e
  idle b := idle b.rd
  out_le b k := by
    rcases b.read_cases k with ⟨_, _, h⟩ | ⟨_, _, h⟩ | ⟨_, _, e, _, h⟩ | ⟨_, _, _, _, h⟩ |
      ⟨_, _, _, _, h⟩ | ⟨_, _, _, _, h⟩ | ⟨_, _, h⟩ <;> rw [h]
    · exact Nat.zero_le _
    · exact Nat.zero_le _
    · exact Nat.zero_le _
    · exact LawfulReader.out_le b.rd k
    · exact Nat.zero_le _
    · exact length_take_le ..
    · exact length_take_le ..
  content_read b k := by
    rcases b.read_cases k with ⟨_, _, h⟩ | ⟨_, _, h⟩ | ⟨_, _, e, _, h⟩ | ⟨_, hb, _, _, h⟩ |
      ⟨_, hb, _, ho, h⟩ | ⟨_, hb, _, _, h⟩ | ⟨_, _, h⟩ <;> rw [h]
    · rfl
    · rfl
    · rfl
    · rw [hb]; exact LawfulReader.content_read b.rd k
    · have hc := LawfulReader.content_read b.rd b.size
      rw [ho] at hc
      rw [hb]; exact hc
    · have hc := LawfulReader.content_read b.rd b.size
      rw [hb]
      show [] ++ content b.rd = (read b.rd b.size).out.take k ++
        ((read b.rd b.size).out.drop k ++ content (read b.rd b.size).next)
      rw [← append_assoc, take_append_drop]
      exact hc
    · show b.buf ++ content b.rd = b.buf.take k ++ (b.buf.drop k ++ content b.rd)
      rw [← append_assoc, take_append_drop]
  ends_read b k e := by
    rcases b.read_cases k with ⟨_, _, h⟩ | ⟨_, _, h⟩ | ⟨_, _, e, _, h⟩ | ⟨_, hb, _, _, h⟩ |
      ⟨_, hb, _, ho, h⟩ | ⟨_, hb, _, _, h⟩ | ⟨_, _, h⟩ <;> rw [h]
    · exact id
    · exact id
    · exact id
    · exact LawfulReader.ends_read b.rd k e
    · exact LawfulReader.ends_read b.rd b.size e
    · exact LawfulReader.ends_read b.rd b.size e
    · exact id
  err_read b k e := by
    rcases b.read_cases k with ⟨_, hb, h⟩ | ⟨_, _, h⟩ | ⟨_, hb, e', he', h⟩ | ⟨_, hb, _, _, h⟩ |
      ⟨_, hb, _, ho, h⟩ | ⟨_, hb, _, _, h⟩ | ⟨_, _, h⟩ <;> rw [h] <;> intro he
    · obtain ⟨h1, h2⟩ := b.err_wf e he
      exact ⟨by show b.buf ++ content b.rd = []; rw [hb, h1]; rfl, h2⟩
    · simp at he
    · obtain rfl : e' = e := Option.some.inj he
      obtain ⟨h1, h2⟩ := b.err_wf e' he'
      exact ⟨by show b.buf ++ content b.rd = []; rw [hb, h1]; rfl, h2⟩
    · exact LawfulReader.err_read b.rd k e he
    · exact LawfulReader.err_read b.rd b.size e he
    · simp at he
    · simp at he
  idle_read b k hk := by
    have hsz := b.size_ge
    unfold minReadBufferSize at hsz
    rcases b.read_cases k with ⟨h0, _⟩ | ⟨h0, _⟩ | ⟨_, _, e, _, h⟩ | ⟨_, hb, _, _, h⟩ |
      ⟨_, hb, _, ho, h⟩ | ⟨_, hb, _, ho, h⟩ | ⟨_, hb, h⟩
    · omega
    · omega
    · rw [h]; exact fun _ he => absurd he (by simp)
    · rw [h]; exact LawfulReader.idle_read b.rd k hk
    · rw [h]; exact fun _ he => LawfulReader.idle_read b.rd b.size (by omega) ho he
    · rw [h]
      intro hn
      rcases take_eq_nil_iff.mp hn with h' | h'
      · omega
      · exact absurd h' ho
    · rw [h]
      intro hn
      rcases take_eq_nil_iff.mp hn with h' | h'
      · omega
      · exact absurd h' hb
  idle_lt b := LawfulReader.idle_lt b.rd

theorem Bufio.content_eq : content b = b.buf ++ content b.rd := rfl

theorem Bufio.ends_iff (e : ReadErr ε) : Ends b e ↔ Ends b.rd e := Iff.rfl

theorem Bufio.content_newReaderSize (s : σ) (n : Nat) : content (Bufio.newReaderSize s n) = content s := rfl

theorem Bufio.rd_read (k : Nat) : Steps b.rd (read b k).next.rd := by
  rcases b.read_cases k with ⟨_, _, h⟩ | ⟨_, _, h⟩ | ⟨_, _, e, _, h⟩ | ⟨_, _, _, _, h⟩ |
    ⟨_, _, _, _, h⟩ | ⟨_, _, _, _, h⟩ | ⟨_, _, h⟩ <;> rw [h]
  · exact Steps.refl _
  · exact Steps.refl _
  · exact Steps.refl _
  · exact Steps.one _ _
  · exact Steps.one _ _
  · exact Steps.one _ _
  · exact Steps.refl _

theorem Bufio.rd_steps {b c : Bufio σ} (h : Steps b c) : Steps b.rd c.rd := by
  induction h with
  | refl => exact Steps.refl _
  | tail k _ ih => exact ih.trans (Bufio.rd_read _ k)

/-! ### Looking one byte ahead -/

/-- The loop of `fill`: read until a byte or an error arrives. -/
def Bufio.fillLoop : Nat → Bufio σ → Option (ReadErr ε) × Bufio σ
  | 0, b => (some .noProgress, b)
  | i + 1, b =>
    let r := read b.rd b.size
    if r.out = [] then
      match r.err with
      | some e => (some e, (b.refill b.size []).clear)
      | none => Bufio.fillLoop i (b.refill b.size [])
    else (none, b.refill b.size r.out)

/-- `Peek(1)`: the error it returns, if any. The bytes stay in the buffer. -/
def Bufio.peek : Option (ReadErr ε) × Bufio σ :=
  if b.buf = [] then
    match b.err with
    | some e => (some e, b.clear)
    | none => Bufio.fillLoop maxConsecutiveEmptyReads b
  else (none, b)

theorem Bufio.fillLoop_spec (i : Nat) (b : Bufio σ) (hb : b.buf = []) (hi : idle b.rd < i) :
    content (Bufio.fillLoop i b).2 = content b
      ∧ Steps b.rd (Bufio.fillLoop i b).2.rd
      ∧ ((Bufio.fillLoop i b).1 = none ↔ content b ≠ [])
      ∧ ∀ e, (Bufio.fillLoop i b).1 = some e → Ends b e := by
  have hsz := b.size_ge
  unfold minReadBufferSize at hsz
  induction i generalizing b with
  | zero => omega
  | succ i ih =>
    have hc := LawfulReader.content_read b.rd b.size
    rw [Bufio.fillLoop]
    split
    next ho =>
      rw [ho, nil_append] at hc
      split
      next e he =>
        obtain ⟨h1, h2⟩ := LawfulReader.err_read b.rd b.size e he
        rw [h1] at hc
        have hnil : content b = [] := by rw [Bufio.content_eq, hb, hc]; rfl
        refine ⟨by rw [hnil]; exact h1, Steps.one _ _, by simp [hnil], ?_⟩
        intro e' he'
        obtain rfl := Option.some.inj he'
        exact LawfulReader.ends_read b.rd b.size _ h2
      next he =>
        have hidle := LawfulReader.idle_read b.rd b.size (by omega) ho he
        obtain ⟨h1, h2, h3, h4⟩ := ih (b.refill b.size []) rfl (by
          show idle (read b.rd b.size).next < i
          omega) hsz
        have hsame : content (b.refill b.size []) = content b := by
          show [] ++ content (read b.rd b.size).next = b.buf ++ content b.rd
          rw [hb, hc]
        rw [hsame] at h1 h3
        exact ⟨h1, (Steps.one _ _).trans h2, h3,
          fun e he' => LawfulReader.ends_read b.rd b.size e (h4 e he')⟩
    next ho =>
      have hsame : content (b.refill b.size (read b.rd b.size).out) = content b := by
        show (read b.rd b.size).out ++ content (read b.rd b.size).next = b.buf ++ content b.rd
        rw [hb, ← hc]; rfl
      refine ⟨hsame, Steps.one _ _, ?_, by simp⟩
      have hne : content b ≠ [] := by
        rw [← hsame]
        exact fun h => ho (append_eq_nil_iff.mp h).1
      simp [hne]

theorem Bufio.peek_spec : content b.peek.2 = content b ∧ Steps b.rd b.peek.2.rd
      ∧ (b.peek.1 = none ↔ content b ≠ [])
      ∧ ∀ e, b.peek.1 = some e → Ends b e := by
  unfold Bufio.peek
  split
  next hb =>
    split
    next e he =>
      obtain ⟨h1, h2⟩ := b.err_wf e he
      have hnil : content b = [] := by rw [Bufio.content_eq, hb, h1]; rfl
      refine ⟨rfl, Steps.refl _, by simp [hnil], ?_⟩
      intro e' he'
      obtain rfl := Option.some.inj he'
      exact h2
    · exact Bufio.fillLoop_spec _ b hb (LawfulReader.idle_lt b.rd)
  next hb =>
    refine ⟨rfl, Steps.refl _, ?_, by simp⟩
    simp [Bufio.content_eq, hb]

end ByteIo
