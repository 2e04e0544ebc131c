import BlindBucket.Lib.Buffered
import BlindBucket.Lib.GoText

/-!
# Reading a line

`(*bufio.Reader).ReadString`: read up to a delimiter, however long that takes. What it
returns is said in terms of the content of the source alone, so that a parser of lines
can be reasoned about as a function of the bytes it is given.
-/

namespace ByteIo

open GoText List

variable {σ ε : Type} [ByteReader σ ε] [LawfulReader σ]

/-- The loop of `ReadString`: look for the delimiter in what is buffered, or take all of it and
fill the buffer again. -/
def Bufio.readStringLoop (delim : UInt8) : Nat → Bufio σ → ReadResult (Bufio σ) ε
  | 0, b => ⟨[], some .noProgress, b⟩
  | n + 1, b =>
    match b.peek with
    | (some e, b) => ⟨[], some e, b⟩
    | (none, b) =>
      match cut delim b.buf with
      | some (line, rest) => ⟨line ++ [delim], none, b.keep rest⟩
      | none =>
        let r := Bufio.readStringLoop delim n (b.keep [])
        ⟨b.buf ++ r.out, r.err, r.next⟩

/-- `ReadString`. Every turn of the loop takes a byte, so the fuel is what is left to read. -/
def Bufio.readString (b : Bufio σ) (delim : UInt8) : ReadResult (Bufio σ) ε :=
  Bufio.readStringLoop delim ((content b).length + 1) b

/-- What reading up to `delim` returns, by whether the delimiter is still to come. -/
structure ReadsTo (delim : UInt8) (b : Bufio σ) (r : ReadResult (Bufio σ) ε) : Prop where
  found : ∀ line rest, cut delim (content b) = some (line, rest) →
    r.out = line ++ [delim] ∧ r.err = none ∧ content r.next = rest
  missing : cut delim (content b) = none →
    r.out = content b ∧ content r.next = [] ∧ ∃ e, r.err = some e ∧ Ends b e
  ends : ∀ e, Ends r.next e → Ends b e

theorem Bufio.peek_buf {b : Bufio σ} (h : b.peek.1 = none) : b.peek.2.buf ≠ [] := by
  have key : ∀ (i : Nat) (b : Bufio σ), (Bufio.fillLoop i b).1 = none → (Bufio.fillLoop i b).2.buf ≠ [] := by
    intro i
    induction i with
    | zero => intro b h; simp [Bufio.fillLoop] at h
    | succ i ih =>
      intro b h
      rw [Bufio.fillLoop] at h ⊢
      split at h
      next ho =>
        rw [if_pos ho]
        split at h
        · simp at h
        · exact ih _ h
      next ho =>
        rw [if_neg ho]
        exact ho
  unfold Bufio.peek at h ⊢
  split at h
  next hb =>
    rw [if_pos hb]
    split at h
    · simp at h
    · exact key _ _ h
  next hb =>
    rw [if_neg hb]
    exact hb

theorem Bufio.readStringLoop_spec (delim : UInt8) (n : Nat) (b : Bufio σ)
    (hn : (content b).length < n) : ReadsTo delim b (Bufio.readStringLoop delim n b) := by
  induction n generalizing b with
  | zero => omega
  | succ n ih =>
    obtain ⟨hc, hsteps, hnone, hends⟩ := b.peek_spec
    have hend : ∀ e, Ends b.peek.2 e → Ends b e := fun e he => hsteps.ends he
    rw [Bufio.readStringLoop]
    split
    next e b' hp =>
      rw [hp] at hc hnone hends hend
      have hnil : content b = [] := by
        by_contra hne
        exact absurd (hnone.mpr hne) (by simp)
      refine ⟨?_, fun _ => ⟨hnil.symm, hc.trans hnil, e, rfl, hends e rfl⟩, hend⟩
      intro line rest hcut
      rw [hnil] at hcut
      simp [cut] at hcut
    next b' hp =>
      have hbuf : b'.buf ≠ [] := by
        have := Bufio.peek_buf (by rw [hp])
        rwa [hp] at this
      rw [hp] at hc hend
      rw [Bufio.content_eq b'] at hc
      split
      next line rest hcut =>
        -- the delimiter is in the buffer
        obtain ⟨hb, hm⟩ := cut_eq_some hcut
        have hwhole : cut delim (content b) = some (line, rest ++ content b'.rd) := by
          rw [← hc, hb, append_assoc, cons_append, cut_append hm]
        refine ⟨?_, ?_, hend⟩
        · intro line' rest' h'
          rw [hwhole] at h'
          cases h'
          exact ⟨rfl, rfl, rfl⟩
        · intro h'
          rw [hwhole] at h'
          simp at h'
      next hcut =>
        -- the whole buffer belongs to the line
        have hkeep : content (b'.keep []) = content b'.rd := rfl
        have hlen : (content (b'.keep [])).length < n := by
          have hpos := length_pos_iff.mpr hbuf
          rw [← hc, length_append] at hn
          rw [hkeep]
          omega
        obtain ⟨hf, hmiss, he⟩ := ih (b'.keep []) hlen
        rw [hkeep] at hf hmiss
        have hcb : cut delim (content b) = (cut delim (content b'.rd)).map fun q => (b'.buf ++ q.1, q.2) := by
          rw [← hc, cut_append_left (cut_eq_none.mp hcut)]
        refine ⟨?_, ?_, fun e h => hend e (he e h)⟩
        · intro line rest h
          rw [hcb] at h
          obtain ⟨⟨l, t⟩, hq, heq⟩ := Option.map_eq_some_iff.mp h
          cases heq
          obtain ⟨h1, h2, h3⟩ := hf l t hq
          exact ⟨by dsimp only; rw [h1, append_assoc], h2, h3⟩
        · intro h
          rw [hcb, Option.map_eq_none_iff] at h
          obtain ⟨h1, h2, e, h3, h4⟩ := hmiss h
          exact ⟨by dsimp only; rw [h1, hc], h2, e, h3, hend e h4⟩

/-- **`ReadString` returns the content up to and with the delimiter, or all of it.** -/
theorem Bufio.readString_spec (b : Bufio σ) (delim : UInt8) : ReadsTo delim b (b.readString delim) :=
  Bufio.readStringLoop_spec delim _ b (Nat.lt_succ_self _)

end ByteIo
