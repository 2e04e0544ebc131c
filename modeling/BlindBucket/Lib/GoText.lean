import BlindBucket.Lib.Bytes
import Mathlib.Data.List.Basic
import Mathlib.Algebra.Order.Ring.Nat

/-!
# Text as the Go standard library reads it

A string is its bytes. These are the functions of `strings` and `strconv` that a
protocol in ASCII is read with, on byte strings that need not be ASCII, nor UTF-8.
-/

namespace GoText

open List Option

/-- Texts are compared byte by byte. -/
instance lawfulBEq_bytes : LawfulBEq Bytes := inferInstance

/-- The bytes of a text that is ASCII. -/
def ascii (s : String) : Bytes := s.toList.map fun c => UInt8.ofNat c.toNat

/-! ## Trimming -/

/-- The encodings of the runes for which `unicode.IsSpace` holds. -/
def spaces : List Bytes :=
  [[0x09], [0x0A], [0x0B], [0x0C], [0x0D], [0x20], [0xC2, 0x85], [0xC2, 0xA0],
   [0xE1, 0x9A, 0x80],
   [0xE2, 0x80, 0x80], [0xE2, 0x80, 0x81], [0xE2, 0x80, 0x82], [0xE2, 0x80, 0x83],
   [0xE2, 0x80, 0x84], [0xE2, 0x80, 0x85], [0xE2, 0x80, 0x86], [0xE2, 0x80, 0x87],
   [0xE2, 0x80, 0x88], [0xE2, 0x80, 0x89], [0xE2, 0x80, 0x8A],
   [0xE2, 0x80, 0xA8], [0xE2, 0x80, 0xA9], [0xE2, 0x80, 0xAF], [0xE2, 0x81, 0x9F],
   [0xE3, 0x80, 0x80]]

/-- What follows the first of the words that `s` begins with. -/
def dropWord (words : List Bytes) (s : Bytes) : Option Bytes :=
  words.findSome? fun w => if w.isPrefixOf s then some (s.drop w.length) else none

/-- `s` without the words it begins with. Every word taken off is one byte long at least. -/
def dropWords (words : List Bytes) : Nat → Bytes → Bytes
  | 0, s => s
  | fuel + 1, s =>
    match dropWord words s with
    | some rest => dropWords words fuel rest
    | none => s

def trimSpace (s : Bytes) : Bytes :=
  let s := dropWords spaces s.length s
  (dropWords (spaces.map reverse) s.length s.reverse).reverse

/-- The printable bytes of ASCII other than the blank. -/
def Graphic (b : UInt8) : Prop := 0x21 ≤ b ∧ b ≤ 0x7E

variable {s : Bytes}

variable {words as bs ts : List Bytes} {t p a : Bytes} {b c : UInt8} {acc n i : Nat}

/-- No word starts with a printable byte, so there is nothing to take off. -/
theorem dropWord_graphic (hwords : ∀ w ∈ words, ∃ b t, w = b :: t ∧ ¬ Graphic b) (hs : ∀ b ∈ s, Graphic b) :
    dropWord words s = none := by
  unfold dropWord
  rw [findSome?_eq_none_iff]
  intro w hw
  obtain ⟨b, t, rfl, hb⟩ := hwords w hw
  rw [if_neg]
  intro hp
  obtain ⟨u, rfl⟩ := isPrefixOf_iff_prefix.mp hp
  exact hb (hs b mem_cons_self)

theorem dropWords_graphic (hwords : ∀ w ∈ words, ∃ b t, w = b :: t ∧ ¬ Graphic b) (hs : ∀ b ∈ s, Graphic b) (fuel : Nat) :
    dropWords words fuel s = s := by
  cases fuel with
  | zero => rfl
  | succ fuel => rw [dropWords, dropWord_graphic hwords hs]

instance (b : UInt8) : Decidable (Graphic b) := inferInstanceAs (Decidable (_ ∧ _))

/-- The first byte of a word is not printable. -/
def startsDark : Bytes → Bool
  | [] => false
  | b :: _ => !decide (Graphic b)

theorem of_startsDark (h : words.all startsDark = true) : ∀ w ∈ words, ∃ b t, w = b :: t ∧ ¬ Graphic b := by
  intro w hw
  have hd := all_eq_true.mp h w hw
  cases w with
  | nil => simp [startsDark] at hd
  | cons b t => exact ⟨b, t, rfl, by simpa [startsDark] using hd⟩

theorem trimSpace_graphic (hs : ∀ b ∈ s, Graphic b) : trimSpace s = s := by
  have hl : spaces.all startsDark = true := by decide
  have hr : (spaces.map reverse).all startsDark = true := by decide
  unfold trimSpace
  dsimp only
  rw [dropWords_graphic (of_startsDark hl) hs,
    dropWords_graphic (of_startsDark hr) (fun b hb => hs b (mem_reverse.mp hb)),
    reverse_reverse]

theorem dropWord_suffix (h : dropWord words s = some t) : t <:+ s := by
  obtain ⟨w, _, hw⟩ := exists_of_findSome?_eq_some h
  obtain ⟨_, hw⟩ := ite_none_right_eq_some.mp hw
  cases hw
  exact drop_suffix _ _

theorem dropWords_suffix (words : List Bytes) (fuel : Nat) (s : Bytes) : dropWords words fuel s <:+ s := by
  induction fuel generalizing s with
  | zero => exact suffix_refl s
  | succ fuel ih =>
    rw [dropWords]
    split
    next rest hrest =>
      exact (ih rest).trans (dropWord_suffix hrest)
    · exact suffix_refl s

theorem trimSpace_part (s : Bytes) : trimSpace s <:+: s := by
  unfold trimSpace
  refine IsInfix.trans ?_ (dropWords_suffix spaces s.length s).isInfix
  rw [← reverse_infix, reverse_reverse]
  exact (dropWords_suffix _ _ _).isInfix

/-! ## Cutting -/

def cutPrefix (p s : Bytes) : Option Bytes :=
  if p.isPrefixOf s then some (s.drop p.length) else none

/-- `strings.Cut` at a separator of one byte. -/
def cut (sep : UInt8) : Bytes → Option (Bytes × Bytes)
  | [] => none
  | b :: s => if b = sep then some ([], s) else (cut sep s).map fun q => (b :: q.1, q.2)

theorem cutPrefix_append (p s : Bytes) : cutPrefix p (p ++ s) = some s := by
  unfold cutPrefix
  rw [if_pos <| isPrefixOf_iff_prefix.mpr (prefix_append p s), drop_left]

theorem cutPrefix_eq_some (h : cutPrefix p s = some t) : s = p ++ t := by
  obtain ⟨hp, h⟩ := ite_none_right_eq_some.mp h
  obtain ⟨u, rfl⟩ := isPrefixOf_iff_prefix.mp hp
  rw [drop_left] at h
  rw [some.inj h]

variable {sep : UInt8}

theorem cut_append (h : sep ∉ s) (t : Bytes) : cut sep (s ++ sep :: t) = some (s, t) := by
  induction s with
  | nil => simp [cut]
  | cons b s ih =>
    have hb : b ≠ sep := fun he => h (he ▸ mem_cons_self ..)
    rw [cons_append, cut, if_neg hb, ih (fun hm => h (mem_cons_of_mem _ hm))]
    rfl

theorem cut_eq_some {b : Bytes} (h : cut sep s = some (a, b)) : s = a ++ sep :: b ∧ sep ∉ a := by
  induction s generalizing a with
  | nil => simp [cut] at h
  | cons c s ih =>
    rw [cut] at h
    split at h
    next hc =>
      cases h
      exact ⟨by rw [hc]; rfl, not_mem_nil⟩
    next hc =>
      obtain ⟨⟨a', b'⟩, h', heq⟩ := map_eq_some_iff.mp h
      cases heq
      obtain ⟨hs, hm⟩ := ih h'
      refine ⟨by rw [hs]; rfl, ?_⟩
      intro hmem
      rcases mem_cons.mp hmem with he | hmem
      · exact hc he.symm
      · exact hm hmem

theorem cut_eq_none : cut sep s = none ↔ sep ∉ s := by
  induction s with
  | nil => simp [cut]
  | cons c s ih =>
    rw [cut]
    split
    next hc =>
      simp [hc]
    next hc =>
      rw [map_eq_none_iff, ih, mem_cons, not_or]
      exact ⟨fun h => ⟨fun he => hc he.symm, h⟩, fun h => h.2⟩

theorem cut_append_left (h : sep ∉ s) (t : Bytes) :
    cut sep (s ++ t) = (cut sep t).map fun q => (s ++ q.1, q.2) := by
  induction s with
  | nil => simp
  | cons c s ih =>
    have hc : c ≠ sep := fun he => h (he ▸ mem_cons_self ..)
    rw [cons_append, cut, if_neg hc, ih (fun hm => h (mem_cons_of_mem _ hm))]
    cases cut sep t with
    | none => rfl
    | some q => rfl

/-! ## Numbers -/

def digit (b : UInt8) : Option Nat := if 0x30 ≤ b ∧ b ≤ 0x39 then some (b.toNat - 0x30) else none

/-- The value of a string of digits that follows digits of value `acc`. -/
def parseDigits (acc : Nat) : Bytes → Option Nat
  | [] => some acc
  | b :: s =>
    match digit b with
    | some d => parseDigits (10 * acc + d) s
    | none => none

def parseSign : Bytes → Bool × Bytes
  | [] => (false, [])
  | b :: s => if b = 0x2B then (false, s) else if b = 0x2D then (true, s) else (false, b :: s)

/-- `strconv.ParseInt(s, 10, 64)`, and `strconv.Atoi` where `int` has 64 bits. -/
def parseInt (s : Bytes) : Option Int :=
  match parseSign s with
  | (_, []) => none
  | (neg, digits) =>
    match parseDigits 0 digits with
    | none => none
    | some n =>
      if neg then (if n ≤ 2 ^ 63 then some (-(n : Int)) else none)
      else (if n < 2 ^ 63 then some (n : Int) else none)

/-- The digit `d`, which is below ten. -/
def digitByte (d : Nat) : UInt8 := UInt8.ofNat (0x30 + d)

/-- `strconv.Itoa` of a number that is not negative. -/
def decimal (n : Nat) : Bytes :=
  if n < 10 then [digitByte n] else decimal (n / 10) ++ [digitByte (n % 10)]

theorem digit_digitByte : ∀ d < 10, digit (digitByte d) = some d := by decide

theorem parseDigits_append {m : Nat} (h : parseDigits acc s = some m) (t : Bytes) :
    parseDigits acc (s ++ t) = parseDigits m t := by
  induction s generalizing acc with
  | nil =>
    cases h
    rfl
  | cons b s ih =>
    rw [parseDigits] at h
    rw [cons_append, parseDigits]
    cases hd : digit b with
    | none =>
      rw [hd] at h
      simp at h
    | some d =>
      rw [hd] at h
      exact ih h

theorem parseDigits_decimal (n : Nat) : parseDigits 0 (decimal n) = some n := by
  induction n using Nat.strongRecOn with
  | ind n ih =>
    rw [decimal]
    split
    next h =>
      rw [parseDigits, digit_digitByte n h]
      simp [parseDigits]
    next h =>
      rw [parseDigits_append (ih (n / 10) (Nat.div_lt_self (by omega) (by omega))), parseDigits,
        digit_digitByte _ (Nat.mod_lt n (by omega))]
      dsimp only [parseDigits]
      rw [Nat.div_add_mod]

theorem mem_decimal (h : b ∈ decimal n) : 0x30 ≤ b ∧ b ≤ 0x39 := by
  have hdigit : ∀ d < 10, 0x30 ≤ digitByte d ∧ digitByte d ≤ 0x39 := by decide
  induction n using Nat.strongRecOn with
  | ind n ih =>
    rw [decimal] at h
    split at h
    next hn =>
      rw [mem_singleton.mp h]
      exact hdigit n hn
    · rcases mem_append.mp h with h | h
      · exact ih (n / 10) (Nat.div_lt_self (by omega) (by omega)) h
      · rw [mem_singleton.mp h]
        exact hdigit _ (Nat.mod_lt n (by omega))

theorem decimal_ne_nil (n : Nat) : decimal n ≠ [] := by
  rw [decimal]
  split <;> simp

theorem not_mem_decimal (h : b < 0x30) (n : Nat) : b ∉ decimal n := by
  intro hm
  obtain ⟨h1, _⟩ := mem_decimal hm
  exact absurd (h.trans_le h1) (Nat.lt_irrefl _)

/-- `ParseInt` reads a number back if it is an `int64`, and refuses it otherwise. -/
theorem parseInt_decimal (n : Nat) : parseInt (decimal n) = if n < 2 ^ 63 then some (n : Int) else none := by
  cases hd : decimal n with
  | nil => exact absurd hd (decimal_ne_nil n)
  | cons b s =>
    have hb : ∀ c : UInt8, c < 0x30 → b ≠ c := by
      intro c hc he
      exact not_mem_decimal hc n (by rw [hd, he]; exact mem_cons_self ..)
    have hsign : parseSign (b :: s) = (false, b :: s) := by
      rw [parseSign, if_neg (hb _ (by decide)), if_neg (hb _ (by decide))]
    unfold parseInt
    rw [hsign]
    dsimp only
    rw [← hd, parseDigits_decimal]
    rfl

/-- `strconv.Itoa`, by a recursion that evaluates. -/
def itoa (n : Int) : Bytes :=
  if n < 0 then 0x2D :: (Nat.toDigits 10 n.natAbs).map (fun c => UInt8.ofNat c.toNat)
  else (Nat.toDigits 10 n.toNat).map fun c => UInt8.ofNat c.toNat

theorem toDigits_eq_decimal (n : Nat) : (Nat.toDigits 10 n).map (fun c => UInt8.ofNat c.toNat) = decimal n := by
  have hdigit : ∀ d < 10, UInt8.ofNat (Nat.digitChar d).toNat = digitByte d := by decide
  induction n using Nat.strongRecOn with
  | ind n ih =>
    rw [Nat.toDigits_eq_if (by decide), decimal]
    by_cases hn : n < 10
    · rw [if_pos hn, if_pos hn, map_singleton, hdigit n hn]
    · rw [if_neg hn, if_neg hn, map_append, ih (n / 10) (Nat.div_lt_self (by omega) (by omega)),
        map_singleton, hdigit _ (Nat.mod_lt n (by omega))]

theorem itoa_natCast (n : Nat) : itoa n = decimal n := by
  unfold itoa
  rw [if_neg (by omega), Int.toNat_natCast, toDigits_eq_decimal]

/-! ## Folding -/

/-- `A`–`Z` to `a`–`z`. -/
def lower (b : UInt8) : UInt8 := if 0x41 ≤ b ∧ b ≤ 0x5A then b + 0x20 else b

/-- The text in lower case, with the two runes outside ASCII that fold to an ASCII letter: the
Kelvin sign and the long s. -/
def fold : Bytes → Bytes
  | 0xE2 :: 0x84 :: 0xAA :: s => 0x6B :: fold s
  | 0xC5 :: 0xBF :: s => 0x73 :: fold s
  | b :: s => lower b :: fold s
  | [] => []

/-- `strings.EqualFold` where `t` is ASCII: no other rune folds to an ASCII one. -/
def equalFold (s t : Bytes) : Bool := decide (fold s = fold t)

/-- The value of the first entry whose name is `key` up to case, in the order the map is walked, or
the empty string. -/
def lookupFold (key : Bytes) (entries : List (Bytes × Bytes)) : Bytes :=
  match entries.find? fun q => equalFold q.1 key with
  | some q => q.2
  | none => []

/-- `a`–`z` to `A`–`Z`. -/
def upper (b : UInt8) : UInt8 := if 0x61 ≤ b ∧ b ≤ 0x7A then b - 0x20 else b

/-- `strings.ToLower`, with the two runes outside ASCII whose lower case is an ASCII letter: the
Kelvin sign and the dotted capital I. Other runes are left as they are: no name that is looked
for has one. -/
def toLower : Bytes → Bytes
  | 0xE2 :: 0x84 :: 0xAA :: s => 0x6B :: toLower s
  | 0xC4 :: 0xB0 :: s => 0x69 :: toLower s
  | b :: s => lower b :: toLower s
  | [] => []

/-- `strings.ToUpper`, with the two runes outside ASCII whose upper case is an ASCII letter: the
dotless i and the long s. -/
def toUpper : Bytes → Bytes
  | 0xC4 :: 0xB1 :: s => 0x49 :: toUpper s
  | 0xC5 :: 0xBF :: s => 0x53 :: toUpper s
  | b :: s => upper b :: toUpper s
  | [] => []

theorem lower_eq (hc : c < 0x41) (h : lower b = c) : b = c := by
  unfold lower at h
  split at h
  next hb =>
    exfalso
    subst h
    obtain ⟨h1, h2⟩ := hb
    rw [UInt8.le_iff_toNat_le] at h1 h2
    rw [UInt8.lt_iff_toNat_lt, UInt8.toNat_add] at hc
    have e1 : (0x41 : UInt8).toNat = 65 := rfl
    have e2 : (0x5A : UInt8).toNat = 90 := rfl
    have e3 : (0x20 : UInt8).toNat = 32 := rfl
    omega
  · exact h

theorem mem_toLower (hc : c < 0x41) (h : c ∈ toLower s) : c ∈ s := by
  induction s using toLower.induct with
  | case1 s ih | case2 s ih =>
    rcases mem_cons.mp h with rfl | h
    · exact absurd hc (by decide)
    · simp [ih h]
  | case3 b s h1 h2 ih =>
    rw [toLower] at h
    · rcases mem_cons.mp h with h | h
      · exact lower_eq hc h.symm ▸ mem_cons_self ..
      · exact mem_cons_of_mem _ (ih h)
    · exact h1
    · exact h2
  | case4 => simp [toLower] at h

/-- A byte that only its own letter folds to comes from that letter. -/
theorem fold_eq_cons (hk : c ≠ 0x6B) (hs : c ≠ 0x73) (h : fold s = c :: t) :
    ∃ b s', s = b :: s' ∧ lower b = c ∧ fold s' = t := by
  induction s using fold.induct with
  | case1 s _ =>
    exact absurd (cons.inj h).1.symm hk
  | case2 s _ =>
    exact absurd (cons.inj h).1.symm hs
  | case3 b s h1 h2 _ =>
    rw [fold] at h
    · exact ⟨b, s, rfl, cons.inj h⟩
    · exact h1
    · exact h2
  | case4 => simp [fold] at h

theorem toLower_cons (h1 : b ≠ 0xE2) (h2 : b ≠ 0xC4) (s : Bytes) : toLower (b :: s) = lower b :: toLower s := by
  rw [toLower]
  · rintro _ h _
    exact h1 h
  · rintro _ h _
    exact h2 h

/-- A name that begins with such a letter when folded begins with it in lower case. -/
theorem toLower_of_fold (hk : c ≠ 0x6B) (hs : c ≠ 0x73) (h1 : c ≠ 0xE2) (h2 : c ≠ 0xC4) (h : fold s = c :: t) :
    ∃ s', toLower s = c :: toLower s' ∧ fold s' = t := by
  obtain ⟨b, s', rfl, rfl, hs'⟩ := fold_eq_cons hk hs h
  have hlower : ∀ x : UInt8, x = 0xE2 ∨ x = 0xC4 → lower x = x := by
    rintro x (rfl | rfl) <;> rfl
  refine ⟨s', toLower_cons ?_ ?_ s', hs'⟩
  · rintro rfl
    exact h1 (hlower _ (Or.inl rfl))
  · rintro rfl
    exact h2 (hlower _ (Or.inr rfl))

/-- The order of the entries does not matter where all that have the name have one value. -/
theorem lookupFold_eq {key v : Bytes} {es : List (Bytes × Bytes)} (hmem : (key, v) ∈ es)
    (hone : ∀ e ∈ es, equalFold e.1 key = true → e.2 = v) : lookupFold key es = v := by
  unfold lookupFold
  cases hf : es.find? fun q => equalFold q.1 key with
  | none => exact absurd (find?_eq_none.mp hf _ hmem) (by simp [equalFold])
  | some e => exact hone e (mem_of_find?_eq_some hf) (by simpa using find?_some hf)

theorem lookupFold_eq_nil {key : Bytes} {es : List (Bytes × Bytes)} (h : ∀ e ∈ es, equalFold e.1 key = false) :
    lookupFold key es = [] := by
  unfold lookupFold
  rw [find?_eq_none.mpr fun e he => by rw [h e he]; simp]

/-! ## Hexadecimal -/

/-- The digit of value `d`, which is below sixteen. -/
def hexDigit (d : Nat) : UInt8 := UInt8.ofNat (if d < 10 then 0x30 + d else 0x57 + d)

/-- `hex.EncodeToString`. -/
def hex (bs : Bytes) : Bytes :=
  bs.flatMap fun b => [hexDigit (b.toNat / 16), hexDigit (b.toNat % 16)]

def hexValue (b : UInt8) : Option Nat :=
  match digit b with
  | some d => some d
  | none => if 0x61 ≤ lower b ∧ lower b ≤ 0x66 then some ((lower b).toNat - 0x57) else none

/-- The value of a string of hexadecimal digits that follows digits of value `acc`. -/
def parseHexDigits (acc : Nat) : Bytes → Option Nat
  | [] => some acc
  | b :: s =>
    match hexValue b with
    | some d => parseHexDigits (16 * acc + d) s
    | none => none

/-- `strconv.ParseInt(s, 16, 64)`. -/
def parseHex (s : Bytes) : Option Int :=
  match parseSign s with
  | (_, []) => none
  | (neg, digits) =>
    match parseHexDigits 0 digits with
    | none => none
    | some n =>
      if neg then (if n ≤ 2 ^ 63 then some (-(n : Int)) else none)
      else (if n < 2 ^ 63 then some (n : Int) else none)

/-- `hex.DecodeString`. -/
def hexDecode : Bytes → Option Bytes
  | [] => some []
  | [_] => none
  | a :: b :: s =>
    match hexValue a, hexValue b, hexDecode s with
    | some x, some y, some bs => some (UInt8.ofNat (16 * x + y) :: bs)
    | _, _, _ => none

theorem hexDigit_inj : ∀ d < 16, ∀ e < 16, hexDigit d = hexDigit e → d = e := by decide

theorem graphic_hexDigit : ∀ d < 16, Graphic (hexDigit d) := by decide

theorem hex_injective : Function.Injective hex := by
  intro a
  induction a with
  | nil =>
    intro b h
    cases b with
    | nil => rfl
    | cons y b => simp [hex] at h
  | cons x a ih =>
    intro b h
    cases b with
    | nil => simp [hex] at h
    | cons y b =>
      simp only [hex, flatMap_cons, cons_append, nil_append, cons.injEq] at h
      obtain ⟨h1, h2, h3⟩ := h
      have hx := x.toNat_lt
      have hy := y.toNat_lt
      have e1 := hexDigit_inj _ (by omega) _ (by omega) h1
      have e2 := hexDigit_inj _ (Nat.mod_lt _ (by omega)) _ (Nat.mod_lt _ (by omega)) h2
      rw [ih h3, UInt8.toNat_inj.mp (by omega : x.toNat = y.toNat)]

theorem hex_length (bs : Bytes) : (hex bs).length = 2 * bs.length := by
  induction bs with
  | nil => rfl
  | cons b bs ih =>
    have hcons : hex (b :: bs) = hexDigit (b.toNat / 16) :: hexDigit (b.toNat % 16) :: hex bs := rfl
    rw [hcons, length_cons, length_cons, length_cons]
    omega

theorem graphic_hex {bs : Bytes} (h : c ∈ hex bs) : Graphic c := by
  obtain ⟨b, _, hb⟩ := mem_flatMap.mp h
  have hlt := b.toNat_lt
  rcases mem_cons.mp hb with rfl | hb
  · exact graphic_hexDigit _ (by omega)
  · rw [mem_singleton.mp hb]
    exact graphic_hexDigit _ (Nat.mod_lt _ (by omega))

theorem parseHex_digits (hs : s ≠ []) (h : parseHexDigits 0 s = some n) (hn : n < 2 ^ 63) : parseHex s = some (n : Int) := by
  cases s with
  | nil => exact absurd rfl hs
  | cons b s =>
    have hplus : b ≠ 0x2B := by
      rintro rfl
      simp [parseHexDigits, show hexValue 0x2B = none from by decide] at h
    have hminus : b ≠ 0x2D := by
      rintro rfl
      simp [parseHexDigits, show hexValue 0x2D = none from by decide] at h
    have hsign : parseSign (b :: s) = (false, b :: s) := by
      rw [parseSign, if_neg hplus, if_neg hminus]
    unfold parseHex
    rw [hsign]
    dsimp only
    rw [h]
    dsimp only
    rw [if_neg (by simp), if_pos hn]

theorem mem_parseHexDigits (h : parseHexDigits acc s = some n) (hc : c ∈ s) : hexValue c ≠ none := by
  induction s generalizing acc with
  | nil => exact absurd hc not_mem_nil
  | cons b s ih =>
    rw [parseHexDigits] at h
    split at h
    next d hd =>
      rcases mem_cons.mp hc with rfl | hc
      · rw [hd]
        simp
      · exact ih h hc
    · simp at h

/-! ## Joining -/

/-- `strings.Join` with a separator of one byte. -/
def join (sep : UInt8) : List Bytes → Bytes
  | [] => []
  | [s] => s
  | s :: t :: rest => s ++ sep :: join sep (t :: rest)

/-- Texts without the separator can be told apart once they are joined. -/
theorem join_inj (ha : ∀ s ∈ as, sep ∉ s) (hb : ∀ s ∈ bs, sep ∉ s) (hane : as ≠ []) (hbne : bs ≠ [])
    (h : join sep as = join sep bs) : as = bs := by
  have hcut : ∀ (s t : Bytes) (rest : List Bytes), sep ∉ s →
      cut sep (join sep (s :: t :: rest)) = some (s, join sep (t :: rest)) := by
    intro s t rest hs
    rw [join, cut_append hs]
  induction as generalizing bs with
  | nil => exact absurd rfl hane
  | cons a as ih =>
    cases bs with
    | nil => exact absurd rfl hbne
    | cons b bs =>
      have ha0 := ha a mem_cons_self
      have hb0 := hb b mem_cons_self
      cases as with
      | nil =>
        cases bs with
        | nil => rw [show a = b from h]
        | cons b' bs =>
          have hn : cut sep (join sep [a]) = none := cut_eq_none.mpr ha0
          rw [h, hcut b b' bs hb0] at hn
          simp at hn
      | cons a' as =>
        cases bs with
        | nil =>
          have hn : cut sep (join sep [b]) = none := cut_eq_none.mpr hb0
          rw [← h, hcut a a' as ha0] at hn
          simp at hn
        | cons b' bs =>
          have h' := congrArg (cut sep) h
          rw [hcut a a' as ha0, hcut b b' bs hb0] at h'
          obtain ⟨h1, h2⟩ := Prod.mk.inj (some.inj h')
          rw [h1, ih (fun s hs => ha s (mem_cons_of_mem _ hs))
            (fun s hs => hb s (mem_cons_of_mem _ hs)) (by simp) (by simp) h2]

def trimSuffix (suffix s : Bytes) : Bytes :=
  if suffix.isSuffixOf s then s.take (s.length - suffix.length) else s

theorem trimSuffix_append (suffix s : Bytes) : trimSuffix suffix (s ++ suffix) = s := by
  unfold trimSuffix
  rw [if_pos (isSuffixOf_iff_suffix.mpr (suffix_append s suffix)), length_append,
    Nat.add_sub_cancel, take_left]

theorem trimSuffix_of_not {suffix : Bytes} (h : ¬ suffix <:+ s) : trimSuffix suffix s = s := by
  unfold trimSuffix
  rw [if_neg (fun hs => h (isSuffixOf_iff_suffix.mp hs))]

theorem trimSuffix_begins (suffix s : Bytes) : trimSuffix suffix s <+: s := by
  unfold trimSuffix
  split
  · exact take_prefix _ _
  · exact prefix_refl s

/-! ## Splitting -/

/-- `strings.Split` at a separator of one byte. -/
def split (sep : UInt8) : Bytes → List Bytes
  | [] => [[]]
  | b :: s =>
    if b = sep then [] :: split sep s
    else
      match split sep s with
      | [] => [[b]]
      | t :: rest => (b :: t) :: rest

theorem split_ne_nil (sep : UInt8) (s : Bytes) : split sep s ≠ [] := by
  cases s with
  | nil => simp [split]
  | cons b s =>
    unfold split
    split
    · simp
    · split <;> simp

theorem split_of_not_mem (h : sep ∉ s) : split sep s = [s] := by
  induction s with
  | nil => rfl
  | cons b s ih =>
    have hb : b ≠ sep := fun hb => h (hb ▸ mem_cons_self ..)
    rw [split, if_neg hb, ih (fun hs => h (mem_cons_of_mem _ hs))]

theorem not_mem_split (h : t ∈ split sep s) : sep ∉ t := by
  induction s generalizing t with
  | nil =>
    rw [mem_singleton.mp h]
    simp
  | cons b s ih =>
    unfold split at h
    split at h
    · rcases mem_cons.mp h with rfl | h
      · simp
      · exact ih h
    next hb =>
      split at h
      · rw [mem_singleton.mp h]
        simpa using Ne.symm hb
      next u rest heq =>
        rcases mem_cons.mp h with rfl | h
        · have hu := ih (heq ▸ mem_cons_self ..)
          simpa [Ne.symm hb] using hu
        · exact ih (heq ▸ mem_cons_of_mem _ h)

theorem join_split (sep : UInt8) (s : Bytes) : join sep (split sep s) = s := by
  induction s with
  | nil => rfl
  | cons b s ih =>
    have hne := split_ne_nil sep s
    unfold split
    split
    next hb =>
      cases hs : split sep s with
      | nil => exact absurd hs hne
      | cons t rest => rw [join, nil_append, ← hs, ih, hb]
    · cases hs : split sep s with
      | nil => exact absurd hs hne
      | cons t rest =>
        rw [hs] at ih
        cases rest with
        | nil => rw [← ih]; rfl
        | cons u rest =>
          rw [← ih]
          rfl

/-- Joined pieces without the separator are split again as they were. -/
theorem split_join (h : ∀ t ∈ ts, sep ∉ t) (hne : ts ≠ []) : split sep (join sep ts) = ts := by
  refine join_inj (fun t ht => not_mem_split ht) h (split_ne_nil _ _) hne (join_split _ _)

theorem join_eq_nil (hne : ts ≠ []) (h : join sep ts = []) : ts = [[]] := by
  cases ts with
  | nil => exact absurd rfl hne
  | cons t rest =>
    cases rest with
    | nil => rw [show t = [] from h]
    | cons u rest => simp [join] at h

theorem count_join (h : ∀ t ∈ ts, sep ∉ t) : (join sep ts).count sep = ts.length - 1 := by
  induction ts with
  | nil => rfl
  | cons t rest ih =>
    have ht : t.count sep = 0 := count_eq_zero.mpr (h t mem_cons_self)
    cases rest with
    | nil => exact ht
    | cons u rest =>
      have hrest := ih fun v hv => h v (mem_cons_of_mem _ hv)
      rw [join, count_append, ht, count_cons_self, hrest]
      simp

/-- Pieces with a separator after each. -/
def closeAll (sep : UInt8) (ts : List Bytes) : Bytes := ts.flatMap (· ++ [sep])

theorem closeAll_cons (sep : UInt8) (t : Bytes) (ts : List Bytes) :
    closeAll sep (t :: ts) = t ++ sep :: closeAll sep ts := by
  unfold closeAll
  rw [flatMap_cons, append_assoc]
  rfl

theorem closeAll_eq_join (h : ts ≠ []) : closeAll sep ts = join sep ts ++ [sep] := by
  induction ts with
  | nil => exact absurd rfl h
  | cons t ts ih =>
    rw [closeAll_cons]
    cases ts with
    | nil => rfl
    | cons u ts =>
      rw [ih (by simp), join]
      simp

theorem join_append (sep : UInt8) (as : List Bytes) (h : bs ≠ []) :
    join sep (as ++ bs) = closeAll sep as ++ join sep bs := by
  induction as with
  | nil => rfl
  | cons a as ih =>
    have hcat : a ++ sep :: closeAll sep as ++ join sep bs = a ++ sep :: (closeAll sep as ++ join sep bs) := by
      simp
    rw [closeAll_cons, hcat, ← ih]
    cases hab : as ++ bs with
    | nil => exact absurd (append_eq_nil_iff.mp hab).2 h
    | cons c rest => rw [cons_append, hab, join]

/-- Closed pieces begin a joined text exactly if they are the first pieces of it, and not all. -/
theorem closeAll_begins_join (ha : ∀ t ∈ as, sep ∉ t) (hb : ∀ t ∈ bs, sep ∉ t) (hne : bs ≠ []) :
    closeAll sep as <+: join sep bs ↔ ∃ cs, cs ≠ [] ∧ bs = as ++ cs := by
  constructor
  · intro h
    induction as generalizing bs with
    | nil => exact ⟨bs, hne, rfl⟩
    | cons a as ih =>
      rw [closeAll_cons] at h
      obtain ⟨t, ht⟩ := h
      have ha0 := ha a mem_cons_self
      rw [append_assoc, cons_append] at ht
      cases bs with
      | nil => exact absurd rfl hne
      | cons b bs =>
        have hb0 := hb b mem_cons_self
        have hcut := cut_append ha0 (closeAll sep as ++ t)
        rw [ht] at hcut
        cases bs with
        | nil =>
          -- the last piece has no separator in it
          rw [show join sep [b] = b from rfl, cut_eq_none.mpr hb0] at hcut
          simp at hcut
        | cons b' bs =>
          rw [join, cut_append hb0] at hcut
          obtain ⟨rfl, hrest⟩ := Prod.mk.inj (some.inj hcut)
          obtain ⟨cs, hcs, heq⟩ := ih (fun u hu => ha u (mem_cons_of_mem _ hu))
            (fun u hu => hb u (mem_cons_of_mem _ hu)) (by simp) ⟨t, hrest.symm⟩
          exact ⟨cs, hcs, by rw [cons_append, ← heq]⟩
  · rintro ⟨cs, hcs, rfl⟩
    rw [join_append sep as hcs]
    exact prefix_append _ _

/-- `strings.LastIndex` of one byte. -/
def lastIndex (sep : UInt8) : Bytes → Option Nat
  | [] => none
  | b :: s =>
    match lastIndex sep s with
    | some i => some (i + 1)
    | none => if b = sep then some 0 else none

theorem lastIndex_eq_none : lastIndex sep s = none ↔ sep ∉ s := by
  induction s with
  | nil => simp [lastIndex]
  | cons b s ih =>
    unfold lastIndex
    split
    next i hi =>
      have : sep ∈ s := by
        by_contra hs
        rw [ih.mpr hs] at hi
        simp at hi
      simp [this]
    next hi =>
      have hs := ih.mp hi
      by_cases hb : b = sep
      · simp [hb]
      · simp [hb, hs, Ne.symm hb]

theorem lastIndex_append {q : Bytes} (h : sep ∉ q) (p : Bytes) :
    lastIndex sep (p ++ sep :: q) = some p.length := by
  induction p with
  | nil => rw [nil_append, lastIndex, lastIndex_eq_none.mpr h]; simp
  | cons b p ih => rw [cons_append, lastIndex, ih]; rfl

/-- A text with a separator is what stands before the last one and what stands after it. -/
theorem lastIndex_eq_some (h : lastIndex sep s = some i) :
    ∃ q, s = s.take i ++ sep :: q ∧ sep ∉ q ∧ (s.take i).length = i := by
  induction s generalizing i with
  | nil => simp [lastIndex] at h
  | cons b s ih =>
    unfold lastIndex at h
    split at h
    next j hj =>
      obtain ⟨q, hs, hq, hlen⟩ := ih hj
      rw [← some.inj h]
      refine ⟨q, ?_, hq, by rw [take_succ_cons, length_cons, hlen]⟩
      rw [take_succ_cons, cons_append, ← hs]
    next hj =>
      obtain ⟨hb, h⟩ := ite_none_right_eq_some.mp h
      rw [← some.inj h, hb]
      exact ⟨s, rfl, lastIndex_eq_none.mp hj, rfl⟩

/-! ## Finding -/

def index (sub : Bytes) : Bytes → Option Nat
  | [] => if sub = [] then some 0 else none
  | b :: s => if sub <+: b :: s then some 0 else (index sub s).map (· + 1)

/-- The text ends with what was looked for, at the first place found. -/
theorem take_index {sub : Bytes} (h : index sub s = some i) : s.take (i + sub.length) = s.take i ++ sub := by
  induction s generalizing i with
  | nil =>
    obtain ⟨hnil, h⟩ := ite_none_right_eq_some.mp h
    simp [hnil]
  | cons b s ih =>
    unfold index at h
    split at h
    next hbegins =>
      obtain ⟨t, ht⟩ := hbegins
      rw [← some.inj h, ← ht, Nat.zero_add, take_left]
      rfl
    · obtain ⟨j, hj, rfl⟩ := map_eq_some_iff.mp h
      rw [Nat.add_right_comm, take_succ_cons, ih hj]
      rfl

theorem index_take_append {sub : Bytes} (h : index sub s = some i) (t : Bytes) :
    index sub (s.take (i + sub.length) ++ t) = some i := by
  have hfirst : ∀ u : Bytes, index sub (sub ++ u) = some 0 := by
    intro u
    cases hu : sub ++ u with
    | nil => rw [index, if_pos (append_eq_nil_iff.mp hu).1]
    | cons b s => rw [index, if_pos (hu ▸ prefix_append sub u)]
  induction s generalizing i with
  | nil =>
    obtain ⟨hnil, h⟩ := ite_none_right_eq_some.mp h
    subst hnil
    rw [← some.inj h]
    exact hfirst t
  | cons b s ih =>
    unfold index at h
    split at h
    next hbegins =>
      obtain ⟨u, hu⟩ := hbegins
      rw [← some.inj h, ← hu, Nat.zero_add, take_left]
      exact hfirst t
    next hbegins =>
      obtain ⟨j, hj, rfl⟩ := map_eq_some_iff.mp h
      have htake := take_index hj
      have hnot : ¬ sub <+: b :: (s.take (j + sub.length) ++ t) := by
        intro hp
        -- what is looked for would have been found one place earlier already
        have hlong : sub.length ≤ (b :: s.take (j + sub.length)).length := by
          rw [htake, length_cons, length_append]
          omega
        have hwithin := prefix_of_prefix_length_le hp (prefix_append (b :: s.take _) t) hlong
        exact hbegins (hwithin.trans (cons_prefix_cons.mpr ⟨rfl, take_prefix _ _⟩))
      rw [Nat.add_right_comm, take_succ_cons, cons_append, index, if_neg hnot, ih hj]
      rfl

/-- What lies between two texts with the same beginning begins so too. -/
theorem begins_of_between {b c : Bytes} (ha : p <+: a) (hc : p <+: c) (hab : a < b) (hbc : b < c) : p <+: b := by
  induction p generalizing a b c with
  | nil => exact nil_prefix
  | cons x p ih =>
    obtain ⟨a, rfl⟩ := ha
    obtain ⟨c, rfl⟩ := hc
    cases b with
    | nil => exact absurd hab (not_lt_nil _)
    | cons y b =>
      rw [cons_append, cons_lt_cons_iff] at hab hbc
      rcases hab with hxy | ⟨rfl, hab⟩
      · rcases hbc with hyx | ⟨rfl, -⟩
        · exact absurd (UInt8.lt_trans hxy hyx) (UInt8.lt_irrefl _)
        · exact absurd hxy (UInt8.lt_irrefl _)
      · rcases hbc with hyx | ⟨-, hbc⟩
        · exact absurd hyx (UInt8.lt_irrefl _)
        · exact cons_prefix_cons.mpr ⟨rfl, ih (prefix_append _ _) (prefix_append _ _) hab hbc⟩

end GoText
