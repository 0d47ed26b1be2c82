import Mathlib

/-!
# Python's conversions from text

Texts are lists of characters.  `int(t, base)` accepts surrounding blanks, a sign, the
`0x` of base 16, and single underscores between the digits; `bytearray.fromhex` reads two
digits for a byte.  Both raise an exception, here `none`, on anything else.
-/

namespace PyText

/-- The value of a digit, if it is one in this base. -/
def digitVal (base : Nat) (c : Char) : Option Nat :=
  let v :=
    if '0' ≤ c ∧ c ≤ '9' then c.toNat - '0'.toNat
    else if 'a' ≤ c ∧ c ≤ 'z' then c.toNat - 'a'.toNat + 10
    else if 'A' ≤ c ∧ c ≤ 'Z' then c.toNat - 'A'.toNat + 10
    else base
  if v < base then some v else none

/-- Digits, with single underscores between them, after those of value `acc`. -/
def digitsVal (base acc : Nat) : List Char → Option Nat
  | [] => none
  | [c] => (digitVal base c).map (acc * base + ·)
  | c :: '_' :: cs => (digitVal base c).bind fun d => digitsVal base (acc * base + d) cs
  | c :: cs => (digitVal base c).bind fun d => digitsVal base (acc * base + d) cs

/-- `t.strip()`. -/
def strip (t : List Char) : List Char :=
  ((t.dropWhile Char.isWhitespace).reverse.dropWhile Char.isWhitespace).reverse

/-- `int(t, base)` of a text without sign. -/
def unsignedOfText (base : Nat) (t : List Char) : Option Nat :=
  match base, t with
  | 16, '0' :: 'x' :: '_' :: cs => digitsVal 16 0 cs
  | 16, '0' :: 'X' :: '_' :: cs => digitsVal 16 0 cs
  | 16, '0' :: 'x' :: cs => digitsVal 16 0 cs
  | 16, '0' :: 'X' :: cs => digitsVal 16 0 cs
  | base, cs => digitsVal base 0 cs

/-- `int(t, base)`, for the texts whose value is a natural number.  Numbers in trace files are never
negative, and have no blanks around them. -/
def natOfText (base : Nat) (t : List Char) : Option Nat :=
  match strip t with
  | '+' :: cs => unsignedOfText base cs
  | '-' :: cs => (unsignedOfText base cs).bind fun n => if n = 0 then some 0 else none
  | cs => unsignedOfText base cs

/-- `int(t, base)`. -/
def intOfText (base : Nat) (t : List Char) : Option Int :=
  match strip t with
  | '+' :: cs => (unsignedOfText base cs).map fun n => (n : Int)
  | '-' :: cs => (unsignedOfText base cs).map fun n => -(n : Int)
  | cs => (unsignedOfText base cs).map fun n => (n : Int)

theorem intOfText_of_natOfText {base n : Nat} {t : List Char} (h : natOfText base t = some n) :
    intOfText base t = some (n : Int) := by
  unfold natOfText at h
  unfold intOfText
  split at h
  · simp [h]
  · obtain ⟨k, hk, hn⟩ := Option.bind_eq_some_iff.1 h
    split at hn
    · cases hn
      simp_all
    · cases hn
  · simp [h]

/-- `bytearray.fromhex(t)`: blanks may stand between the bytes. -/
def fromHex : List Char → Option (List UInt8)
  | [] => some []
  | [c] => if c.isWhitespace then some [] else none
  | a :: b :: cs =>
      if a.isWhitespace then fromHex (b :: cs)
      else do
        let hi ← digitVal 16 a
        let lo ← digitVal 16 b
        let rest ← fromHex cs
        return UInt8.ofNat (16 * hi + lo) :: rest

/-- The bytes of texts one after the other. -/
theorem fromHex_append {s t : List Char} {xs ys : List UInt8} (hs : fromHex s = some xs)
    (ht : fromHex t = some ys) : fromHex (s ++ t) = some (xs ++ ys) := by
  induction s using fromHex.induct generalizing xs with
  | case1 =>
    cases hs
    exact ht
  | case2 c hc =>
    rw [fromHex, if_pos hc] at hs
    cases hs
    cases t with
    | nil => simp [fromHex, hc, ← ht]
    | cons d t => simpa [fromHex, hc] using ht
  | case3 c hc =>
    rw [fromHex, if_neg hc] at hs
    cases hs
  | case4 a b cs ha ih =>
    rw [fromHex, if_pos ha] at hs
    have := ih hs
    simpa [fromHex, ha] using this
  | case5 a b cs ha ih =>
    rw [fromHex, if_neg ha] at hs
    simp only [Option.bind_eq_bind, Option.bind_eq_some_iff, Option.pure_def,
      Option.some.injEq] at hs
    obtain ⟨hi, hhi, lo, hlo, rest, hrest, rfl⟩ := hs
    have := ih hrest
    simp [fromHex, ha, hhi, hlo, this]

/-- The bytes of a list of texts of one byte each. -/
theorem fromHex_flatten {ts : List (List Char)} {bs : List UInt8}
    (h : List.Forall₂ (fun t b => fromHex t = some [b]) ts bs) :
    fromHex ts.flatten = some bs := by
  induction h with
  | nil => rfl
  | cons hb _ ih => exact fromHex_append hb ih

/-- The bytes of a list of texts. -/
theorem fromHex_flatMap {α : Type} {l : List α} {f : α → List Char} {g : α → List UInt8}
    (h : ∀ a ∈ l, fromHex (f a) = some (g a)) : fromHex (l.flatMap f) = some (l.flatMap g) := by
  induction l with
  | nil => rfl
  | cons a l ih =>
    rw [List.flatMap_cons, List.flatMap_cons]
    exact fromHex_append (h a List.mem_cons_self) (ih fun b hb => h b (List.mem_cons_of_mem a hb))

/-! ## Reading back digits -/

/-- A digit that follows digits. -/
theorem digitsVal_append_digit {base acc v d : Nat} {t : List Char} {c : Char}
    (ht : digitsVal base acc t = some v) (hd : digitVal base c = some d) (hc : c ≠ '_') :
    digitsVal base acc (t ++ [c]) = some (v * base + d) := by
  induction acc, t using digitsVal.induct base with
  | case1 acc => cases ht
  | case2 acc a =>
    obtain ⟨e, he, rfl⟩ := Option.map_eq_some_iff.1 ht
    simp [digitsVal, he, hd, hc]
  | case3 acc a cs ih =>
    rw [digitsVal, Option.bind_eq_some_iff] at ht
    obtain ⟨e, he, hcs⟩ := ht
    rw [List.cons_append, List.cons_append, digitsVal, he, Option.bind_some]
    exact ih e hcs
  | case4 acc a cs hne hne' ih =>
    rw [digitsVal.eq_4 base acc a cs hne hne', Option.bind_eq_some_iff] at ht
    obtain ⟨e, he, hcs⟩ := ht
    have happ : ∀ cs', cs ++ [c] = '_' :: cs' → False := by
      intro cs' heq
      cases cs with
      | nil => exact hne rfl
      | cons b cs => exact hne' cs (by rw [List.cons_append, List.cons.injEq] at heq; rw [heq.1])
    rw [List.cons_append, digitsVal.eq_4 base acc a (cs ++ [c]) (by simp) happ, he,
      Option.bind_some]
    exact ih e hcs

/-- The characters that digits in a base up to 16 are written with. -/
def IsDigitChar (c : Char) : Prop := ∃ d < 16, c = Nat.digitChar d

theorem isDigitChar_of_mem {base n : Nat} (hlo : 2 ≤ base) (hhi : base ≤ 16) {c : Char}
    (hc : c ∈ Nat.toDigits base n) : IsDigitChar c := by
  induction n using Nat.strongRecOn with
  | ind n ih =>
    rw [Nat.toDigits_eq_if (by omega)] at hc
    split at hc
    · rw [List.mem_singleton] at hc
      exact ⟨n, by omega, hc⟩
    · rcases List.mem_append.1 hc with hc | hc
      · exact ih (n / base) (Nat.div_lt_self (by omega) (by omega)) hc
      · rw [List.mem_singleton] at hc
        have := Nat.mod_lt n (show 0 < base by omega)
        exact ⟨n % base, by omega, hc⟩

/-- Such a character is not one that separates or decorates numbers. -/
theorem IsDigitChar.ne {c : Char} (h : IsDigitChar c) :
    c.isWhitespace = false ∧ c ∉ [',', ' ', '\n', '\r', '_', '+', '-', 'x', 'X'] := by
  obtain ⟨d, hd, rfl⟩ := h
  decide +revert

theorem digitVal_digitChar {base d : Nat} (hb : base = 10 ∨ base = 16) (hd : d < base) :
    digitVal base (Nat.digitChar d) = some d := by
  rcases hb with rfl | rfl <;> decide +revert

theorem digitsVal_toDigits {base : Nat} (hb : base = 10 ∨ base = 16) (n : Nat) :
    digitsVal base 0 (Nat.toDigits base n) = some n := by
  induction n using Nat.strongRecOn with
  | ind n ih =>
    have hbase : 2 ≤ base ∧ base ≤ 16 := by omega
    rw [Nat.toDigits_eq_if (by omega)]
    split
    · rename_i hn
      simp [digitsVal, digitVal_digitChar hb hn]
    · have hmod := Nat.mod_lt n (show 0 < base by omega)
      have hchar : IsDigitChar (Nat.digitChar (n % base)) := ⟨n % base, by omega, rfl⟩
      rw [digitsVal_append_digit (ih (n / base) (Nat.div_lt_self (by omega) (by omega)))
        (digitVal_digitChar hb hmod) (fun h => hchar.ne.2 (by simp [h])), Nat.div_add_mod']

/-- Blanks are stripped from the ends only. -/
theorem strip_eq_self {t : List Char} (h : ∀ c ∈ t, c.isWhitespace = false) : strip t = t := by
  have hdrop : ∀ u : List Char, (∀ c ∈ u, c.isWhitespace = false) →
      u.dropWhile Char.isWhitespace = u := by
    intro u hu
    cases u with
    | nil => rfl
    | cons c u => rw [List.dropWhile_cons_of_neg (by simp [hu c])]
  rw [strip, hdrop t h, hdrop t.reverse (by simpa using h), List.reverse_reverse]

/-- **A number that was written in base 10 or 16 is read back.** -/
theorem natOfText_toDigits {base : Nat} (hb : base = 10 ∨ base = 16) (n : Nat) :
    natOfText base (Nat.toDigits base n) = some n := by
  have hval := digitsVal_toDigits hb n
  have hchar : ∀ c ∈ Nat.toDigits base n, IsDigitChar c :=
    fun c hc => isDigitChar_of_mem (by omega) (by omega) hc
  rw [natOfText, strip_eq_self fun c hc => (hchar c hc).ne.1]
  generalize Nat.toDigits base n = t at hval hchar
  -- no sign, and no `x` after a zero
  split
  · exact absurd (by simp) (hchar '+' (by simp)).ne.2
  · exact absurd (by simp) (hchar '-' (by simp)).ne.2
  · unfold unsignedOfText
    split
    · exact absurd (by simp) (hchar 'x' (by simp)).ne.2
    · exact absurd (by simp) (hchar 'X' (by simp)).ne.2
    · exact absurd (by simp) (hchar 'x' (by simp)).ne.2
    · exact absurd (by simp) (hchar 'X' (by simp)).ne.2
    · exact hval

example : natOfText 16 "0x7f_00".toList = some 0x7f00 := by decide

example : fromHex "00fF".toList = some [0, 255] := by decide

end PyText
