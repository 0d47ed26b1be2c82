import Durinn.Lib.PyText
import Durinn.Lib.TextJoin

/-!
# C++'s conversions from text

`std::getline` in a loop reads what lies between delimiters, and `std::stol` reads the number at the
beginning of a text; an exception is `none`.

* `getlines_unlines`, `getlines_intercalate` — what was written line by line, or joined, is read
  back.
* `stol_toDigits` — and so is a number of a `long`; `ofInt_toNat` for one that was an `unsigned`.
-/

namespace CText

open PyText

/-- The texts that `while (std::getline(input, t, delim))` reads: what follows the last delimiter
is one more, unless it is empty. -/
def getlines (delim : Char) (t : List Char) : List (List Char) :=
  if (t.splitOn delim).getLast? = some [] then (t.splitOn delim).dropLast else t.splitOn delim

/-- `isspace`. -/
def isSpace (c : Char) : Bool := c ∈ [' ', '\t', '\n', '\x0b', '\x0c', '\r']

/-- The digits at the beginning. -/
def leadingNat (t : List Char) : Option Nat := digitsVal 10 0 (t.takeWhile Char.isDigit)

/-- `std::stol`, for a `long` of 64 bits: `none` if there is no digit, or the number is out of
range. -/
def stol (t : List Char) : Option Int :=
  let v := match t.dropWhile isSpace with
    | '-' :: t => (leadingNat t).map fun n => -(n : Int)
    | '+' :: t => (leadingNat t).map fun n => (n : Int)
    | t => (leadingNat t).map fun n => (n : Int)
  v.filter fun v => -2 ^ 63 ≤ v ∧ v < 2 ^ 63

theorem getlines_unlines {ls : List (List Char)} (h : ∀ l ∈ ls, '\n' ∉ l) :
    getlines '\n' (unlines ls) = ls := by
  have hlast : ((unlines ls).splitOn '\n').getLast? = some [] := by
    induction ls with
    | nil => rfl
    | cons l ls ih =>
      have hl : unlines (l :: ls) = l ++ '\n' :: unlines ls := by simp [unlines]
      rw [hl, List.splitOn_append_cons_self_of_not_mem (h l List.mem_cons_self),
        List.getLast?_cons_of_ne_nil (List.splitOn_ne_nil _ _)]
      exact ih fun x hx => h x (List.mem_cons_of_mem l hx)
  rw [getlines, if_pos hlast]
  exact terminated_unlines h

theorem getlines_intercalate {delim : Char} {ts : List (List Char)} (hne : ts ≠ [])
    (hts : ∀ t ∈ ts, t ≠ [] ∧ delim ∉ t) : getlines delim ([delim].intercalate ts) = ts := by
  have hsplit := List.splitOn_intercalate delim (fun t ht => (hts t ht).2) hne
  rw [getlines, hsplit, if_neg fun hlast => (hts [] (List.mem_of_getLast? hlast)).1 rfl]

theorem isSpace_of_isDigit {c : Char} (h : c.isDigit = true) : isSpace c = false := by
  refine decide_eq_false fun hmem => ?_
  simp only [List.mem_cons, List.not_mem_nil, or_false] at hmem
  rcases hmem with rfl | rfl | rfl | rfl | rfl | rfl <;> exact absurd h (by decide)

/-- **A number that was written in base 10 is read back.** -/
theorem stol_toDigits {n : Nat} (h : n < 2 ^ 63) : stol (Nat.toDigits 10 n) = some (n : Int) := by
  have hdigit : ∀ c ∈ Nat.toDigits 10 n, c.isDigit = true := fun c hc =>
    Nat.isDigit_of_mem_toDigits (by decide) (by decide) hc
  have hnat : leadingNat (Nat.toDigits 10 n) = some n := by
    rw [leadingNat, List.takeWhile_eq_self_iff.2 hdigit, digitsVal_toDigits (Or.inl rfl)]
  have hspace : (Nat.toDigits 10 n).dropWhile isSpace = Nat.toDigits 10 n := by
    refine List.dropWhile_eq_self_iff.2 fun hpos => ?_
    exact Bool.not_eq_true _ ▸ isSpace_of_isDigit (hdigit _ (List.getElem_mem hpos))
  unfold stol
  rw [hspace]
  generalize Nat.toDigits 10 n = t at hdigit hnat
  -- a digit is not a sign
  split
  · exact absurd (hdigit '-' (by simp)) (by decide)
  · exact absurd (hdigit '+' (by simp)) (by decide)
  · rw [hnat]
    simp
    omega

/-- An `unsigned` that went through a `long`. -/
theorem ofInt_toNat (id : UInt32) : UInt32.ofInt (id.toNat : Int) = id := by
  have hlt := id.toNat_lt
  have hmod : ((id.toNat : Int) % 2 ^ 32).toNat = id.toNat := by omega
  rw [UInt32.ofInt, hmod, UInt32.ofNat_toNat]

end CText
