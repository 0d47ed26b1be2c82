import Mathlib

/-!
# Cutting a range at word boundaries

A range is a start and a length.  `cuts w n head` cuts the range from `0` to `n` into a head
of the given length, if there is one, words of `w` and what is left.

* `Tiles` — ranges that follow each other without gap or overlap; the slices of a list by
  them are the list (`Tiles.flatten_slices`).
* `tiles_cuts` — the cuts tile the range, whatever the head.
* `cuts_inWord`, `cuts_aligned`, `cuts_words` — if the head ends where the first word after
  the address `a` begins, then every cut lies inside one word, all but the first begin a
  word, and no two lie in the same.
-/

namespace Tiling

/-! ## Ranges that follow each other -/

/-- The ranges follow each other from `lo` to `hi`. -/
def Tiles : Nat → Nat → List (Nat × Nat) → Prop
  | lo, hi, [] => lo = hi
  | lo, hi, c :: cs => c.1 = lo ∧ Tiles (lo + c.2) hi cs

theorem Tiles.append {lo mid hi : Nat} {cs ds : List (Nat × Nat)} (hcs : Tiles lo mid cs)
    (hds : Tiles mid hi ds) : Tiles lo hi (cs ++ ds) := by
  induction cs generalizing lo with
  | nil =>
    cases hcs
    exact hds
  | cons c cs ih => exact ⟨hcs.1, ih hcs.2⟩

theorem Tiles.lo_le_hi {lo hi : Nat} {cs : List (Nat × Nat)} (h : Tiles lo hi cs) : lo ≤ hi := by
  induction cs generalizing lo with
  | nil => exact Nat.le_of_eq h
  | cons c cs ih => exact (Nat.le_add_right _ _).trans (ih h.2)

theorem Tiles.bounds {lo hi : Nat} {cs : List (Nat × Nat)} (h : Tiles lo hi cs) :
    ∀ c ∈ cs, lo ≤ c.1 ∧ c.1 + c.2 ≤ hi := by
  induction cs generalizing lo with
  | nil => simp
  | cons c cs ih =>
    intro d hd
    rcases List.mem_cons.1 hd with rfl | hd
    · have := h.2.lo_le_hi
      have := h.1
      omega
    · have := ih h.2 d hd
      omega

theorem Tiles.pairwise {lo hi : Nat} {cs : List (Nat × Nat)} (h : Tiles lo hi cs) :
    cs.Pairwise fun c d => c.1 + c.2 ≤ d.1 := by
  induction cs generalizing lo with
  | nil => exact List.Pairwise.nil
  | cons c cs ih =>
    refine List.Pairwise.cons (fun d hd => ?_) (ih h.2)
    have := (h.2.bounds d hd).1
    have := h.1
    omega

theorem Tiles.shift {lo hi : Nat} {cs : List (Nat × Nat)} (h : Tiles lo hi cs) (a : Nat) :
    Tiles (a + lo) (a + hi) (cs.map fun c => (a + c.1, c.2)) := by
  induction cs generalizing lo with
  | nil => exact congrArg (a + ·) h
  | cons c cs ih =>
    refine ⟨congrArg (a + ·) h.1, ?_⟩
    show Tiles (a + lo + c.2) (a + hi) _
    rw [Nat.add_assoc]
    exact ih h.2

theorem Tiles.length_slice {α : Type} {lo hi : Nat} {cs : List (Nat × Nat)} (h : Tiles lo hi cs)
    {l : List α} (hl : hi ≤ l.length) {c : Nat × Nat} (hc : c ∈ cs) :
    ((l.drop c.1).take c.2).length = c.2 := by
  have := (h.bounds c hc).2
  rw [List.length_take, List.length_drop]
  omega

/-- **Slicing a list along a tiling loses nothing.** -/
theorem Tiles.flatten_slices {α : Type} {lo hi : Nat} {cs : List (Nat × Nat)} (h : Tiles lo hi cs)
    (l : List α) :
    (cs.map fun c => (l.drop c.1).take c.2).flatten = (l.drop lo).take (hi - lo) := by
  induction cs generalizing lo with
  | nil =>
    cases h
    simp
  | cons c cs ih =>
    have hle := h.2.lo_le_hi
    rw [List.map_cons, List.flatten_cons, ih h.2, h.1, ← List.drop_drop,
      show hi - lo = c.2 + (hi - (lo + c.2)) by omega, List.take_add]

/-! ## Cuts -/

/-- The range from `0` to `n`, cut into a head, words of `w`, and what is left. -/
def cuts (w n : Nat) (head : Option Nat) : List (Nat × Nat) :=
  let start := head.getD 0
  let words := (n - start) / w
  let stop := start + words * w
  head.toList.map (fun h => (0, min n h)) ++ (List.range words).map (fun k => (start + k * w, w)) ++
    if stop < n then [(stop, n - stop)] else []

theorem tiles_words (w start words : Nat) :
    Tiles start (start + words * w) ((List.range words).map fun k => (start + k * w, w)) := by
  induction words with
  | zero => simp [Tiles]
  | succ words ih =>
    rw [List.range_succ, List.map_append]
    refine ih.append ⟨rfl, ?_⟩
    show start + words * w + w = start + (words + 1) * w
    ring

/-- **The cuts tile the range.** -/
theorem tiles_cuts (w n : Nat) (head : Option Nat) : Tiles 0 n (cuts w n head) := by
  have hfirst : Tiles 0 (min n (head.getD 0)) (head.toList.map fun h => (0, min n h)) := by
    cases head with
    | none => exact (Nat.min_zero n).symm
    | some h => exact ⟨rfl, Nat.zero_add _⟩
  unfold cuts
  rw [List.append_assoc]
  generalize head.getD 0 = start at hfirst ⊢
  refine hfirst.append ?_
  have hmul : (n - start) / w * w ≤ n - start := Nat.div_mul_le_self _ _
  rcases Nat.le_total n start with hle | hle
  · -- the head takes all of it
    rw [Nat.sub_eq_zero_of_le hle, Nat.zero_div, if_neg (by omega)]
    exact Nat.min_eq_left hle
  · rw [Nat.min_eq_right hle]
    refine (tiles_words w start _).append ?_
    split
    · refine ⟨rfl, ?_⟩
      show start + (n - start) / w * w + (n - (start + (n - start) / w * w)) = n
      omega
    · show start + (n - start) / w * w = n
      omega

/-- A cut is the head, or begins a number of words after it and is no longer than a word. -/
theorem mem_cuts {w n : Nat} (hw : 0 < w) {head : Option Nat} {c : Nat × Nat}
    (hc : c ∈ cuts w n head) :
    (∃ h, head = some h ∧ c = (0, min n h)) ∨
      ∃ k, c.1 = head.getD 0 + k * w ∧ 0 < c.2 ∧ c.2 ≤ w := by
  simp only [cuts, List.mem_append, List.mem_map, Option.mem_toList, List.mem_range] at hc
  rcases hc with (⟨h, hh, rfl⟩ | ⟨k, -, rfl⟩) | hc
  · exact Or.inl ⟨h, hh, rfl⟩
  · exact Or.inr ⟨k, rfl, hw, le_rfl⟩
  · split at hc
    · rename_i hstop
      rw [List.mem_singleton] at hc
      subst hc
      have hmod := Nat.mod_lt (n - head.getD 0) hw
      have hdiv := Nat.div_add_mod' (n - head.getD 0) w
      refine Or.inr ⟨(n - head.getD 0) / w, rfl, ?_, ?_⟩
      · show 0 < n - (head.getD 0 + (n - head.getD 0) / w * w)
        omega
      · show n - (head.getD 0 + (n - head.getD 0) / w * w) ≤ w
        omega
    · cases hc

/-! ## Cuts at the words of an address -/

section Words

variable {w n a : Nat}

/-- How far it is from an address to the next word, if the address does not begin one. -/
def toNextWord (w a : Nat) : Option Nat := if a % w = 0 then none else some (w - a % w)

theorem add_getD_toNextWord (hw : 0 < w) (k : Nat) :
    (a + ((toNextWord w a).getD 0 + k * w)) % w = 0 := by
  have hmod := Nat.mod_lt a hw
  have hdiv := Nat.div_add_mod a w
  unfold toNextWord
  split
  · rename_i h
    simp [Nat.add_mod, h]
  · have hsum : a + (w - a % w + k * w) = w * (a / w + 1 + k) := by
      have : w * (a / w + 1 + k) = w * (a / w) + w + k * w := by ring
      omega
    show (a + (w - a % w + k * w)) % w = 0
    rw [hsum, Nat.mul_mod_right]

/-- All cuts but the first begin a word. -/
theorem cuts_aligned (hw : 0 < w) {c : Nat × Nat} (hc : c ∈ cuts w n (toNextWord w a)) :
    c.1 = 0 ∨ (a + c.1) % w = 0 := by
  rcases mem_cuts hw hc with ⟨h, -, rfl⟩ | ⟨k, hk, -⟩
  · exact Or.inl rfl
  · rw [hk]
    exact Or.inr (add_getD_toNextWord hw k)

/-- **Every cut lies inside one word.** -/
theorem cuts_inWord (hw : 0 < w) {c : Nat × Nat} (hc : c ∈ cuts w n (toNextWord w a)) :
    (a + c.1) % w + c.2 ≤ w := by
  rcases mem_cuts hw hc with ⟨h, hh, rfl⟩ | ⟨k, hk, -, hle⟩
  · simp only [toNextWord] at hh
    split at hh
    · cases hh
    · cases hh
      have := Nat.mod_lt a hw
      show (a + 0) % w + min n (w - a % w) ≤ w
      rw [Nat.add_zero]
      omega
  · rw [hk, add_getD_toNextWord hw, Nat.zero_add]
    exact hle

theorem cuts_pos (hw : 0 < w) (hn : 0 < n) {c : Nat × Nat}
    (hc : c ∈ cuts w n (toNextWord w a)) : 0 < c.2 := by
  rcases mem_cuts hw hc with ⟨h, hh, rfl⟩ | ⟨k, -, hpos, -⟩
  · simp only [toNextWord] at hh
    split at hh
    · cases hh
    · cases hh
      have := Nat.mod_lt a hw
      show 0 < min n (w - a % w)
      omega
  · exact hpos

/-- **No two cuts lie in the same word**: later ones lie in later words. -/
theorem cuts_words (hw : 0 < w) (hn : 0 < n) :
    (cuts w n (toNextWord w a)).Pairwise fun c d => (a + c.1) / w < (a + d.1) / w := by
  refine (tiles_cuts w n _).pairwise.imp_of_mem fun {c d} hc hd hle => ?_
  have hpos := cuts_pos hw hn hc
  rcases cuts_aligned hw hd with h0 | hmod
  · omega
  · rw [Nat.div_lt_iff_lt_mul hw, Nat.div_mul_cancel (Nat.dvd_of_mod_eq_zero hmod)]
    omega

end Words

end Tiling
