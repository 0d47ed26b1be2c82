import Mathlib

/-!
# Joining and splitting texts

Texts are lists of characters.  Python programs write records by joining texts with a
separator and read them by splitting again; this file says when that is lossless.

* `terminated` — `t.split(c)[:-1]`: the pieces that end with the character `c`.
  `terminated_unlines`: lines that are written one after the other are read back.
* `universalNewlines` — what `open` makes of the line ends of a file.
* `splitText` — `t.split(sep)` for a longer separator.  `splitText_intercalate`: texts without
  the first character of the separator, joined with it, are read back.
* `contains` — `sub in t`.
-/

namespace PyText

/-! ## Pieces that end with a character -/

/-- `t.split(c)[:-1]`. -/
def terminated (c : Char) (t : List Char) : List (List Char) := (t.splitOn c).dropLast

theorem terminated_append_cons {c : Char} {l : List Char} (h : c ∉ l) (t : List Char) :
    terminated c (l ++ c :: t) = l :: terminated c t := by
  rw [terminated, List.splitOn_append_cons_self_of_not_mem h,
    List.dropLast_cons_of_ne_nil (List.splitOn_ne_nil c t), terminated]

/-- A file with these lines. -/
def unlines (ls : List (List Char)) : List Char := ls.flatMap fun l => l ++ ['\n']

/-- Lines are read back. -/
theorem terminated_unlines {ls : List (List Char)} (h : ∀ l ∈ ls, '\n' ∉ l) :
    terminated '\n' (unlines ls) = ls := by
  induction ls with
  | nil => rfl
  | cons l ls ih =>
    have hl : unlines (l :: ls) = l ++ '\n' :: unlines ls := by simp [unlines]
    rw [hl, terminated_append_cons (h l List.mem_cons_self),
      ih fun x hx => h x (List.mem_cons_of_mem l hx)]

theorem length_terminated_append_cons (c : Char) (l t : List Char) :
    (terminated c (l ++ c :: t)).length = (l.splitOn c).length + (terminated c t).length := by
  rw [terminated, List.splitOn_append_cons_self,
    List.dropLast_append_of_ne_nil (List.splitOn_ne_nil c t), List.length_append, terminated]

theorem length_splitOn_pos (c : Char) (l : List Char) : 0 < (l.splitOn c).length :=
  List.length_pos_of_ne_nil (List.splitOn_ne_nil c l)

theorem one_lt_length_splitOn {c : Char} {l : List Char} (h : c ∈ l) :
    1 < (l.splitOn c).length := by
  obtain ⟨u, v, rfl⟩ := List.append_of_mem h
  rw [List.splitOn_append_cons_self, List.length_append]
  have hu := length_splitOn_pos c u
  have hv := length_splitOn_pos c v
  omega

theorem length_le_terminated_unlines (ls : List (List Char)) :
    ls.length ≤ (terminated '\n' (unlines ls)).length := by
  induction ls with
  | nil => exact Nat.zero_le _
  | cons l ls ih =>
    have hl : unlines (l :: ls) = l ++ '\n' :: unlines ls := by simp [unlines]
    have hpos := length_splitOn_pos '\n' l
    rw [hl, length_terminated_append_cons, List.length_cons]
    omega

/-- If as many lines are read as were written, no line was broken. -/
theorem lines_of_length_terminated {ls : List (List Char)}
    (h : (terminated '\n' (unlines ls)).length = ls.length) : ∀ l ∈ ls, '\n' ∉ l := by
  induction ls with
  | nil => simp
  | cons l ls ih =>
    have hl : unlines (l :: ls) = l ++ '\n' :: unlines ls := by simp [unlines]
    rw [hl, length_terminated_append_cons, List.length_cons] at h
    have hpos := length_splitOn_pos '\n' l
    have hle := length_le_terminated_unlines ls
    intro x hx
    rcases List.mem_cons.1 hx with rfl | hx
    · intro hmem
      have hone := one_lt_length_splitOn hmem
      omega
    · exact ih (by omega) x hx

theorem splitOn_of_notMem {c : Char} {t : List Char} (h : c ∉ t) : t.splitOn c = [t] := by
  simpa using List.splitOn_intercalate c (show ∀ l ∈ [t], c ∉ l by simpa using h)
    (List.cons_ne_nil t [])

/-- The pieces of a text have its characters, without the separator. -/
theorem mem_of_mem_splitOn {c x : Char} {l t : List Char} (hl : l ∈ t.splitOn c) (hx : x ∈ l) :
    x ∈ t ∧ x ≠ c := by
  induction t generalizing l with
  | nil =>
    rw [List.splitOn_nil, List.mem_singleton] at hl
    subst hl
    cases hx
  | cons d t ih =>
    rw [List.splitOn, List.splitOnP_cons_eq_if_modifyHead, ← List.splitOn] at hl
    split at hl
    · rcases List.mem_cons.1 hl with rfl | hl
      · cases hx
      · exact ⟨List.mem_cons_of_mem d (ih hl hx).1, (ih hl hx).2⟩
    · rename_i hd
      cases hsplit : t.splitOn c with
      | nil => exact absurd hsplit (List.splitOn_ne_nil c t)
      | cons l' ls =>
        rw [hsplit, List.modifyHead_cons] at hl
        rcases List.mem_cons.1 hl with rfl | hl
        · rcases List.mem_cons.1 hx with rfl | hx
          · exact ⟨List.mem_cons_self, by simpa using hd⟩
          · have hmem := ih (l := l') (by simp [hsplit]) hx
            exact ⟨List.mem_cons_of_mem d hmem.1, hmem.2⟩
        · have hmem := ih (by simp [hsplit, hl]) hx
          exact ⟨List.mem_cons_of_mem d hmem.1, hmem.2⟩

/-! ## Line ends -/

/-- What the text mode of `open` makes of the line ends. -/
def universalNewlines : List Char → List Char
  | [] => []
  | '\r' :: '\n' :: t => '\n' :: universalNewlines t
  | c :: t => (if c = '\r' then '\n' else c) :: universalNewlines t

theorem notMem_universalNewlines (t : List Char) : '\r' ∉ universalNewlines t := by
  induction t using universalNewlines.induct with
  | case1 => simp [universalNewlines]
  | case2 t ih => simpa [universalNewlines] using ih
  | case3 c t hne ih =>
    rw [universalNewlines.eq_3 c t hne, List.mem_cons, not_or]
    refine ⟨?_, ih⟩
    split
    · decide
    · rename_i hc
      exact fun h => hc h.symm

theorem universalNewlines_eq_self {t : List Char} (h : '\r' ∉ t) : universalNewlines t = t := by
  induction t using universalNewlines.induct with
  | case1 => rfl
  | case2 t ih => simp at h
  | case3 c t hne ih =>
    rw [List.mem_cons, not_or] at h
    rw [universalNewlines.eq_3 c t hne, ih h.2, if_neg fun hc => h.1 hc.symm]

/-- A line that does not end with a carriage return ends where it ends. -/
theorem universalNewlines_append {t : List Char} (h : t.getLast? ≠ some '\r') (u : List Char) :
    universalNewlines (t ++ '\n' :: u) = universalNewlines t ++ '\n' :: universalNewlines u := by
  induction t using universalNewlines.induct with
  | case1 => simp [universalNewlines]
  | case2 t ih =>
    simp only [List.cons_append, universalNewlines, List.cons.injEq, true_and]
    apply ih
    cases t with
    | nil => simp
    | cons d t => simpa using h
  | case3 c t hne ih =>
    cases t with
    | nil =>
      have hc : c ≠ '\r' := by simpa using h
      simp [universalNewlines, hc]
    | cons d t =>
      have hne' : ∀ t', c = '\r' → d :: t ++ '\n' :: u = '\n' :: t' → False := by
        intro t' hc hd
        exact hne t hc (by rw [(List.cons.inj hd).1])
      rw [List.cons_append, universalNewlines.eq_3 c _ hne', ih (by simpa using h),
        universalNewlines.eq_3 c _ hne]
      rfl

/-- The lines of a file, if no line that was written ends with a carriage return: a line that has
line ends is read as several. -/
theorem terminated_universalNewlines {ls : List (List Char)}
    (h : ∀ l ∈ ls, l.getLast? ≠ some '\r') :
    terminated '\n' (universalNewlines (unlines ls)) =
      ls.flatMap fun l => (universalNewlines l).splitOn '\n' := by
  induction ls with
  | nil => rfl
  | cons l ls ih =>
    have hl : unlines (l :: ls) = l ++ '\n' :: unlines ls := by simp [unlines]
    rw [hl, universalNewlines_append (h l List.mem_cons_self), terminated,
      List.splitOn_append_cons_self, List.dropLast_append_of_ne_nil (List.splitOn_ne_nil _ _),
      ← terminated, ih fun x hx => h x (List.mem_cons_of_mem l hx), List.flatMap_cons]

/-- Lines without line ends of any kind are read back. -/
theorem terminated_universalNewlines_unlines {ls : List (List Char)}
    (h : ∀ l ∈ ls, '\n' ∉ l ∧ '\r' ∉ l) :
    terminated '\n' (universalNewlines (unlines ls)) = ls := by
  have hcr : '\r' ∉ unlines ls := by
    intro hmem
    obtain ⟨l, hl, hc⟩ := List.mem_flatMap.1 hmem
    rcases List.mem_append.1 hc with hc | hc
    · exact (h l hl).2 hc
    · exact absurd hc (by decide)
  rw [universalNewlines_eq_self hcr]
  exact terminated_unlines fun l hl => (h l hl).1

/-! ## Longer separators -/

/-- `sub in t`. -/
def contains (sub : List Char) : List Char → Bool
  | [] => sub.isEmpty
  | c :: cs => sub.isPrefixOf (c :: cs) || contains sub cs

/-- The loop of `split`: `skip` more characters belong to a separator. -/
def splitTextFrom (sep : List Char) : Nat → List Char → List (List Char)
  | _, [] => [[]]
  | skip + 1, _ :: cs => splitTextFrom sep skip cs
  | 0, c :: cs =>
      if sep.isPrefixOf (c :: cs) then [] :: splitTextFrom sep (sep.length - 1) cs
      else (splitTextFrom sep 0 cs).modifyHead (c :: ·)

/-- `t.split(sep)`, for a separator that is not empty. -/
def splitText (sep t : List Char) : List (List Char) := splitTextFrom sep 0 t

theorem contains_append_left {sub : List Char} (t : List Char) {w : List Char}
    (h : contains sub w = true) : contains sub (t ++ w) = true := by
  induction t with
  | nil => exact h
  | cons c t ih => simp [contains, ih]

theorem contains_self_append {sub : List Char} (hne : sub ≠ []) (w : List Char) :
    contains sub (sub ++ w) = true := by
  cases sub with
  | nil => exact absurd rfl hne
  | cons c sub => simp [contains]

/-- A text without a character contains no text that begins with it. -/
theorem contains_eq_false {c : Char} {sub t : List Char} (h : c ∉ t) :
    contains (c :: sub) t = false := by
  induction t with
  | nil => rfl
  | cons d t ih =>
    rw [List.mem_cons, not_or] at h
    simp [contains, List.isPrefixOf, h.1, ih h.2]

theorem splitTextFrom_length_append {sep : List Char} (u w : List Char) :
    splitTextFrom sep u.length (u ++ w) = splitTextFrom sep 0 w := by
  induction u with
  | nil => rfl
  | cons c u ih => exact ih

theorem splitText_of_notMem {c : Char} {sep t : List Char} (h : c ∉ t) :
    splitText (c :: sep) t = [t] := by
  unfold splitText
  induction t with
  | nil => rfl
  | cons d t ih =>
    rw [List.mem_cons, not_or] at h
    rw [splitTextFrom, if_neg (by simp [h.1]), ih h.2]
    rfl

theorem splitText_append_sep {c : Char} {sep t : List Char} (h : c ∉ t) (w : List Char) :
    splitText (c :: sep) (t ++ (c :: sep) ++ w) = t :: splitText (c :: sep) w := by
  unfold splitText
  induction t with
  | nil =>
    have hpre : (c :: sep).isPrefixOf (c :: (sep ++ w)) = true := by simp
    rw [List.nil_append, List.cons_append, splitTextFrom, if_pos hpre, List.length_cons,
      Nat.add_sub_cancel, splitTextFrom_length_append]
  | cons d t ih =>
    rw [List.mem_cons, not_or] at h
    rw [List.cons_append, List.cons_append, splitTextFrom, if_neg (by simp [h.1]), ih h.2]
    rfl

/-- **Joined texts are read back.** -/
theorem splitText_intercalate {c : Char} {sep : List Char} {ts : List (List Char)} (hne : ts ≠ [])
    (h : ∀ t ∈ ts, c ∉ t) : splitText (c :: sep) ((c :: sep).intercalate ts) = ts := by
  induction ts with
  | nil => exact absurd rfl hne
  | cons t ts ih =>
    have ht : c ∉ t := h t List.mem_cons_self
    cases ts with
    | nil => rw [List.intercalate_singleton, splitText_of_notMem ht]
    | cons t' ts =>
      rw [List.intercalate_cons_cons, splitText_append_sep ht,
        ih (List.cons_ne_nil _ _) fun x hx => h x (List.mem_cons_of_mem t hx)]

/-- Joining by a loop: the separator before every text, and then without the first one. -/
theorem drop_flatMap_sep (sep : List Char) (ts : List (List Char)) :
    (ts.flatMap fun t => sep ++ t).drop sep.length = sep.intercalate ts := by
  cases ts with
  | nil => simp
  | cons t ts =>
    rw [List.flatMap_cons, List.append_assoc, List.drop_left]
    induction ts generalizing t with
    | nil => simp
    | cons t' ts ih =>
      rw [List.flatMap_cons, List.intercalate_cons_cons, ← ih t']
      simp

/-- Two or more joined texts contain the separator. -/
theorem contains_intercalate {sep t t' : List Char} (hne : sep ≠ []) (ts : List (List Char)) :
    contains sep (sep.intercalate (t :: t' :: ts)) = true := by
  rw [List.intercalate_cons_cons, List.append_assoc]
  exact contains_append_left t (contains_self_append hne _)

/-- The characters of joined texts are those of the texts and of the separator. -/
theorem notMem_intercalate {c : Char} {sep : List Char} {ts : List (List Char)} (hsep : c ∉ sep)
    (h : ∀ t ∈ ts, c ∉ t) : c ∉ sep.intercalate ts := by
  induction ts with
  | nil => simp
  | cons t ts ih =>
    have ht : c ∉ t := h t List.mem_cons_self
    cases ts with
    | nil => simpa using ht
    | cons t' ts =>
      rw [List.intercalate_cons_cons]
      simp only [List.mem_append, ht, hsep, false_or]
      exact ih fun x hx => h x (List.mem_cons_of_mem t hx)

end PyText
