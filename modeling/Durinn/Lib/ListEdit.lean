import Mathlib.Data.List.Basic

/-!
# Editing a list around one of its elements

A list whose elements are found by equality, as the nodes of a linked list are by identity.  New
elements are put before or after a given one, and the element itself can be moved.

* `insertBefore`, `insertAfter`, `moveBefore` — the operations on the list.
* `Edit`, `Edit.apply` — edits around one element `x`; `Edit.around` is the same on the two lists of
  new elements on either side of `x`.
* `foldl_apply` — so a sequence of edits around `x` leaves everything else where it is.
-/

namespace ListEdit

variable {α : Type} [DecidableEq α]

/-- Insert `new` before `x`. -/
def insertBefore (x new : α) : List α → List α
  | [] => []
  | y :: l => if y = x then new :: y :: l else y :: insertBefore x new l

/-- Insert `new` after `x`. -/
def insertAfter (x new : α) : List α → List α
  | [] => []
  | y :: l => if y = x then y :: new :: l else y :: insertAfter x new l

/-- Take `x` out and insert it before `y`. -/
def moveBefore (x y : α) (l : List α) : List α := insertBefore y x (l.erase x)

variable {x y new : α} {l r : List α}

theorem insertBefore_append (h : x ∉ l) :
    insertBefore x new (l ++ r) = l ++ insertBefore x new r := by
  induction l with
  | nil => rfl
  | cons y l ih =>
    rw [List.mem_cons, not_or] at h
    rw [List.cons_append, insertBefore, if_neg (Ne.symm h.1), ih h.2, List.cons_append]

theorem insertBefore_cons_self : insertBefore x new (x :: r) = new :: x :: r := if_pos rfl

theorem insertAfter_append (h : x ∉ l) :
    insertAfter x new (l ++ r) = l ++ insertAfter x new r := by
  induction l with
  | nil => rfl
  | cons y l ih =>
    rw [List.mem_cons, not_or] at h
    rw [List.cons_append, insertAfter, if_neg (Ne.symm h.1), ih h.2, List.cons_append]

theorem insertAfter_cons_self : insertAfter x new (x :: r) = x :: new :: r := if_pos rfl

/-- An element that is in the first of two lists is found there. -/
theorem insertAfter_append_of_mem (h : x ∈ l) :
    insertAfter x new (l ++ r) = insertAfter x new l ++ r := by
  induction l with
  | nil => cases h
  | cons y l ih =>
    rw [List.cons_append, insertAfter, insertAfter]
    split
    · rfl
    · next hne =>
      rw [ih ((List.mem_cons.1 h).resolve_left (Ne.symm hne)), List.cons_append]

theorem mem_insertAfter {z : α} (h : z ∈ insertAfter x new l) : z = new ∨ z ∈ l := by
  induction l with
  | nil => cases h
  | cons y l ih =>
    rw [insertAfter] at h
    split at h
    · simp only [List.mem_cons] at h ⊢
      tauto
    · rcases List.mem_cons.1 h with h | h
      · exact Or.inr (h ▸ List.mem_cons_self)
      · exact (ih h).imp_right (List.mem_cons_of_mem y)

theorem moveBefore_append (hxl : x ∉ l) (hyl : y ∉ l) {m : List α} (hxm : x ∉ m) (hne : y ≠ x) :
    moveBefore x y (l ++ (y :: m) ++ x :: r) = l ++ x :: (y :: m ++ r) := by
  have hnot : x ∉ l ++ y :: m := by
    simp only [List.mem_append, List.mem_cons, not_or]
    exact ⟨hxl, hne.symm, hxm⟩
  rw [moveBefore, List.erase_append_right _ hnot, List.erase_cons_head, List.append_assoc,
    insertBefore_append hyl, List.cons_append, insertBefore_cons_self]

/-! ## Edits around an element -/

/-- An edit around an element. -/
inductive Edit (α : Type) where
  /-- Insert a new element before it. -/
  | before (new : α)
  /-- Insert a new element after it. -/
  | after (new : α)
  /-- Insert a new element after another one. -/
  | afterOther (y new : α)
  /-- Move the element before another one. -/
  | moveBefore (y : α)

namespace Edit

/-- The edit of the whole list. -/
def apply (x : α) (l : List α) : Edit α → List α
  | .before new => insertBefore x new l
  | .after new => insertAfter x new l
  | .afterOther y new => insertAfter y new l
  | .moveBefore y => ListEdit.moveBefore x y l

/-- The edit of the new elements before and after `x`.  Another element has to be a new one
before `x`. -/
def around (s : List α × List α) : Edit α → Option (List α × List α)
  | .before new => some (s.1 ++ [new], s.2)
  | .after new => some (s.1, new :: s.2)
  | .afterOther y new => if y ∈ s.1 then some (insertAfter y new s.1, s.2) else none
  | .moveBefore y =>
      if y ∈ s.1 then some (s.1.takeWhile (· ≠ y), s.1.dropWhile (· ≠ y) ++ s.2) else none

/-- The element that an edit inserts. -/
def new? : Edit α → Option α
  | .before new | .after new | .afterOther _ new => some new
  | .moveBefore _ => none

end Edit

theorem exists_dropWhile_ne (h : y ∈ l) :
    ∃ m, l.dropWhile (· ≠ y) = y :: m ∧ y ∉ l.takeWhile (· ≠ y) := by
  induction l with
  | nil => cases h
  | cons z l ih =>
    by_cases hz : z = y
    · exact ⟨l, by simp [hz], by simp [hz]⟩
    · obtain ⟨m, hm, hnot⟩ := ih ((List.mem_cons.1 h).resolve_left (Ne.symm hz))
      refine ⟨m, by simpa [List.dropWhile_cons, hz] using hm, ?_⟩
      rw [List.takeWhile_cons_of_pos (by simpa using hz), List.mem_cons, not_or]
      exact ⟨Ne.symm hz, hnot⟩

theorem mem_of_around {e : Edit α} {s s' : List α × List α} (h : e.around s = some s') {z : α}
    (hz : z ∈ s'.1) : z ∈ e.new? ∨ z ∈ s.1 := by
  cases e with
  | before new =>
    cases h
    rcases List.mem_append.1 hz with hz | hz
    · exact Or.inr hz
    · exact Or.inl (List.mem_singleton.1 hz ▸ rfl)
  | after new =>
    cases h
    exact Or.inr hz
  | afterOther y new =>
    simp only [Edit.around, Option.ite_none_right_eq_some, Option.some.injEq] at h
    obtain ⟨-, rfl⟩ := h
    rcases mem_insertAfter hz with rfl | hz
    · exact Or.inl rfl
    · exact Or.inr hz
  | moveBefore y =>
    simp only [Edit.around, Option.ite_none_right_eq_some, Option.some.injEq] at h
    obtain ⟨-, rfl⟩ := h
    exact Or.inr ((List.takeWhile_sublist _).subset hz)

/-- One edit, if the new elements are not among those before. -/
theorem apply_around {e : Edit α} {s s' : List α × List α} (h : e.around s = some s')
    (hx : x ∉ l) (hold : ∀ z ∈ s.1, z ∉ l ∧ z ≠ x) :
    e.apply x (l ++ s.1 ++ x :: (s.2 ++ r)) = l ++ s'.1 ++ x :: (s'.2 ++ r) := by
  obtain ⟨b, a⟩ := s
  have hxb : x ∉ l ++ b := by
    rw [List.mem_append, not_or]
    exact ⟨hx, fun hmem => (hold x hmem).2 rfl⟩
  cases e with
  | before new =>
    cases h
    rw [Edit.apply, insertBefore_append hxb, insertBefore_cons_self]
    simp
  | after new =>
    cases h
    rw [Edit.apply, insertAfter_append hxb, insertAfter_cons_self]
    rfl
  | afterOther y new =>
    simp only [Edit.around, Option.ite_none_right_eq_some, Option.some.injEq] at h
    obtain ⟨hy, rfl⟩ := h
    rw [Edit.apply, List.append_assoc, insertAfter_append (hold y hy).1,
      insertAfter_append_of_mem hy, List.append_assoc]
  | moveBefore y =>
    simp only [Edit.around, Option.ite_none_right_eq_some, Option.some.injEq] at h
    obtain ⟨hy, rfl⟩ := h
    obtain ⟨m, hm, hnot⟩ := exists_dropWhile_ne hy
    have hb : b = b.takeWhile (· ≠ y) ++ (y :: m) := by
      rw [← hm, List.takeWhile_append_dropWhile]
    have hmem : ∀ z ∈ m, z ∈ b := fun z hz => by
      rw [hb]
      exact List.mem_append_right _ (List.mem_cons_of_mem y hz)
    have hyl : y ∉ l ++ b.takeWhile (· ≠ y) := by
      rw [List.mem_append, not_or]
      exact ⟨(hold y hy).1, hnot⟩
    have hxl : x ∉ l ++ b.takeWhile (· ≠ y) := fun hmem =>
      hxb (List.mem_append.2 ((List.mem_append.1 hmem).imp_right
        ((List.takeWhile_sublist _).subset ·)))
    have hmove := moveBefore_append (r := a ++ r) hxl hyl
      (fun hx' => (hold x (hmem x hx')).2 rfl) (hold y hy).2
    rw [Edit.apply, hm]
    conv_lhs => rw [hb]
    simpa only [List.append_assoc, List.cons_append] using hmove

theorem around_cons {e : Edit α} {es : List (Edit α)} {s s₁ s' : List α × List α}
    (he : e.around s = some s₁) (hes : es.foldlM Edit.around s₁ = some s') :
    (e :: es).foldlM Edit.around s = some s' := by
  rw [List.foldlM_cons]
  show (e.around s).bind _ = _
  rw [he, Option.bind_some, hes]

theorem around_append {es es' : List (Edit α)} {s s₁ s' : List α × List α}
    (hes : es.foldlM Edit.around s = some s₁) (hes' : es'.foldlM Edit.around s₁ = some s') :
    (es ++ es').foldlM Edit.around s = some s' := by
  rw [List.foldlM_append, hes]
  exact hes'

/-- **Edits around an element leave everything else where it is.** -/
theorem foldl_apply {es : List (Edit α)} {s s' : List α × List α}
    (h : es.foldlM Edit.around s = some s') (hx : x ∉ l) (hold : ∀ z ∈ s.1, z ∉ l ∧ z ≠ x)
    (hnew : ∀ e ∈ es, ∀ z ∈ e.new?, z ∉ l ∧ z ≠ x) :
    es.foldl (Edit.apply x) (l ++ s.1 ++ x :: (s.2 ++ r)) = l ++ s'.1 ++ x :: (s'.2 ++ r) := by
  induction es generalizing s with
  | nil =>
    cases h
    rfl
  | cons e es ih =>
    rw [List.foldlM_cons, Option.bind_eq_bind, Option.bind_eq_some_iff] at h
    obtain ⟨s₁, he, hes⟩ := h
    rw [List.forall_mem_cons] at hnew
    rw [List.foldl_cons, apply_around he hx hold]
    refine ih hes (fun z hz => ?_) hnew.2
    rcases mem_of_around he hz with hz | hz
    · exact hnew.1 z hz
    · exact hold z hz

end ListEdit
