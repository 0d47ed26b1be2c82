import Mathlib

/-!
# Mark-and-drain buffers: a general theory

A *mark-and-drain buffer* collects items, lets events mark some of the items it
holds, and hands the marked ones over, in the order of their arrival, whenever
it is told to drain.  Draining can also be unconditional.  A write-back cache is
the standard example: stores arrive, flushes mark them, a fence drains them.

The theory is about one question: what does a buffer hold, and what has it
handed over and in which order, after a given sequence of events?

* `arrivals` lists the items of a sequence of events, each with the events that
  follow its arrival; `marked` and `gone` decide, from those events alone, what
  has become of the item.
* `pending_run` — the buffer holds exactly the items that are not `gone`, in
  order of arrival, each with its mark.
* `mem_drained_run` — it has handed over exactly the items that are `gone`.
* `drained_filter_of_inOrder` — on a class of items among which no later one is
  handed over before an earlier one (`InOrder`), the items are handed over in
  order of arrival.  `inOrder_of_uniform`: marks that treat the whole class alike
  are enough.
* `drained_append_pending_run` — without unconditional drains, what was handed
  over followed by what is left is the list of arrivals, stably sorted by the
  number of drains that followed the item's first mark (`drainLag`).
-/

namespace MarkBuffer

variable {α : Type*}

/-! ## Buffers and their events -/

/-- What can happen to a buffer. -/
inductive Event (α : Type*) where
  /-- An item arrives, unmarked. -/
  | put (a : α)
  /-- Every held item that satisfies `p` becomes marked. -/
  | mark (p : α → Bool)
  /-- The marked items are handed over. -/
  | drain
  /-- All items are handed over. -/
  | drainAll
  /-- Nothing happens. -/
  | idle

/-- A buffer: the items it holds, each with its mark, and the items it has handed
over so far, both in order. -/
structure Buffer (α : Type*) where
  pending : List (α × Bool)
  drained : List α

namespace Buffer

/-- The buffer at the start. -/
def empty : Buffer α := ⟨[], []⟩

/-- One event. -/
def step (b : Buffer α) : Event α → Buffer α
  | .put a => { b with pending := b.pending ++ [(a, false)] }
  | .mark p => { b with pending := b.pending.map fun e => (e.1, e.2 || p e.1) }
  | .drain =>
      { pending := b.pending.filter fun e => !e.2
        drained := b.drained ++ (b.pending.filter fun e => e.2).map Prod.fst }
  | .drainAll => { pending := [], drained := b.drained ++ b.pending.map Prod.fst }
  | .idle => b

/-- The buffer after a sequence of events. -/
def run (b : Buffer α) (evs : List (Event α)) : Buffer α := evs.foldl step b

@[simp] theorem run_nil (b : Buffer α) : b.run [] = b := rfl

@[simp] theorem run_append_singleton (b : Buffer α) (evs : List (Event α)) (e : Event α) :
    b.run (evs ++ [e]) = (b.run evs).step e := by
  simp [run]

/-- What has been handed over stays handed over. -/
theorem drained_prefix_run (b : Buffer α) (evs : List (Event α)) :
    b.drained <+: (b.run evs).drained := by
  induction evs using List.reverseRecOn with
  | nil => exact List.prefix_rfl
  | append_singleton evs e ih =>
    rw [run_append_singleton]
    refine ih.trans ?_
    cases e with
    | drain => exact List.prefix_append _ _
    | drainAll => exact List.prefix_append _ _
    | _ => exact List.prefix_rfl

end Buffer

/-! ## What becomes of an item -/

/-- Does one of the events mark the item? -/
def marked (a : α) : List (Event α) → Bool
  | [] => false
  | .mark p :: v => p a || marked a v
  | _ :: v => marked a v

/-- Is one of the events a `drain`? -/
def hasDrain : List (Event α) → Bool
  | [] => false
  | .drain :: _ => true
  | _ :: v => hasDrain v

/-- Do the events that follow an item's arrival hand it over? -/
def gone (a : α) : List (Event α) → Bool
  | [] => false
  | .drainAll :: _ => true
  | .mark p :: v => (p a && hasDrain v) || gone a v
  | _ :: v => gone a v

/-- The items that arrive, in order, each with the events that follow it. -/
def arrivals : List (Event α) → List (α × List (Event α))
  | [] => []
  | .put a :: v => (a, v) :: arrivals v
  | _ :: v => arrivals v

theorem marked_append (a : α) (v w : List (Event α)) :
    marked a (v ++ w) = (marked a v || marked a w) := by
  induction v with
  | nil => simp [marked]
  | cons e v ih => cases e <;> simp [marked, ih, Bool.or_assoc]

theorem hasDrain_append (v w : List (Event α)) :
    hasDrain (v ++ w) = (hasDrain v || hasDrain w) := by
  induction v with
  | nil => simp [hasDrain]
  | cons e v ih => cases e <;> simp [hasDrain, ih]

/-- An item is handed over by the next event exactly if that event drains it. -/
theorem gone_append_singleton (a : α) (v : List (Event α)) (e : Event α) :
    gone a (v ++ [e]) = (gone a v ||
      match e with
      | .drain => marked a v
      | .drainAll => true
      | _ => false) := by
  induction v with
  | nil => cases e <;> simp [gone, marked, hasDrain]
  | cons d v ih =>
    cases d with
    | mark p =>
      simp only [List.cons_append, gone, marked, ih, hasDrain_append]
      cases e <;> simp [hasDrain]
      cases p a <;> cases hasDrain v <;> cases gone a v <;> simp
    | drainAll => simp [gone]
    | put b => simp only [List.cons_append, gone, marked, ih]
    | drain => simp only [List.cons_append, gone, marked, ih]
    | idle => simp only [List.cons_append, gone, marked, ih]

theorem arrivals_append (u w : List (Event α)) :
    arrivals (u ++ w) = ((arrivals u).map fun x => (x.1, x.2 ++ w)) ++ arrivals w := by
  induction u with
  | nil => simp [arrivals]
  | cons e u ih => cases e <;> simp [arrivals, ih]

/-- An item has arrived with `v` after it exactly if the events split there. -/
theorem mem_arrivals {a : α} {v : List (Event α)} :
    ∀ {evs : List (Event α)}, (a, v) ∈ arrivals evs ↔ ∃ u, evs = u ++ .put a :: v := by
  intro evs
  induction evs with
  | nil => simp [arrivals]
  | cons e evs ih =>
    have hskip : (∃ u, evs = u ++ Event.put a :: v) →
        ∃ u, e :: evs = u ++ Event.put a :: v := by
      rintro ⟨u, rfl⟩
      exact ⟨e :: u, rfl⟩
    have hback : (∃ u, e :: evs = u ++ Event.put a :: v) →
        (e = .put a ∧ evs = v) ∨ ∃ u, evs = u ++ Event.put a :: v := by
      rintro ⟨u, hu⟩
      cases u with
      | nil => exact Or.inl (by simpa using hu)
      | cons d u => exact Or.inr ⟨u, by simpa using (List.cons.inj hu).2⟩
    cases e with
    | put b =>
      rw [arrivals, List.mem_cons, ih]
      constructor
      · rintro (h | h)
        · obtain ⟨rfl, rfl⟩ := Prod.mk.inj h
          exact ⟨[], rfl⟩
        · exact hskip h
      · intro h
        rcases hback h with ⟨h1, rfl⟩ | h1
        · exact Or.inl (by rw [Event.put.inj h1])
        · exact Or.inr h1
    | _ =>
      simp only [arrivals, ih]
      refine ⟨hskip, fun h => ?_⟩
      rcases hback h with ⟨h1, -⟩ | h1
      · cases h1
      · exact h1

section Map

variable {β : Type*} {f : β → Event α} {mk : α → β}

/-- When the events are images of operations, and the arrivals those of the operations `mk a`,
the events split at an arrival where the operations do. -/
theorem map_eq_append_put (hf : ∀ b a, f b = .put a ↔ b = mk a) {l : List β} {a : α}
    {u' w : List (Event α)} (h : l.map f = u' ++ .put a :: w) :
    ∃ u v, l = u ++ mk a :: v ∧ u' = u.map f ∧ w = v.map f := by
  obtain ⟨u, v', rfl, rfl, hv⟩ := List.map_eq_append_iff.1 h
  obtain ⟨b, v, rfl, hb, rfl⟩ := List.map_eq_cons_iff.1 hv
  rw [(hf b a).1 hb]
  exact ⟨u, v, rfl, rfl, rfl⟩

theorem mem_arrivals_map (hf : ∀ b a, f b = .put a ↔ b = mk a) {l : List β} {a : α}
    {w : List (Event α)} :
    (a, w) ∈ arrivals (l.map f) ↔ ∃ u v, l = u ++ mk a :: v ∧ w = v.map f := by
  rw [mem_arrivals]
  constructor
  · rintro ⟨u', h⟩
    obtain ⟨u, v, rfl, -, rfl⟩ := map_eq_append_put hf h
    exact ⟨u, v, rfl, rfl⟩
  · rintro ⟨u, v, rfl, rfl⟩
    exact ⟨u.map f, by rw [List.map_append, List.map_cons, (hf _ a).2 rfl]⟩

end Map

/-- The events split where the list of arrivals does. -/
theorem arrivals_eq_append_cons {a : α} {w : List (Event α)} {l₂ : List (α × List (Event α))} :
    ∀ {evs : List (Event α)} {l₁ : List (α × List (Event α))},
      arrivals evs = l₁ ++ (a, w) :: l₂ → ∃ u, evs = u ++ .put a :: w ∧
        l₁ = ((arrivals u).map fun x => (x.1, x.2 ++ .put a :: w)) ∧ l₂ = arrivals w := by
  intro evs
  induction evs with
  | nil => intro l₁ h; simp [arrivals] at h
  | cons e evs ih =>
    intro l₁ h
    cases e with
    | put b =>
      rw [arrivals] at h
      cases l₁ with
      | nil =>
        obtain ⟨hx, rfl⟩ := List.cons.inj h
        obtain ⟨rfl, rfl⟩ := Prod.mk.inj hx
        exact ⟨[], rfl, rfl, rfl⟩
      | cons x l₁ =>
        obtain ⟨rfl, htail⟩ := List.cons.inj h
        obtain ⟨u, rfl, rfl, rfl⟩ := ih htail
        exact ⟨.put b :: u, rfl, rfl, rfl⟩
    | _ =>
      obtain ⟨u, rfl, rfl, rfl⟩ := ih h
      exact ⟨_ :: u, rfl, rfl, rfl⟩

/-! ## What a buffer holds and what it has handed over -/

open Buffer

/-- **The buffer holds exactly the items that are not gone**, in order of arrival,
each marked if an event after its arrival marked it. -/
theorem pending_run (evs : List (Event α)) :
    (empty.run evs).pending =
      ((arrivals evs).filter fun x => !gone x.1 x.2).map fun x => (x.1, marked x.1 x.2) := by
  induction evs using List.reverseRecOn with
  | nil => rfl
  | append_singleton evs e ih =>
    rw [run_append_singleton, arrivals_append]
    cases e with
    | put a =>
      simp [step, ih, arrivals, List.filter_map, Function.comp_def, gone_append_singleton,
        marked_append, marked, gone]
    | mark p =>
      simp [step, ih, arrivals, List.filter_map, Function.comp_def, gone_append_singleton,
        marked_append, marked]
    | drain =>
      simp only [step, ih, arrivals, List.append_nil, List.filter_map, Function.comp_def,
        gone_append_singleton, marked_append, marked, Bool.or_false, List.map_map,
        List.filter_filter, Bool.not_or]
      simp only [Bool.and_comm]
    | drainAll => simp [step, arrivals, List.filter_map, Function.comp_def, gone_append_singleton]
    | idle =>
      simp [step, ih, arrivals, List.filter_map, Function.comp_def, gone_append_singleton,
        marked_append, marked]

theorem mem_pending_run {a : α} {m : Bool} (evs : List (Event α)) :
    (a, m) ∈ (empty.run evs).pending ↔
      ∃ v, (a, v) ∈ arrivals evs ∧ gone a v = false ∧ marked a v = m := by
  simp only [pending_run, List.mem_map, List.mem_filter, Prod.exists, Prod.mk.injEq,
    Bool.not_eq_true_eq_eq_false, and_assoc]
  constructor
  · rintro ⟨b, v, hmem, hgone, rfl, hm⟩
    exact ⟨v, hmem, hgone, hm⟩
  · rintro ⟨v, hmem, hgone, hm⟩
    exact ⟨a, v, hmem, hgone, rfl, hm⟩

/-- **The buffer has handed over exactly the items that are gone.** -/
theorem mem_drained_run {a : α} (evs : List (Event α)) :
    a ∈ (empty.run evs).drained ↔ ∃ v, (a, v) ∈ arrivals evs ∧ gone a v = true := by
  induction evs using List.reverseRecOn with
  | nil => simp [empty, arrivals]
  | append_singleton evs e ih =>
    rw [run_append_singleton, arrivals_append]
    cases e with
    | put b =>
      simp only [step, ih, arrivals, List.mem_append, List.mem_map, List.mem_singleton]
      constructor
      · rintro ⟨v, hv, hg⟩
        exact ⟨v ++ [.put b], Or.inl ⟨(a, v), hv, rfl⟩, by simp [gone_append_singleton, hg]⟩
      · rintro ⟨w, (⟨x, hx, hxw⟩ | hw), hg⟩
        · obtain ⟨rfl, rfl⟩ := Prod.mk.inj hxw
          exact ⟨x.2, hx, by simpa [gone_append_singleton] using hg⟩
        · rw [(Prod.mk.inj hw).2, gone] at hg
          cases hg
    | mark p => simp [step, ih, arrivals, gone_append_singleton]
    | idle => simp [step, ih, arrivals, gone_append_singleton]
    | drain =>
      simp only [step, List.mem_append, ih, pending_run, arrivals, List.append_nil]
      simp [gone_append_singleton]
      grind
    | drainAll =>
      simp only [step, List.mem_append, ih, pending_run, arrivals, List.append_nil]
      simp [gone_append_singleton]
      grind

/-! ## Classes of items that are handed over in order -/

/-- Among the items that satisfy `T`, no later one is ever gone while an earlier one
is still held. -/
def InOrder (T : α → Bool) (evs : List (Event α)) : Prop :=
  ∀ pre, pre <+: evs → (arrivals pre).Pairwise fun x y =>
    T x.1 = true → T y.1 = true → gone y.1 y.2 = true → gone x.1 x.2 = true

theorem InOrder.of_append {T : α → Bool} {evs w : List (Event α)} (h : InOrder T (evs ++ w)) :
    InOrder T evs :=
  fun pre hpre => h pre (hpre.trans (List.prefix_append evs w))

/-- Where a property never passes from a later element to an earlier one it lacks,
the elements that have it come first. -/
theorem filter_append_filter_not {β : Type*} {q : β → Bool} {l : List β}
    (h : l.Pairwise fun x y => q y = true → q x = true) :
    l.filter q ++ l.filter (fun x => !q x) = l := by
  induction l with
  | nil => rfl
  | cons x l ih =>
    obtain ⟨hx, hl⟩ := List.pairwise_cons.1 h
    by_cases hq : q x = true
    · simp [hq, ih hl]
    · have hnone : ∀ y ∈ l, q y = false := fun y hy => by
        cases hy' : q y
        · rfl
        · exact absurd (hx y hy hy') hq
      have h1 : l.filter q = [] := List.filter_eq_nil_iff.2 fun y hy => by simp [hnone y hy]
      have h2 : l.filter (fun y => !q y) = l :=
        List.filter_eq_self.2 fun y hy => by simp [hnone y hy]
      simp [hq, h1, h2]

/-- **Items that keep their order are handed over in order of arrival.** -/
theorem drained_filter_of_inOrder {T : α → Bool} {evs : List (Event α)} (h : InOrder T evs) :
    (empty.run evs).drained.filter T =
      ((arrivals evs).filter fun x => T x.1 && gone x.1 x.2).map Prod.fst := by
  induction evs using List.reverseRecOn with
  | nil => rfl
  | append_singleton evs e ih =>
    have ih := ih h.of_append
    rw [run_append_singleton, arrivals_append]
    -- among the arrivals in the class, those already gone come first
    have hsplit : ∀ r : α × List (Event α) → Bool,
        (arrivals evs).filter (fun x => T x.1 && (gone x.1 x.2 || r x)) =
          (arrivals evs).filter (fun x => T x.1 && gone x.1 x.2) ++
            (arrivals evs).filter (fun x => T x.1 && (!gone x.1 x.2 && r x)) := by
      intro r
      have hpw : (((arrivals evs).filter fun x => T x.1).filter
          fun x => gone x.1 x.2 || r x).Pairwise
            fun x y => gone y.1 y.2 = true → gone x.1 x.2 = true := by
        refine List.Pairwise.filter _ ?_
        rw [List.pairwise_filter]
        exact h evs (List.prefix_append evs [e])
      have hcut := filter_append_filter_not hpw
      simp only [List.filter_filter] at hcut
      have hl : (arrivals evs).filter (fun x => T x.1 && (gone x.1 x.2 || r x)) =
          (arrivals evs).filter (fun x => (gone x.1 x.2 || r x) && T x.1) := by
        simp only [Bool.and_comm]
      rw [hl, ← hcut]
      congr 1 <;> refine List.filter_congr fun x _ => ?_ <;>
        cases T x.1 <;> cases gone x.1 x.2 <;> simp
    cases e with
    | put a => simp [step, ih, arrivals, gone_append_singleton, gone, List.filter_map,
        Function.comp_def]
    | mark p => simp [step, ih, arrivals, gone_append_singleton, List.filter_map,
        Function.comp_def]
    | idle => simp [step, ih, arrivals, gone_append_singleton, List.filter_map,
        Function.comp_def]
    | drain =>
      simp only [step, List.filter_append, ih, pending_run, arrivals, List.append_nil]
      simp only [gone_append_singleton, List.filter_map, Function.comp_def, hsplit,
        List.map_append, List.map_map, List.filter_filter]
      simp only [Bool.and_comm (marked _ _)]
    | drainAll =>
      simp only [step, List.filter_append, ih, pending_run, arrivals, List.append_nil]
      simp only [gone_append_singleton, List.filter_map, Function.comp_def, hsplit,
        List.map_append, List.map_map, List.filter_filter, Bool.and_true]

/-- On such a class, what was handed over followed by what is left is the list of
arrivals. -/
theorem drained_filter_append_pending {T : α → Bool} {evs : List (Event α)}
    (h : InOrder T evs) :
    (empty.run evs).drained.filter T ++ ((empty.run evs).pending.map Prod.fst).filter T =
      ((arrivals evs).map Prod.fst).filter T := by
  have hpw : ((arrivals evs).filter fun x => T x.1).Pairwise
      fun x y => gone y.1 y.2 = true → gone x.1 x.2 = true := by
    rw [List.pairwise_filter]
    exact h evs List.prefix_rfl
  have hcut := filter_append_filter_not hpw
  rw [drained_filter_of_inOrder h, pending_run]
  simp only [List.filter_filter] at hcut
  simp only [List.filter_map, List.map_map, Function.comp_def, List.filter_filter]
  rw [← hcut, List.map_append]
  simp only [Bool.and_comm (T _)]

/-! ### Uniform marks -/

/-- Marks that do not distinguish `a` from `b` hand over `b` no later than `a`, if `b`
was there first. -/
theorem gone_of_suffix {a b : α} {v w : List (Event α)} (hvw : v <:+ w)
    (hp : ∀ p, Event.mark p ∈ v → p a = p b) (hg : gone a v = true) : gone b w = true := by
  obtain ⟨u, rfl⟩ := hvw
  have hsame : gone b v = true := by
    induction v with
    | nil => simp [gone] at hg
    | cons e v ih =>
      have hp' : ∀ p, Event.mark p ∈ v → p a = p b := fun p h => hp p (List.mem_cons_of_mem _ h)
      cases e with
      | mark p =>
        simp only [gone, Bool.or_eq_true, Bool.and_eq_true] at hg ⊢
        rcases hg with ⟨h1, h2⟩ | h1
        · exact Or.inl ⟨by rw [← hp p (by simp)]; exact h1, h2⟩
        · exact Or.inr (ih hp' h1)
      | drainAll => rfl
      | put c => exact ih hp' hg
      | drain => exact ih hp' hg
      | idle => exact ih hp' hg
  induction u with
  | nil => exact hsame
  | cons e u ih => cases e <;> simp [gone, ih]

/-- If every mark treats the items that satisfy `T` alike, they keep their order. -/
theorem inOrder_of_uniform {T : α → Bool} {evs : List (Event α)}
    (h : ∀ p, Event.mark p ∈ evs → ∀ a b, T a = true → T b = true → p a = p b) :
    InOrder T evs := by
  intro pre hpre
  have hmem : ∀ p, Event.mark p ∈ pre → ∀ a b, T a = true → T b = true → p a = p b :=
    fun p hp => h p (hpre.subset hp)
  clear hpre h
  induction pre with
  | nil => exact List.Pairwise.nil
  | cons e pre ih =>
    have ih := ih fun p hp => hmem p (List.mem_cons_of_mem _ hp)
    cases e with
    | put a =>
      refine List.pairwise_cons.2 ⟨?_, ih⟩
      rintro ⟨b, w⟩ hb ha hTb hg
      obtain ⟨u, hu⟩ := mem_arrivals.1 hb
      have hsuf : w <:+ pre := ⟨u ++ [.put b], by simp [hu]⟩
      exact gone_of_suffix hsuf
        (fun p hp => hmem p (List.mem_cons_of_mem _ (hsuf.subset hp)) b a hTb ha) hg
    | mark p => exact ih
    | drain => exact ih
    | drainAll => exact ih
    | idle => exact ih

/-! ## The order in which everything leaves -/

/-- The number of `drain` events. -/
def drains : List (Event α) → Nat
  | [] => 0
  | .drain :: v => drains v + 1
  | _ :: v => drains v

/-- The number of drains after the first event that marks the item: the larger it is,
the earlier the item was handed over, and it is zero for an item that still waits. -/
def drainLag (a : α) : List (Event α) → Nat
  | [] => 0
  | .mark p :: v => if p a then drains v else drainLag a v
  | _ :: v => drainLag a v

theorem drains_append (v w : List (Event α)) : drains (v ++ w) = drains v + drains w := by
  induction v with
  | nil => simp [drains]
  | cons e v ih => cases e <;> simp [drains, ih]; omega

theorem hasDrain_iff_drains_pos (v : List (Event α)) : hasDrain v = true ↔ 0 < drains v := by
  induction v with
  | nil => simp [hasDrain, drains]
  | cons e v ih => cases e <;> simp [hasDrain, drains, ih]

theorem drainLag_append_singleton (a : α) (v : List (Event α)) (e : Event α) :
    drainLag a (v ++ [e]) = drainLag a v + if marked a v then drains [e] else 0 := by
  induction v with
  | nil => cases e <;> simp [drainLag, marked, drains]
  | cons d v ih =>
    cases d with
    | mark p =>
      simp only [List.cons_append, drainLag, marked, ih, drains_append]
      by_cases hp : p a = true <;> simp [hp]
    | _ => by_cases hm : marked a v = true <;> simp_all [drainLag, marked]

theorem drainLag_eq_zero_of_not_marked {a : α} {v : List (Event α)} (h : marked a v = false) :
    drainLag a v = 0 := by
  induction v with
  | nil => rfl
  | cons e v ih =>
    cases e with
    | mark p =>
      simp only [marked, Bool.or_eq_false_iff] at h
      simp [drainLag, h.1, ih h.2]
    | _ => exact ih h

theorem drainLag_le_drains (a : α) (v : List (Event α)) : drainLag a v ≤ drains v := by
  induction v with
  | nil => simp [drainLag]
  | cons e v ih =>
    cases e with
    | mark p => simp only [drainLag, drains]; split <;> omega
    | drain => simp only [drainLag, drains]; omega
    | _ => simpa only [drainLag, drains] using ih

/-- Without unconditional drains, the items still held are those of lag zero. -/
theorem gone_iff_drainLag_pos {a : α} {v : List (Event α)} (hv : ∀ e ∈ v, e ≠ .drainAll) :
    gone a v = true ↔ 0 < drainLag a v := by
  induction v with
  | nil => simp [gone, drainLag]
  | cons e v ih =>
    have ih := ih fun d hd => hv d (List.mem_cons_of_mem _ hd)
    cases e with
    | mark p =>
      simp only [gone, drainLag, Bool.or_eq_true, Bool.and_eq_true, hasDrain_iff_drains_pos, ih]
      by_cases hp : p a = true
      · simp only [hp, true_and, if_true]
        refine ⟨fun h => ?_, Or.inl⟩
        rcases h with h | h
        · exact h
        · exact lt_of_lt_of_le h (drainLag_le_drains a v)
      · simp [hp]
    | drainAll => exact absurd rfl (hv _ (by simp))
    | _ => simpa only [gone, drainLag] using ih

theorem not_gone_of_mem_arrivals {evs : List (Event α)} (hv : ∀ e ∈ evs, e ≠ .drainAll)
    {x : α × List (Event α)} (hx : x ∈ arrivals evs) :
    (!gone x.1 x.2) = decide (drainLag x.1 x.2 = 0) := by
  obtain ⟨u, hu⟩ := mem_arrivals.1 hx
  have hg : gone x.1 x.2 = true ↔ 0 < drainLag x.1 x.2 :=
    gone_iff_drainLag_pos fun e he => hv e (by rw [hu]; simp [he])
  by_cases h0 : drainLag x.1 x.2 = 0
  · simp only [h0, lt_irrefl, iff_false] at hg
    simp [h0, hg]
  · simp [h0, hg.2 (Nat.pos_of_ne_zero h0)]

/-- The arrivals of lag `k`, in order. -/
def withLag (k : Nat) (evs : List (Event α)) : List α :=
  ((arrivals evs).filter fun x => drainLag x.1 x.2 = k).map Prod.fst

/-- The arrivals, stably sorted by decreasing lag. -/
def byLag (evs : List (Event α)) : List α :=
  (List.range (drains evs + 1)).reverse.flatMap fun k => withLag k evs

/-- An event that drains nothing changes no lag. -/
theorem withLag_succ_of_not_drain {e : Event α} (he : drains [e] = 0) (k : Nat)
    (evs : List (Event α)) : withLag (k + 1) (evs ++ [e]) = withLag (k + 1) evs := by
  have hnew : (arrivals [e]).filter (fun x => drainLag x.1 x.2 = k + 1) = [] := by
    cases e <;> simp [arrivals, drainLag]
  simp only [withLag, arrivals_append, List.filter_append, List.filter_map, Function.comp_def,
    List.map_map, drainLag_append_singleton, he, ite_self, Nat.add_zero, hnew, List.append_nil]

/-- A drain moves every lag but the items nobody marked up by one. -/
theorem withLag_succ_drain {evs : List (Event α)} (k : Nat) :
    withLag (k + 1) (evs ++ [.drain]) =
      ((arrivals evs).filter fun x => marked x.1 x.2 && (drainLag x.1 x.2 = k)).map Prod.fst := by
  simp only [withLag, arrivals_append, arrivals, List.append_nil, List.filter_map,
    Function.comp_def, List.map_map, drainLag_append_singleton, drains]
  congr 1
  refine List.filter_congr fun x _ => ?_
  cases hm : marked x.1 x.2
  · simp [drainLag_eq_zero_of_not_marked hm]
  · simp

/-- **Everything that arrived leaves in the order of `byLag`**: what has been handed
over, followed by what a final unconditional drain would hand over, is the list of
arrivals stably sorted by decreasing lag. -/
theorem drained_append_pending_run {evs : List (Event α)} (hv : ∀ e ∈ evs, e ≠ .drainAll) :
    (empty.run evs).drained ++ (empty.run evs).pending.map Prod.fst = byLag evs := by
  have hpend : (empty.run evs).pending.map Prod.fst = withLag 0 evs := by
    rw [pending_run, withLag, List.map_map]
    congr 1
    exact List.filter_congr fun x hx => not_gone_of_mem_arrivals hv hx
  have hdrained : (empty.run evs).drained =
      (List.range (drains evs)).reverse.flatMap fun k => withLag (k + 1) evs := by
    clear hpend
    induction evs using List.reverseRecOn with
    | nil => rfl
    | append_singleton evs e ih =>
      have hv' : ∀ d ∈ evs, d ≠ .drainAll := fun d hd => hv d (by simp [hd])
      have ih := ih hv'
      rw [run_append_singleton, drains_append]
      cases e with
      | drain =>
        have hlow : withLag 1 (evs ++ [.drain]) =
            ((empty.run evs).pending.filter fun e => e.2).map Prod.fst := by
          rw [withLag_succ_drain, pending_run, List.filter_map, List.map_map,
            List.filter_filter]
          congr 1
          exact List.filter_congr fun x hx => by simp [← not_gone_of_mem_arrivals hv' hx]
        have hhigh : ∀ k, withLag (k + 2) (evs ++ [.drain]) = withLag (k + 1) evs := by
          intro k
          rw [withLag_succ_drain, withLag]
          congr 1
          refine List.filter_congr fun x _ => ?_
          cases hm : marked x.1 x.2
          · simp [drainLag_eq_zero_of_not_marked hm]
          · simp
        simp only [step, ih, drains, List.range_succ_eq_map, List.reverse_cons,
          List.flatMap_append, ← List.map_reverse, List.flatMap_map, hhigh, hlow,
          List.flatMap_cons, List.flatMap_nil, List.append_nil, Nat.succ_eq_add_one]
      | drainAll => exact absurd rfl (hv .drainAll (by simp))
      | _ =>
        simp only [step, ih, drains, Nat.add_zero]
        congr 1
        funext k
        exact (withLag_succ_of_not_drain rfl k evs).symm
  rw [hdrained, hpend, byLag, List.range_succ_eq_map, List.reverse_cons, List.flatMap_append,
    ← List.map_reverse, List.flatMap_map]
  simp

/-- Among the items of a class, there is one that leaves last: no earlier one has a
smaller lag, and every later one has a larger lag. -/
theorem exists_last_min {β : Type*} {T : β → Prop} (f : β → Nat) :
    ∀ {l : List β}, (∃ x ∈ l, T x) → ∃ l₁ b l₂, l = l₁ ++ b :: l₂ ∧ T b ∧
      (∀ x ∈ l₁, T x → f b ≤ f x) ∧ ∀ x ∈ l₂, T x → f b < f x := by
  intro l
  induction l with
  | nil => rintro ⟨x, hx, -⟩; cases hx
  | cons y l ih =>
    rintro ⟨x, hx, hTx⟩
    by_cases hl : ∃ x ∈ l, T x
    · obtain ⟨l₁, b, l₂, rfl, hb, h₁, h₂⟩ := ih hl
      by_cases hy : T y ∧ f y < f b
      · refine ⟨[], y, l₁ ++ b :: l₂, rfl, hy.1, by simp, fun z hz hTz => ?_⟩
        rcases List.mem_append.1 hz with hz | hz
        · exact lt_of_lt_of_le hy.2 (h₁ z hz hTz)
        · rcases List.mem_cons.1 hz with rfl | hz
          · exact hy.2
          · exact lt_trans hy.2 (h₂ z hz hTz)
      · refine ⟨y :: l₁, b, l₂, rfl, hb, fun z hz hTz => ?_, h₂⟩
        rcases List.mem_cons.1 hz with rfl | hz
        · exact not_lt.1 fun hlt => hy ⟨hTz, hlt⟩
        · exact h₁ z hz hTz
    · rcases List.mem_cons.1 hx with rfl | hx
      · exact ⟨[], x, l, rfl, hTx, by simp, fun z hz hTz => absurd ⟨z, hz, hTz⟩ hl⟩
      · exact absurd ⟨x, hx, hTx⟩ hl

/-- **The last of a class to leave** is the one of least lag, and the latest of these. -/
theorem getLast?_byLag_filter {T : α → Bool} {evs : List (Event α)}
    {l₁ l₂ : List (α × List (Event α))} {a : α} {v : List (Event α)}
    (hsplit : arrivals evs = l₁ ++ (a, v) :: l₂) (ha : T a = true)
    (h₁ : ∀ x ∈ l₁, T x.1 = true → drainLag a v ≤ drainLag x.1 x.2)
    (h₂ : ∀ x ∈ l₂, T x.1 = true → drainLag a v < drainLag x.1 x.2) :
    ((byLag evs).filter T).getLast? = some a := by
  have hle : drainLag a v ≤ drains evs := by
    obtain ⟨u, rfl⟩ := mem_arrivals.1 (show (a, v) ∈ arrivals evs by rw [hsplit]; simp)
    have hv := drainLag_le_drains a v
    simp only [drains_append, drains]
    omega
  set k := drainLag a v with hk
  -- classes of smaller lag hold no item of the class, and `a` ends its own class
  have hlow : ∀ j < k, (withLag j evs).filter T = [] := by
    intro j hj
    rw [List.filter_eq_nil_iff]
    intro b hb hTb
    obtain ⟨⟨c, w⟩, hx, rfl⟩ := List.mem_map.1 hb
    obtain ⟨hx, hlag⟩ := List.mem_filter.1 hx
    have hlag : drainLag c w = j := by simpa using hlag
    rw [hsplit, List.mem_append, List.mem_cons] at hx
    rcases hx with hx | hx | hx
    · have := h₁ _ hx hTb
      simp only at this
      omega
    · obtain ⟨rfl, rfl⟩ := Prod.mk.inj hx
      omega
    · have := h₂ _ hx hTb
      simp only at this
      omega
  have hown : ∃ w, (withLag k evs).filter T = w ++ [a] := by
    have hnone : ((l₂.filter fun x => drainLag x.1 x.2 = k).map Prod.fst).filter T = [] := by
      rw [List.filter_eq_nil_iff]
      intro b hb hTb
      obtain ⟨x, hx, rfl⟩ := List.mem_map.1 hb
      obtain ⟨hx, hlag⟩ := List.mem_filter.1 hx
      have := h₂ x hx hTb
      have hlag : drainLag x.1 x.2 = k := by simpa using hlag
      omega
    refine ⟨((l₁.filter fun x => drainLag x.1 x.2 = k).map Prod.fst).filter T, ?_⟩
    rw [withLag, hsplit, List.filter_append, List.map_append, List.filter_append,
      List.filter_cons_of_pos (by simp [hk]), List.map_cons, List.filter_cons_of_pos ha, hnone]
  obtain ⟨w, hw⟩ := hown
  obtain ⟨m, hm⟩ : ∃ m, drains evs + 1 = (k + 1) + m := ⟨drains evs - k, by omega⟩
  have hzero : ((List.range k).reverse.flatMap fun j => (withLag j evs).filter T) = [] := by
    rw [List.flatMap_eq_nil_iff]
    intro j hj
    exact hlow j (by simpa using hj)
  rw [byLag, List.filter_flatMap, hm, List.range_add, List.reverse_append, List.flatMap_append,
    List.range_succ, List.reverse_append, List.reverse_singleton, List.singleton_append,
    List.flatMap_cons, hzero, hw, List.append_nil, ← List.append_assoc, List.getLast?_append]
  simp

end MarkBuffer
