import Mathlib

/-!
# Worklists

A search of a graph with a queue of the nodes that are still to do and a set of the nodes that
were ever queued.  A node is marked when it is queued, so no node is queued twice.

* `search` — the loop: it takes a node from the front of the queue, visits it, and queues its
  successors.  It has fuel for a number of nodes, and is `none` if that does not suffice.
* `search_spec` — on a finite graph, fuel for as many nodes as there are suffices, and the nodes
  that are visited are exactly those that can be reached.
-/

namespace Worklist

variable {V σ : Type}

/-- The queue, and the nodes ever queued. -/
structure Queue (V : Type) where
  todo : List V
  visited : Finset V

/-- The queue with nothing but the node at which the search starts. -/
def Queue.start (v : V) : Queue V := ⟨[v], {v}⟩

/-- There is a path from `v` to `w`. -/
abbrev Reaches (next : V → List V) (v w : V) : Prop :=
  Relation.ReflTransGen (fun a b => b ∈ next a) v w

/-! ## The invariant -/

/-- After the nodes `done`, the nodes ever queued are these and the ones to do, each once. -/
structure Accounts (done : List V) (q : Queue V) : Prop where
  nodup : (done ++ q.todo).Nodup
  visited : ∀ v, v ∈ q.visited ↔ v ∈ done ++ q.todo

/-- What holds after the nodes `done` were visited: only nodes that can be reached were queued, and
of the nodes visited all successors. -/
structure Progress (next : V → List V) (start : V) (done : List V) (q : Queue V) : Prop
    extends Accounts done q where
  start_mem : start ∈ q.visited
  reached : ∀ v ∈ q.visited, Reaches next start v
  closed : ∀ v ∈ done, ∀ w ∈ next v, w ∈ q.visited

theorem Progress.start (next : V → List V) (v : V) : Progress next v [] (Queue.start v) where
  nodup := List.nodup_singleton v
  visited w := by simp [Queue.start]
  start_mem := Finset.mem_singleton_self v
  reached w hw := by rw [Finset.mem_singleton.1 hw]
  closed w hw := by cases hw

/-- With nothing left to do, all that can be reached was visited. -/
theorem Progress.mem_done_iff {next : V → List V} {start : V} {done : List V} {visited : Finset V}
    (h : Progress next start done ⟨[], visited⟩) {v : V} : v ∈ done ↔ Reaches next start v := by
  have hdone : ∀ w, w ∈ visited ↔ w ∈ done := fun w => by simpa using h.visited w
  constructor
  · intro hv
    exact h.reached v ((hdone v).2 hv)
  · intro hreach
    induction hreach with
    | refl => exact (hdone start).1 h.start_mem
    | tail _ hstep ih => exact (hdone _).1 (h.closed _ ih _ hstep)

/-! ## Queueing -/

variable [DecidableEq V]

/-- Queue a node, unless it was queued before. -/
def Queue.push (q : Queue V) (v : V) : Queue V :=
  if v ∈ q.visited then q else ⟨q.todo ++ [v], insert v q.visited⟩

theorem Accounts.push {done : List V} {q : Queue V} (h : Accounts done q) (v : V) :
    Accounts done (q.push v) := by
  unfold Queue.push
  split
  · exact h
  · rename_i hv
    rw [h.visited] at hv
    refine ⟨?_, fun w => ?_⟩
    · rw [← List.append_assoc]
      exact List.nodup_append.2 ⟨h.nodup, List.nodup_singleton v, fun a ha b hb hab =>
        hv (by rwa [← List.mem_singleton.1 hb, ← hab])⟩
    · rw [← List.append_assoc, Finset.mem_insert, List.mem_append, List.mem_singleton, h.visited,
        or_comm]

theorem Accounts.foldl_push {done : List V} {q : Queue V} (h : Accounts done q) (vs : List V) :
    Accounts done (vs.foldl Queue.push q) := by
  induction vs generalizing q with
  | nil => exact h
  | cons v vs ih => exact ih (h.push v)

theorem mem_visited_foldl_push {q : Queue V} {vs : List V} {w : V} :
    w ∈ (vs.foldl Queue.push q).visited ↔ w ∈ q.visited ∨ w ∈ vs := by
  induction vs generalizing q with
  | nil => simp
  | cons v vs ih =>
    have hpush : w ∈ (q.push v).visited ↔ w ∈ q.visited ∨ w = v := by
      unfold Queue.push
      split
      · rename_i hv
        constructor
        · exact Or.inl
        · rintro (hw | rfl)
          · exact hw
          · exact hv
      · rw [Finset.mem_insert, or_comm]
    rw [List.foldl_cons, ih, hpush, List.mem_cons, or_assoc]

/-! ## The search -/

/-- The loop. -/
def search (next : V → List V) (visit : σ → V → σ) : Nat → Queue V → σ → Option σ
  | _, ⟨[], _⟩, acc => some acc
  | 0, ⟨_ :: _, _⟩, _ => none
  | fuel + 1, ⟨v :: todo, visited⟩, acc =>
      search next visit fuel ((next v).foldl Queue.push ⟨todo, visited⟩) (visit acc v)

/-- **One node** is visited, and its successors are queued. -/
theorem Progress.next {next : V → List V} {start v : V} {done todo : List V} {visited : Finset V}
    (h : Progress next start done ⟨v :: todo, visited⟩) :
    Progress next start (done ++ [v]) ((next v).foldl Queue.push ⟨todo, visited⟩) := by
  have haccounts : Accounts (done ++ [v]) (⟨todo, visited⟩ : Queue V) :=
    ⟨by simpa using h.nodup, fun w => by simpa using h.visited w⟩
  have hv : v ∈ visited := (h.visited v).2 (by simp)
  refine ⟨haccounts.foldl_push (next v), mem_visited_foldl_push.2 (Or.inl h.start_mem), ?_, ?_⟩
  · intro w hw
    rcases mem_visited_foldl_push.1 hw with hw | hw
    · exact h.reached w hw
    · exact (h.reached v hv).tail hw
  · intro u hu w hw
    apply mem_visited_foldl_push.2
    rcases List.mem_append.1 hu with hu | hu
    · exact Or.inl (h.closed u hu w hw)
    · rw [List.mem_singleton.1 hu] at hw
      exact Or.inr hw

theorem Progress.search [Fintype V] {next : V → List V} {visit : σ → V → σ} {start : V}
    {fuel : Nat} {done : List V} {q : Queue V} (h : Progress next start done q)
    (hfuel : Fintype.card V ≤ done.length + fuel) (acc : σ) :
    ∃ order : List V, search next visit fuel q acc = some (order.foldl visit acc) ∧
      ∀ v, v ∈ done ++ order ↔ Reaches next start v := by
  induction fuel generalizing done q acc with
  | zero =>
    obtain ⟨todo, visited⟩ := q
    cases todo with
    | nil => exact ⟨[], by simp [Worklist.search], fun v => by simpa using h.mem_done_iff⟩
    | cons v todo =>
      -- all nodes are done, and yet one more is to do
      have hcard := h.nodup.length_le_card
      simp only [List.length_append, List.length_cons] at hcard
      omega
  | succ fuel ih =>
    obtain ⟨todo, visited⟩ := q
    cases todo with
    | nil => exact ⟨[], by simp [Worklist.search], fun v => by simpa using h.mem_done_iff⟩
    | cons v todo =>
      have hleft : Fintype.card V ≤ (done ++ [v]).length + fuel := by
        rw [List.length_append, List.length_singleton]
        omega
      obtain ⟨order, hrun, horder⟩ := ih h.next hleft (visit acc v)
      exact ⟨v :: order, by simpa [Worklist.search] using hrun, fun w => by simpa using horder w⟩

/-- **The search ends and visits what can be reached.** -/
theorem search_spec [Fintype V] {next : V → List V} {visit : σ → V → σ} {start : V} {fuel : Nat}
    (hfuel : Fintype.card V ≤ fuel) (acc : σ) :
    ∃ order : List V, search next visit fuel (Queue.start start) acc =
      some (order.foldl visit acc) ∧ ∀ v, v ∈ order ↔ Reaches next start v :=
  (Progress.start next start).search (by simpa using hfuel) acc

end Worklist
