import Durinn.Passes.Layout

/-!
# The visitors lead to layouts

Each visitor of `tracer_pass.cpp` inserts its calls in an order of its own, and moves the
instruction in between.  Here every branch of every visitor is shown to end in a `Layout`.

* `lays_visitSpecialCall`, `lays_visitPmemCall`, `lays_visitLockCall`, `lays_visitMmapCall` — the
  calls that are known by their names.
* `lays_visitInlineAsm`, `lays_visitCallInst` — inline assembly and the choice between the visitors.
* `lays_visit` — every instruction gets a layout, with a store record exactly if it is one of those
  that `emitsStore` names.
-/

namespace Durinn

open ListEdit PyText

namespace CiriTracerPass

variable {p : CiriTracerPass} {ci : Nat} {i : IRInst}

/-! ## Writes, copies and strings -/

section Calls

variable (hi : i.isPhi = false ∧ i.isTerminator = false) {dst src numElts : IRValue}
  (hdst : dst ∈ i.operands) {more : List RecordCall}

include hi hdst

theorem lays_recordsStore (hnum : numElts ∈ i.operands)
    (hmore : ∀ c ∈ more, c.reads = false ∧
      c.For p ci (fun v => v ∈ i.operands ∨ v.ref = .result ci) (castInsts dst .voidPtr)) :
    Lays p ci i true (p.recordsStore ci dst numElts more) := by
  refine lays_surround hi (castInsts_cast hdst .voidPtr) (by simp) ?_
  rw [List.forall_mem_cons]
  refine ⟨⟨rfl, rfl, ?_⟩, hmore⟩
  exact forall_mem_pair.2 ⟨castTo_from (Or.inl hdst) fun a ha => ha, Or.inl hnum⟩

theorem lays_recordsCopy (hsrc : src ∈ i.operands) (hnum : numElts ∈ i.operands)
    (hmore : ∀ c ∈ more, c.reads = false ∧
      c.For p ci (fun v => v ∈ i.operands ∨ v.ref = .result ci) (castInsts dst .voidPtr)) :
    Lays p ci i true (p.recordsCopy ci dst src numElts more) := by
  refine lays_surround hi (castInsts_append_cast hdst hsrc _ _) ?_ ?_
  · rw [List.forall_mem_singleton]
    exact ⟨rfl, rfl, forall_mem_pair.2
      ⟨castTo_from hsrc fun a ha => List.mem_append_right _ ha, hnum⟩⟩
  · rw [List.forall_mem_cons]
    refine ⟨⟨rfl, rfl, ?_⟩, fun c hc => ⟨(hmore c hc).1, (hmore c hc).2.id, fun o ho => ?_⟩⟩
    · exact forall_mem_pair.2
        ⟨castTo_from (Or.inl hdst) fun a ha => List.mem_append_left _ ha, Or.inl hnum⟩
    · exact ((hmore c hc).2.operands o ho).mono (fun _ hv => hv) fun a ha =>
        List.mem_append_left _ ha

theorem lays_recordsString {casts : List Added} {read : List Operand}
    (hcasts : ∀ a ∈ casts, ∃ v ty, a = .cast v ty ∧ v ∈ i.operands)
    (hread : ∀ o ∈ read, o.From (· ∈ i.operands) casts) :
    Lays p ci i true (p.recordsString ci dst casts read) := by
  refine lays_surround hi ?_ ?_ ?_
  · intro a ha
    rcases List.mem_append.1 ha with ha | ha
    · exact castInsts_cast hdst .voidPtr a ha
    · exact hcasts a ha
  · intro c hc
    obtain ⟨o, ho, rfl⟩ := List.mem_map.1 hc
    refine ⟨rfl, rfl, ?_⟩
    rw [RecordCall.operands, List.forall_mem_singleton]
    exact (hread o ho).mono (fun _ hv => hv) fun a ha => List.mem_append_right _ ha
  · rw [List.forall_mem_singleton]
    refine ⟨rfl, rfl, ?_⟩
    rw [RecordCall.operands, List.forall_mem_singleton]
    exact castTo_from (Or.inl hdst) fun a ha => List.mem_append_left _ ha

end Calls

/-- A branch of a visitor. -/
theorem of_ite_eq_some {α : Type} {c : Prop} [Decidable c] {x r : α} {rest : Option α}
    (h : (if c then some x else rest) = some r) : c ∧ x = r ∨ rest = some r := by
  by_cases hc : c
  · rw [if_pos hc, Option.some.injEq] at h
    exact Or.inl ⟨hc, h⟩
  · rw [if_neg hc] at h
    exact Or.inr h

theorem of_ite_eq_none {α : Type} {c : Prop} [Decidable c] {x : α} {rest : Option α}
    (h : (if c then some x else rest) = none) : ¬ c ∧ rest = none := by
  by_cases hc : c
  · rw [if_pos hc] at h
    cases h
  · rw [if_neg hc] at h
    exact ⟨hc, h⟩

/-- The first visitor that handles a call decides. -/
theorem of_orElse_getD {α : Type} {x y : Option (Option α)} {d : Option α} {r : α}
    (h : (x.orElse fun _ => y).getD d = some r) :
    x = some (some r) ∨ x = none ∧ y.getD d = some r := by
  cases x with
  | none => exact Or.inr ⟨rfl, h⟩
  | some x => exact Or.inl (congrArg some h)

section Visitors

variable (hi : i.isPhi = false ∧ i.isTerminator = false) {name : Text} {args : List IRValue}
  {type : IRType} {es : List (Edit Item)}

theorem visitSpecialCall_none (h : p.visitSpecialCall ci name args type = none) :
    specialCallStores name = false := by
  obtain ⟨h₁, h⟩ := of_ite_eq_none h
  obtain ⟨h₂, h⟩ := of_ite_eq_none h
  obtain ⟨h₃, h⟩ := of_ite_eq_none h
  obtain ⟨h₄, h⟩ := of_ite_eq_none h
  obtain ⟨-, h⟩ := of_ite_eq_none h
  obtain ⟨-, h⟩ := of_ite_eq_none h
  obtain ⟨h₅, h⟩ := of_ite_eq_none h
  obtain ⟨h₆, h⟩ := of_ite_eq_none h
  obtain ⟨h₇, h⟩ := of_ite_eq_none h
  obtain ⟨h₈, -⟩ := of_ite_eq_none h
  rw [Bool.or_eq_true, not_or] at h₂
  rw [Bool.eq_false_iff]
  intro hs
  simp only [specialCallStores, Bool.or_eq_true, List.contains_iff_mem, List.map_cons,
    List.map_nil, List.mem_cons, List.not_mem_nil, or_false] at hs
  rcases hs with ((hs | hs) | hs) | hs | hs | hs | hs | hs | hs | hs | hs
  · exact h₁ hs
  · exact h₂.1 hs
  · exact h₂.2 hs
  · exact h₃ (Or.inl hs)
  · exact h₃ (Or.inr (Or.inl hs))
  · exact h₃ (Or.inr (Or.inr hs))
  · exact h₄ hs
  · exact h₅ hs
  · exact h₆ hs
  · exact h₇ hs
  · exact h₈ hs

theorem visitPmemCall_none (h : p.visitPmemCall ci name args = none) :
    pmemCallStores name = false := by
  unfold visitPmemCall at h
  obtain ⟨-, h⟩ := of_ite_eq_none h
  obtain ⟨-, h⟩ := of_ite_eq_none h
  obtain ⟨-, h⟩ := of_ite_eq_none h
  obtain ⟨h₁, h⟩ := of_ite_eq_none h
  obtain ⟨h₂, h⟩ := of_ite_eq_none h
  obtain ⟨h₃, h⟩ := of_ite_eq_none h
  obtain ⟨h₄, h⟩ := of_ite_eq_none h
  obtain ⟨h₅, h⟩ := of_ite_eq_none h
  obtain ⟨h₆, -⟩ := of_ite_eq_none h
  rw [Bool.eq_false_iff]
  intro hs
  simp only [pmemCallStores, List.contains_iff_mem, List.map_cons, List.map_nil, List.mem_cons,
    List.not_mem_nil, or_false] at hs
  rcases hs with hs | hs | hs | hs | hs | hs | hs | hs | hs
  · exact h₁ (Or.inl hs)
  · exact h₁ (Or.inr hs)
  · exact h₂ (Or.inl hs)
  · exact h₂ (Or.inr hs)
  · exact h₃ (Or.inl hs)
  · exact h₃ (Or.inr hs)
  · exact h₄ hs
  · exact h₅ hs
  · exact h₆ hs

include hi

/-- **A call that `visitSpecialCall` handles.** -/
theorem lays_visitSpecialCall (hargs : ∀ v ∈ args, v ∈ i.operands)
    (h : p.visitSpecialCall ci name args type = some (some es)) :
    Lays p ci i (specialCallStores name || pmemCallStores name) es := by
  have hget : ∀ {k : Nat} {v : IRValue}, args[k]? = some v → v ∈ i.operands := fun hk =>
    hargs _ (List.mem_of_getElem? hk)
  replace h := of_ite_eq_some h
  rcases h with ⟨hname, h⟩ | h
  · -- `memset`
    simp only [Option.bind_eq_bind, Option.bind_eq_some_iff, Option.pure_def,
      Option.some.injEq] at h
    obtain ⟨dst, hdst, numElts, hnum, rfl⟩ := h
    rw [show specialCallStores name = true by rw [specialCallStores, hname]; rfl, Bool.true_or]
    exact lays_recordsStore hi (hget hdst) (hget hnum) (by simp)
  replace h := of_ite_eq_some h
  rcases h with ⟨hname, h⟩ | h
  · -- `memcpy` and `memmove`
    simp only [Option.bind_eq_bind, Option.bind_eq_some_iff, Option.pure_def,
      Option.some.injEq] at h
    obtain ⟨dst, hdst, src, hsrc, numElts, hnum, rfl⟩ := h
    have hs : specialCallStores name = true := by
      rw [specialCallStores, Bool.or_assoc ("llvm.memset.".toList.isPrefixOf name), hname,
        Bool.or_true, Bool.true_or]
    rw [hs, Bool.true_or]
    exact lays_recordsCopy hi (hget hdst) (hget hsrc) (hget hnum) (by simp)
  replace h := of_ite_eq_some h
  rcases h with ⟨hname, h⟩ | h
  · -- `strcpy`
    simp only [Option.bind_eq_bind, Option.bind_eq_some_iff, Option.pure_def,
      Option.some.injEq] at h
    obtain ⟨dst, hdst, src, hsrc, rfl⟩ := h
    have hs : specialCallStores name = true := by
      rcases hname with rfl | rfl | rfl <;> decide
    rw [hs, Bool.true_or]
    refine lays_recordsString hi (hget hdst) (castInsts_cast (hget hsrc) .voidPtr) ?_
    rw [List.forall_mem_singleton]
    exact castTo_from (hget hsrc) fun a ha => ha
  replace h := of_ite_eq_some h
  rcases h with ⟨rfl, h⟩ | h
  · -- `strcat`
    simp only [Option.bind_eq_bind, Option.bind_eq_some_iff, Option.pure_def,
      Option.some.injEq] at h
    obtain ⟨dst, hdst, src, hsrc, rfl⟩ := h
    have hdst' : (castTo dst .voidPtr).From (· ∈ i.operands)
        (castInsts dst .voidPtr ++ castInsts src .voidPtr) :=
      castTo_from (hget hdst) fun _ ha => List.mem_append_left _ ha
    have hsrc' : (castTo src .voidPtr).From (· ∈ i.operands)
        (castInsts dst .voidPtr ++ castInsts src .voidPtr) :=
      castTo_from (hget hsrc) fun _ ha => List.mem_append_right _ ha
    refine lays_surround hi (castInsts_append_cast (hget hdst) (hget hsrc) _ _) ?_ ?_
    · rw [forall_mem_pair]
      exact ⟨⟨rfl, rfl, List.forall_mem_singleton.2 hdst'⟩, rfl, rfl,
        List.forall_mem_singleton.2 hsrc'⟩
    · rw [List.forall_mem_singleton]
      refine ⟨rfl, rfl, forall_mem_pair.2 ⟨?_, ?_⟩⟩
      · exact hdst'.mono (fun _ => Or.inl) fun _ ha => ha
      · exact hsrc'.mono (fun _ => Or.inl) fun _ ha => ha
  replace h := of_ite_eq_some h
  rcases h with ⟨rfl, h⟩ | h
  · -- `strlen`
    simp only [Option.bind_eq_bind, Option.bind_eq_some_iff, Option.pure_def,
      Option.some.injEq] at h
    obtain ⟨src, hsrc, rfl⟩ := h
    refine lays_surround hi (castInsts_cast (hget hsrc) .voidPtr) ?_ (by simp)
    rw [List.forall_mem_singleton]
    exact ⟨rfl, rfl, List.forall_mem_singleton.2 (castTo_from (hget hsrc) fun _ ha => ha)⟩
  replace h := of_ite_eq_some h
  rcases h with ⟨rfl, h⟩ | h
  · -- `strcmp`
    simp only [Option.bind_eq_bind, Option.bind_eq_some_iff, Option.pure_def,
      Option.some.injEq] at h
    obtain ⟨ptr0, hptr0, ptr1, hptr1, rfl⟩ := h
    refine lays_surround hi (castInsts_append_cast (hget hptr0) (hget hptr1) _ _) ?_ (by simp)
    rw [forall_mem_pair]
    refine ⟨⟨rfl, rfl, List.forall_mem_singleton.2 ?_⟩, rfl, rfl, List.forall_mem_singleton.2 ?_⟩
    · exact castTo_from (hget hptr0) fun _ ha => List.mem_append_left _ ha
    · exact castTo_from (hget hptr1) fun _ ha => List.mem_append_right _ ha
  replace h := of_ite_eq_some h
  rcases h with ⟨rfl, h⟩ | h
  · -- `calloc`
    simp only [Option.bind_eq_bind, Option.bind_eq_some_iff, Option.pure_def,
      Option.some.injEq] at h
    obtain ⟨x, hx, y, hy, rfl⟩ := h
    exact lays_visitCalloc hi (hget hx) (hget hy) rfl
  replace h := of_ite_eq_some h
  rcases h with ⟨rfl, h⟩ | h
  · -- `sprintf`
    simp only [Option.bind_eq_bind, Option.bind_eq_some_iff, Option.pure_def,
      Option.some.injEq] at h
    obtain ⟨dst, hdst, rfl⟩ := h
    refine lays_recordsString hi (hget hdst) (by simp) fun o ho => ?_
    obtain ⟨v, hv, rfl⟩ := List.mem_map.1 ho
    exact hargs v (List.mem_of_mem_drop (List.mem_of_mem_filter hv))
  replace h := of_ite_eq_some h
  rcases h with ⟨rfl, h⟩ | h
  · -- `fgets`
    simp only [Option.bind_eq_bind, Option.bind_eq_some_iff, Option.pure_def,
      Option.some.injEq] at h
    obtain ⟨dst, hdst, rfl⟩ := h
    exact lays_recordsString hi (hget hdst) (by simp) (by simp)
  replace h := of_ite_eq_some h
  rcases h with ⟨rfl, h⟩ | h
  · -- `snprintf`
    simp only [Option.bind_eq_bind, Option.bind_eq_some_iff, Option.pure_def,
      Option.some.injEq] at h
    obtain ⟨dst, hdst, numElts, hnum, rfl⟩ := h
    exact lays_recordsStore hi (hget hdst) (hget hnum) (by simp)
  cases h

/-- **A call that `visitPmemCall` handles.** -/
theorem lays_visitPmemCall (hargs : ∀ v ∈ args, v ∈ i.operands)
    (h : p.visitPmemCall ci name args = some (some es)) : Lays p ci i (pmemCallStores name) es := by
  have hget : ∀ {k : Nat} {v : IRValue}, args[k]? = some v → v ∈ i.operands := fun hk =>
    hargs _ (List.mem_of_getElem? hk)
  have hfence : ∀ aux, RecordCall.For p ci (fun v => v ∈ i.operands ∨ v.ref = .result ci) aux
      (.fence (p.getID ci)) := fun aux => ⟨rfl, nofun⟩
  have hflush : ∀ {dst numElts : IRValue}, dst ∈ i.operands → numElts ∈ i.operands →
      RecordCall.For p ci (fun v => v ∈ i.operands ∨ v.ref = .result ci) (castInsts dst .voidPtr)
        (.flushWrapper (p.getID ci) (castTo dst .voidPtr) (.value numElts)) := fun hdst hnum =>
    ⟨rfl, forall_mem_pair.2 ⟨castTo_from (Or.inl hdst) fun _ ha => ha, Or.inl hnum⟩⟩
  unfold visitPmemCall at h
  replace h := of_ite_eq_some h
  rcases h with ⟨rfl, h⟩ | h
  · -- `pmem_flush`
    simp only [Option.bind_eq_bind, Option.bind_eq_some_iff, Option.pure_def,
      Option.some.injEq] at h
    obtain ⟨pointer, hpointer, numElts, hnum, rfl⟩ := h
    refine lays_surround hi (castInsts_cast (hget hpointer) .voidPtr) (by simp) ?_
    rw [List.forall_mem_singleton]
    exact ⟨rfl, hflush (hget hpointer) (hget hnum)⟩
  replace h := of_ite_eq_some h
  rcases h with ⟨rfl, h⟩ | h
  · -- `pmem_drain`
    cases h
    refine lays_surround hi (by simp) (by simp) ?_
    rw [List.forall_mem_singleton]
    exact ⟨rfl, hfence []⟩
  replace h := of_ite_eq_some h
  rcases h with ⟨hname, h⟩ | h
  · -- `pmem_persist`
    simp only [Option.bind_eq_bind, Option.bind_eq_some_iff, Option.pure_def,
      Option.some.injEq] at h
    obtain ⟨pointer, hpointer, numElts, hnum, rfl⟩ := h
    rw [show pmemCallStores name = false by rcases hname with rfl | rfl <;> decide]
    refine lays_surround hi (castInsts_cast (hget hpointer) .voidPtr) (by simp) ?_
    rw [forall_mem_pair]
    exact ⟨⟨rfl, hflush (hget hpointer) (hget hnum)⟩, rfl, hfence _⟩
  replace h := of_ite_eq_some h
  rcases h with ⟨hname, h⟩ | h
  · -- `pmem_memcpy_nodrain`
    simp only [Option.bind_eq_bind, Option.bind_eq_some_iff, Option.pure_def,
      Option.some.injEq] at h
    obtain ⟨dst, hdst, src, hsrc, numElts, hnum, rfl⟩ := h
    rw [show pmemCallStores name = true by rcases hname with rfl | rfl <;> decide]
    refine lays_recordsCopy hi (hget hdst) (hget hsrc) (hget hnum) ?_
    rw [List.forall_mem_singleton]
    exact ⟨rfl, hflush (hget hdst) (hget hnum)⟩
  replace h := of_ite_eq_some h
  rcases h with ⟨hname, h⟩ | h
  · -- `pmem_memcpy_persist`
    simp only [Option.bind_eq_bind, Option.bind_eq_some_iff, Option.pure_def,
      Option.some.injEq] at h
    obtain ⟨dst, hdst, src, hsrc, numElts, hnum, rfl⟩ := h
    rw [show pmemCallStores name = true by rcases hname with rfl | rfl <;> decide]
    refine lays_recordsCopy hi (hget hdst) (hget hsrc) (hget hnum) ?_
    rw [forall_mem_pair]
    exact ⟨⟨rfl, hflush (hget hdst) (hget hnum)⟩, rfl, hfence _⟩
  replace h := of_ite_eq_some h
  rcases h with ⟨hname, h⟩ | h
  · -- `pmem_memcpy`
    simp only [Option.bind_eq_bind, Option.bind_eq_some_iff, Option.pure_def,
      Option.some.injEq] at h
    obtain ⟨dst, hdst, src, hsrc, numElts, hnum, rfl⟩ := h
    rw [show pmemCallStores name = true by rcases hname with rfl | rfl <;> decide]
    exact lays_recordsCopy hi (hget hdst) (hget hsrc) (hget hnum) (by simp)
  replace h := of_ite_eq_some h
  rcases h with ⟨rfl, h⟩ | h
  · -- `pmem_memset_nodrain`
    simp only [Option.bind_eq_bind, Option.bind_eq_some_iff, Option.pure_def,
      Option.some.injEq] at h
    obtain ⟨dst, hdst, numElts, hnum, rfl⟩ := h
    refine lays_recordsStore hi (hget hdst) (hget hnum) ?_
    rw [List.forall_mem_singleton]
    exact ⟨rfl, hflush (hget hdst) (hget hnum)⟩
  replace h := of_ite_eq_some h
  rcases h with ⟨rfl, h⟩ | h
  · -- `pmem_memset_persist`
    simp only [Option.bind_eq_bind, Option.bind_eq_some_iff, Option.pure_def,
      Option.some.injEq] at h
    obtain ⟨dst, hdst, numElts, hnum, rfl⟩ := h
    refine lays_recordsStore hi (hget hdst) (hget hnum) ?_
    rw [forall_mem_pair]
    exact ⟨⟨rfl, hflush (hget hdst) (hget hnum)⟩, rfl, hfence _⟩
  replace h := of_ite_eq_some h
  rcases h with ⟨rfl, h⟩ | h
  · -- `pmem_memset`
    simp only [Option.bind_eq_bind, Option.bind_eq_some_iff, Option.pure_def,
      Option.some.injEq] at h
    obtain ⟨dst, hdst, numElts, hnum, rfl⟩ := h
    exact lays_recordsStore hi (hget hdst) (hget hnum) (by simp)
  cases h

/-- **A call that `visitLockCall` handles.** -/
theorem lays_visitLockCall (hargs : ∀ v ∈ args, v ∈ i.operands)
    (h : p.visitLockCall ci name args = some (some es)) : Lays p ci i false es := by
  unfold visitLockCall at h
  rcases of_ite_eq_some h with ⟨-, h⟩ | h
  · simp only [Option.bind_eq_bind, Option.bind_eq_some_iff, Option.pure_def,
      Option.some.injEq] at h
    obtain ⟨pointer, hpointer, rfl⟩ := h
    exact lays_recordsLock hi (hargs _ (List.mem_of_getElem? hpointer)) (Or.inl rfl)
  rcases of_ite_eq_some h with ⟨-, h⟩ | h
  · simp only [Option.bind_eq_bind, Option.bind_eq_some_iff, Option.pure_def,
      Option.some.injEq] at h
    obtain ⟨pointer, hpointer, rfl⟩ := h
    exact lays_recordsLock hi (hargs _ (List.mem_of_getElem? hpointer)) (Or.inr rfl)
  cases h

/-- **The call of `mmap`.** -/
theorem lays_visitMmapCall (hargs : ∀ v ∈ args, v ∈ i.operands)
    (h : p.visitMmapCall ci name args type = some (some es)) : Lays p ci i false es := by
  unfold visitMmapCall at h
  rcases of_ite_eq_some h with ⟨-, h⟩ | h
  · simp only [Option.bind_eq_bind, Option.bind_eq_some_iff, Option.pure_def,
      Option.some.injEq] at h
    obtain ⟨size, hsize, rfl⟩ := h
    refine lays_surround hi (by simp) (by simp) ?_
    rw [List.forall_mem_singleton]
    exact ⟨rfl, rfl, forall_mem_pair.2 ⟨Or.inr rfl, Or.inl (hargs _ (List.mem_of_getElem? hsize))⟩⟩
  cases h

/-- **Inline assembly.** -/
theorem lays_visitInlineAsm {asm : Text} (hargs : ∀ v ∈ args, v ∈ i.operands)
    (h : p.visitInlineAsm ci asm args = some es) : Lays p ci i (asmStores asm) es := by
  have hget : ∀ {k : Nat} {v : IRValue}, args[k]? = some v → v ∈ i.operands := fun hk =>
    hargs _ (List.mem_of_getElem? hk)
  unfold visitInlineAsm at h
  unfold asmStores
  by_cases hflush : (contains "clflush $0".toList asm || contains "xsaveopt $0".toList asm) = true
  · rw [if_pos hflush] at h ⊢
    by_cases hlen : args.length ≠ 1 ∧ args.length ≠ 2
    · rw [if_pos hlen] at h
      cases h
    rw [if_neg hlen] at h
    simp only [Option.bind_eq_bind, Option.bind_eq_some_iff, Option.pure_def,
      Option.some.injEq] at h
    obtain ⟨pointer, hpointer, rfl⟩ := h
    exact lays_asm hi (castInsts_cast (hget hpointer) .voidPtr) ⟨rfl, rfl,
      List.forall_mem_singleton.2 (castTo_from (Or.inl (hget hpointer)) fun _ ha => ha)⟩
  rw [if_neg hflush] at h ⊢
  by_cases hfence : contains "mfence".toList asm = true
  · rw [if_pos hfence] at h ⊢
    by_cases hlen : args.length ≠ 0
    · rw [if_pos hlen] at h
      cases h
    · rw [if_neg hlen] at h
      cases h
      exact lays_asm hi (List.forall_mem_nil _) ⟨rfl, rfl, nofun⟩
  rw [if_neg hfence] at h ⊢
  by_cases hxchg : contains "xchgq $0,$1".toList asm = true
  · rw [if_pos hxchg] at h
    rw [hxchg]
    by_cases hlen : args.length ≠ 2
    · rw [if_pos hlen] at h
      cases h
    rw [if_neg hlen] at h
    simp only [Option.bind_eq_bind, Option.bind_eq_some_iff, Option.pure_def,
      Option.some.injEq] at h
    obtain ⟨pointer, hpointer, rfl⟩ := h
    refine lays_surround hi (castInsts_cast (hget hpointer) .voidPtr) (by simp) ?_
    rw [List.forall_mem_singleton]
    exact ⟨rfl, rfl, forall_mem_pair.2
      ⟨castTo_from (Or.inl (hget hpointer)) fun _ ha => ha, trivial⟩⟩
  · rw [if_neg hxchg] at h
    cases h
    rw [Bool.eq_false_iff.2 hxchg]
    exact lays_nil

end Visitors

/-- **A call.** -/
theorem lays_visitCallInst {callee : Callee} {args : List IRValue} {type : IRType}
    {es : List (Edit Item)} (h : p.visitCallInst ci callee args type = some es) :
    Lays p ci (.call callee args type) (callStores p.demangle callee) es := by
  have hi : (IRInst.call callee args type).isPhi = false ∧
      (IRInst.call callee args type).isTerminator = false := ⟨rfl, rfl⟩
  have hargs : ∀ v ∈ args, v ∈ (IRInst.call callee args type).operands := fun v hv => hv
  have hget : ∀ {k : Nat} {v : IRValue}, args[k]? = some v →
      v ∈ (IRInst.call callee args type).operands := fun hk => List.mem_of_getElem? hk
  cases callee with
  | inlineAsm asm => exact lays_visitInlineAsm hi hargs h
  | indirect =>
    cases h
    exact lays_nil
  | direct mangled isDeclaration =>
    change (if _ then _ else _) = some es at h
    show Lays p ci _ (if _ then _ else _) es
    by_cases halloc : funcName p.demangle mangled = "pmemobj_alloc".toList
    · rw [if_pos (Or.inl halloc)]
      rw [if_pos halloc] at h
      simp only [Option.bind_eq_bind, Option.bind_eq_some_iff, Option.pure_def,
        Option.some.injEq] at h
      obtain ⟨pointer, hpointer, size, hsize, rfl⟩ := h
      refine lays_surround hi (castInsts_cast (hget hpointer) .voidPtr) (by simp) ?_
      rw [List.forall_mem_singleton]
      exact ⟨rfl, rfl, forall_mem_pair.2
        ⟨castTo_from (Or.inl (hget hpointer)) fun _ ha => ha, Or.inl (hget hsize)⟩⟩
    rw [if_neg halloc] at h
    by_cases htx : funcName p.demangle mangled = "pmemobj_tx_alloc".toList
    · rw [if_pos (Or.inr htx)]
      rw [if_pos htx] at h
      simp only [Option.bind_eq_bind, Option.bind_eq_some_iff, Option.pure_def,
        Option.some.injEq] at h
      obtain ⟨size, hsize, rfl⟩ := h
      refine lays_surround hi (by simp) (by simp) ?_
      rw [List.forall_mem_singleton]
      exact ⟨rfl, rfl, forall_mem_pair.2 ⟨Or.inr rfl, Or.inl (hget hsize)⟩⟩
    rw [if_neg htx] at h
    rw [if_neg (not_or.2 ⟨halloc, htx⟩)]
    cases isDeclaration with
    | false =>
      cases h
      exact lays_nil
    | true =>
      rw [if_neg (by decide)] at h
      rw [Bool.true_and]
      -- the first visitor that handles the call
      rcases of_orElse_getD h with hspecial | ⟨hspecial, h⟩
      · exact lays_visitSpecialCall hi hargs hspecial
      rw [visitSpecialCall_none hspecial, Bool.false_or]
      rcases of_orElse_getD h with hpmem | ⟨hpmem, h⟩
      · exact lays_visitPmemCall hi hargs hpmem
      rw [visitPmemCall_none hpmem]
      rcases of_orElse_getD h with hlock | ⟨-, h⟩
      · exact lays_visitLockCall hi hargs hlock
      cases hmmap : p.visitMmapCall ci (funcName p.demangle mangled) args type with
      | some r =>
        rw [hmmap, Option.getD_some] at h
        rw [h] at hmmap
        exact lays_visitMmapCall hi hargs hmmap
      | none =>
        rw [hmmap] at h
        cases h
        exact lays_nil

/-- **Every instruction** gets a layout, with a store record exactly if it is one of those that
`emitsStore` names. -/
theorem lays_visit {es : List (Edit Item)} (h : p.visit ci i = some es) :
    Lays p ci i (emitsStore p.demangle i.kind) es := by
  cases i with
  | load pointer type =>
    cases h
    refine lays_surround ⟨rfl, rfl⟩ (castInsts_cast List.mem_cons_self .voidPtr) ?_ (by simp)
    rw [List.forall_mem_singleton]
    exact ⟨rfl, rfl, forall_mem_pair.2 ⟨castTo_from List.mem_cons_self fun _ ha => ha, trivial⟩⟩
  | store value pointer =>
    have hpointer : pointer ∈ (IRInst.store value pointer).operands := by simp [IRInst.operands]
    cases h
    refine lays_surround ⟨rfl, rfl⟩ (castInsts_cast hpointer .voidPtr) (by simp) ?_
    rw [List.forall_mem_singleton]
    exact ⟨rfl, rfl, forall_mem_pair.2 ⟨castTo_from (Or.inl hpointer) fun _ ha => ha, trivial⟩⟩
  | atomicRmw pointer value =>
    have hpointer : pointer ∈ (IRInst.atomicRmw pointer value).operands := List.mem_cons_self
    cases h
    refine lays_surround ⟨rfl, rfl⟩ (castInsts_cast hpointer .voidPtr) (by simp) ?_
    rw [List.forall_mem_singleton]
    exact ⟨rfl, rfl, forall_mem_pair.2 ⟨castTo_from (Or.inl hpointer) fun _ ha => ha, trivial⟩⟩
  | atomicCmpXchg pointer expected newVal =>
    have hpointer : pointer ∈ (IRInst.atomicCmpXchg pointer expected newVal).operands :=
      List.mem_cons_self
    have hnewVal : newVal ∈ (IRInst.atomicCmpXchg pointer expected newVal).operands := by
      simp [IRInst.operands]
    cases h
    refine lays_surround ⟨rfl, rfl⟩ (castInsts_append_cast hpointer hnewVal _ _) (by simp) ?_
    rw [List.forall_mem_singleton]
    refine ⟨rfl, rfl, List.forall_mem_cons.2 ⟨?_, forall_mem_pair.2 ⟨?_, trivial⟩⟩⟩
    · exact castTo_from (Or.inl hpointer) fun _ ha => List.mem_append_left _ ha
    · exact castTo_from (Or.inl hnewVal) fun _ ha => List.mem_append_right _ ha
  | call callee args type => exact lays_visitCallInst h
  | br condition succs =>
    cases h
    exact lays_visitBranchInst condition succs
  | phi | select | invoke | ret | terminator | other =>
    cases h
    exact lays_nil

end CiriTracerPass

end Durinn
