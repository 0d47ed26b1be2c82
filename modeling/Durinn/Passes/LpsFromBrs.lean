import Durinn.Lib.Worklist

/-!
# Linearization points from branches

The model of `PrintLpsFromBrs` of `tracer/print_lps_from_brs.cpp`, a compiler pass.  From the
condition of a branch it goes backwards through the values that the condition depends on: from a
load to the values that its own block stores to the same pointer, from a call to its arguments and
to the values that the called function returns, and from any other instruction to its operands.  The
loads and the compare-exchanges that it meets are the linearization points.

* `DependsOn` — the four kinds of dependences.
* `run_closure` — the pass ends, whatever the cycles of the module are, and finds exactly the loads
  and compare-exchanges that the branches depend on.

A module is given by what the pass reads of it.  `ret void` is an `other` instruction without
operands: the result of a call that the pass meets is used, so the called function has one.
-/

namespace Durinn

/-! ## Modules -/

/-- An instruction of a module with the values `V`, the basic blocks `B` and the functions `F`. -/
inductive Inst (V B F : Type) where
  /-- A `LoadInst`, with its pointer operand and its block. -/
  | load (pointer : V) (parent : B)
  /-- A `StoreInst`, with its value and its pointer operand. -/
  | store (value pointer : V)
  /-- An `AtomicCmpXchgInst`. -/
  | cmpXchg
  /-- A `CallInst`, with its arguments and, if the call is direct, the function. -/
  | call (args : List V) (calledFunc : Option F)
  /-- A `ReturnInst` that returns a value. -/
  | ret (value : V)
  /-- Any other instruction, with its operands. -/
  | other (operands : List V)

/-- A module. -/
structure Module (V B F : Type) where
  /-- The instruction that a value is, if it is one. -/
  inst : V → Option (Inst V B F)
  /-- `isa<Constant>`. -/
  isConstant : V → Bool
  /-- The instructions of a basic block, with its terminator at the end. -/
  insts : B → List V
  /-- The basic blocks of a function; a declaration has none. -/
  blocks : F → List B

/-- A conditional `BranchInst`. -/
structure BranchInst (V : Type) where
  condition : V

namespace Inst

variable {V B F : Type}

/-- Is it a load or a compare-exchange? -/
def isLp : Inst V B F → Bool
  | .load _ _ => true
  | .cmpXchg => true
  | _ => false

/-- The operands of an instruction of none of the kinds that the pass treats on their own. -/
def otherOperands : Inst V B F → List V
  | .store value pointer => [value, pointer]
  | .ret value => [value]
  | .other operands => operands
  | _ => []

end Inst

namespace Module

variable {V B F : Type} (m : Module V B F)

/-! ## The pass -/

/-- The value that the terminator of the block returns, if it does. -/
def returned (b : B) : Option V :=
  match (m.insts b).getLast?.bind m.inst with
  | some (.ret value) => some value
  | _ => none

theorem returned_eq_some {m : Module V B F} {b : B} {w : V} :
    m.returned b = some w ↔ ∃ t, (m.insts b).getLast? = some t ∧ m.inst t = some (.ret w) := by
  rw [← Option.bind_eq_some_iff]
  unfold returned
  split
  · rename_i value hret
    simp [hret]
  · rename_i hne
    simp only [reduceCtorEq, false_iff]
    exact hne w

variable [DecidableEq V]

/-- The value that the instruction `i` stores to `pointer`, if it does. -/
def storedTo (pointer i : V) : Option V :=
  match m.inst i with
  | some (.store value pointer') => if pointer' = pointer then some value else none
  | _ => none

/-- The values that the loop body goes on to, in order. -/
def candidates (v : V) : List V :=
  match m.inst v with
  | some (.load pointer parent) => (m.insts parent).filterMap (m.storedTo pointer)
  | some .cmpXchg => []
  | some (.call args calledFunc) =>
      args ++ calledFunc.elim [] fun f => (m.blocks f).filterMap m.returned
  | some i => i.otherOperands
  | none => []

/-- Those that are not constants. -/
def next (v : V) : List V := (m.candidates v).filter fun w => !m.isConstant w

/-- Is the value a linearization point? -/
def isLp (v : V) : Bool := (m.inst v).any Inst.isLp

/-- `LPs.insert`, for the loads and the compare-exchanges. -/
def visit (lps : Finset V) (v : V) : Finset V := if m.isLp v then insert v lps else lps

/-- `get_lps_from_br`, with fuel for a number of values. -/
def getLpsFromBr (fuel : Nat) (lps : Finset V) (bi : BranchInst V) : Option (Finset V) :=
  Worklist.search m.next m.visit fuel (Worklist.Queue.start bi.condition) lps

/-- `run`, over the branches in any order. -/
def run (fuel : Nat) (bis : List (BranchInst V)) : Option (Finset V) :=
  bis.foldlM (m.getLpsFromBr fuel) ∅

/-! ## What a value depends on -/

/-- The value `v` depends on the value `w`. -/
inductive DependsOn : V → V → Prop
  | load {v pointer i w : V} {parent : B} (hv : m.inst v = some (.load pointer parent))
      (hi : i ∈ m.insts parent) (hstore : m.inst i = some (.store w pointer))
      (hw : m.isConstant w = false) : DependsOn v w
  | arg {v w : V} {args : List V} {f : Option F} (hv : m.inst v = some (.call args f))
      (hmem : w ∈ args) (hw : m.isConstant w = false) : DependsOn v w
  | ret {v t w : V} {args : List V} {f : F} {b : B} (hv : m.inst v = some (.call args (some f)))
      (hb : b ∈ m.blocks f) (ht : (m.insts b).getLast? = some t) (hret : m.inst t = some (.ret w))
      (hw : m.isConstant w = false) : DependsOn v w
  | operand {v w : V} {i : Inst V B F} (hv : m.inst v = some i) (hmem : w ∈ i.otherOperands)
      (hw : m.isConstant w = false) : DependsOn v w

variable {m}

theorem storedTo_eq_some {pointer i w : V} :
    m.storedTo pointer i = some w ↔ m.inst i = some (.store w pointer) := by
  unfold storedTo
  split
  · rename_i value pointer' hi
    rw [hi]
    by_cases hp : pointer' = pointer <;> simp [hp]
  · rename_i hne
    simp only [reduceCtorEq, false_iff]
    exact hne w pointer

/-- **One step of the loop** goes on to what the value depends on. -/
theorem mem_next {v w : V} : w ∈ m.next v ↔ m.DependsOn v w := by
  rw [next, List.mem_filter, Bool.not_eq_true']
  constructor
  · rintro ⟨hmem, hw⟩
    unfold candidates at hmem
    split at hmem
    · rename_i pointer parent hv
      obtain ⟨i, hi, hstore⟩ := List.mem_filterMap.1 hmem
      exact .load hv hi (storedTo_eq_some.1 hstore) hw
    · cases hmem
    · rename_i args f hv
      rcases List.mem_append.1 hmem with hmem | hmem
      · exact .arg hv hmem hw
      · cases f with
        | none => cases hmem
        | some f =>
          obtain ⟨b, hb, hret⟩ := List.mem_filterMap.1 hmem
          obtain ⟨t, ht, hret⟩ := returned_eq_some.1 hret
          exact .ret hv hb ht hret hw
    · rename_i i _ _ _ hv
      exact .operand hv hmem hw
    · cases hmem
  · intro h
    cases h with
    | load hv hi hstore hw =>
      refine ⟨?_, hw⟩
      simp only [candidates, hv]
      exact List.mem_filterMap.2 ⟨_, hi, storedTo_eq_some.2 hstore⟩
    | arg hv hmem hw =>
      refine ⟨?_, hw⟩
      simp only [candidates, hv]
      exact List.mem_append_left _ hmem
    | ret hv hb ht hret hw =>
      refine ⟨?_, hw⟩
      simp only [candidates, hv]
      exact List.mem_append_right _
        (List.mem_filterMap.2 ⟨_, hb, returned_eq_some.2 ⟨_, ht, hret⟩⟩)
    | operand hv hmem hw =>
      rename_i i
      refine ⟨?_, hw⟩
      cases i with
      | load | cmpXchg | call => cases hmem
      | store | ret | other =>
        simp only [candidates, hv]
        exact hmem

theorem reaches_iff {v w : V} :
    Worklist.Reaches m.next v w ↔ Relation.ReflTransGen m.DependsOn v w := by
  have hnext : (fun a b => b ∈ m.next a) = m.DependsOn := by
    funext a b
    exact propext mem_next
  rw [Worklist.Reaches, hnext]

theorem mem_foldl_visit {order : List V} {lps : Finset V} {v : V} :
    v ∈ order.foldl m.visit lps ↔ v ∈ lps ∨ v ∈ order ∧ m.isLp v = true := by
  induction order generalizing lps with
  | nil => simp
  | cons w order ih =>
    rw [List.foldl_cons, ih, visit, List.mem_cons]
    split
    · rename_i hw
      rw [Finset.mem_insert]
      constructor
      · rintro ((rfl | hv) | ⟨hv, hlp⟩)
        · exact Or.inr ⟨Or.inl rfl, hw⟩
        · exact Or.inl hv
        · exact Or.inr ⟨Or.inr hv, hlp⟩
      · rintro (hv | ⟨rfl | hv, hlp⟩)
        · exact Or.inl (Or.inr hv)
        · exact Or.inl (Or.inl rfl)
        · exact Or.inr ⟨hv, hlp⟩
    · rename_i hw
      constructor
      · rintro (hv | ⟨hv, hlp⟩)
        · exact Or.inl hv
        · exact Or.inr ⟨Or.inr hv, hlp⟩
      · rintro (hv | ⟨rfl | hv, hlp⟩)
        · exact Or.inl hv
        · exact absurd hlp hw
        · exact Or.inr ⟨hv, hlp⟩

/-- **One branch** adds the linearization points that its condition depends on. -/
theorem getLpsFromBr_spec [Fintype V] {fuel : Nat} (hfuel : Fintype.card V ≤ fuel)
    (lps : Finset V) (bi : BranchInst V) :
    ∃ lps', m.getLpsFromBr fuel lps bi = some lps' ∧ ∀ v, v ∈ lps' ↔
      v ∈ lps ∨ m.isLp v = true ∧ Relation.ReflTransGen m.DependsOn bi.condition v := by
  obtain ⟨order, hrun, horder⟩ := Worklist.search_spec hfuel lps
  refine ⟨_, hrun, fun v => ?_⟩
  rw [mem_foldl_visit, horder, reaches_iff, and_comm]

/-- **The pass ends, and finds the closure.**  For a module with finitely many values, fuel for as
many steps as there are values is enough for each branch, and the linearization points found are the
loads and the compare-exchanges that the condition of a branch depends on. -/
theorem run_closure [Fintype V] (m : Module V B F) {fuel : Nat} (hfuel : Fintype.card V ≤ fuel)
    (bis : List (BranchInst V)) :
    ∃ lps, m.run fuel bis = some lps ∧ ∀ v, v ∈ lps ↔
      m.isLp v = true ∧ ∃ bi ∈ bis, Relation.ReflTransGen m.DependsOn bi.condition v := by
  induction bis using List.reverseRecOn with
  | nil => exact ⟨∅, rfl, by simp⟩
  | append_singleton bis bi ih =>
    obtain ⟨lps, hrun, hlps⟩ := ih
    obtain ⟨lps', hbr, hlps'⟩ := getLpsFromBr_spec hfuel lps bi
    unfold run at hrun
    refine ⟨lps', ?_, fun v => ?_⟩
    · rw [run, List.foldlM_append, hrun]
      simpa using hbr
    · rw [hlps', hlps]
      simp only [List.mem_append, List.mem_singleton, or_and_right, exists_or, exists_eq_left,
        and_or_left]

/-- The condition is a call of a function that returns the value of the call itself; its argument is
a phi of itself and a load, and the block of the load stores the result of a compare-exchange. -/
def cyclicModule : Module (Fin 7) (Fin 2) Unit where
  inst v := match v with
    | 0 => some (.call [1] (some ()))
    | 1 => some (.other [1, 2])
    | 2 => some (.load 3 0)
    | 4 => some (.store 5 3)
    | 5 => some .cmpXchg
    | 6 => some (.ret 0)
    | _ => none
  isConstant _ := false
  insts b := match b with
    | 0 => [2, 5, 4]
    | 1 => [6]
  blocks _ := [1]

theorem run_closure_cyclicModule :
    ∃ lps, cyclicModule.run 7 [⟨0⟩] = some lps ∧ 2 ∈ lps ∧ 5 ∈ lps ∧ 1 ∉ lps := by
  obtain ⟨lps, hrun, hlps⟩ := run_closure cyclicModule (show Fintype.card (Fin 7) ≤ 7 by simp) [⟨0⟩]
  have hload : Relation.ReflTransGen cyclicModule.DependsOn 0 2 :=
    (Relation.ReflTransGen.single (.arg (w := 1) rfl (by simp) rfl)).tail
      (.operand (w := 2) rfl (by simp [Inst.otherOperands]) rfl)
  have hstored : cyclicModule.DependsOn 2 5 := .load (i := 4) rfl (by simp [cyclicModule]) rfl rfl
  refine ⟨lps, hrun, (hlps 2).2 ⟨rfl, ⟨0⟩, by simp, hload⟩,
    (hlps 5).2 ⟨rfl, ⟨0⟩, by simp, hload.tail hstored⟩, fun hmem => ?_⟩
  exact absurd ((hlps 1).1 hmem).1 (by decide)

end Module

end Durinn
