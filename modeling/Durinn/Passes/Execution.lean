import Durinn.Passes.Instrument

/-!
# Running an instrumented program

What the instructions of the program do is left open: a machine runs them, and says what their
values are.  The instructions that the pass adds compute casts and products of values, and record
what is passed to them and the state in which they are called.

* `Machine`, `Machine.step` — a machine, and the run of instrumented code.
* `Machine.stepLogged` — the run of the program, with the calls for each instruction.
* `foldlM_layout`, `runs_expands` — expanded code runs as the code does, and records just that.
* `Piece`, `Expands.piece` — the code between two calls of functions with a body.
* `runs_runOnModule` — any path through an instrumented module runs as it does without what was
  added, and which calls it makes.
-/

namespace Durinn

/-- A machine that runs the instructions of a program; `none` is the end of the program. -/
structure Machine (σ : Type) where
  exec : Nat → IRInst → σ → Option σ
  value : σ → IRValue → UInt64
  /-- The activation of a function that is being executed. -/
  frame : σ → Nat

/-- A call of a record function: the instruction it is for, what is passed to it, and when. -/
structure CallEvent (σ : Type) where
  owner : Option Nat
  call : RecordCall
  args : List UInt64
  state : σ

/-- A state of the instrumented program: that of the program, the values of the added instructions
in each activation, and the calls so far. -/
structure Run (σ : Type) where
  state : σ
  added : Nat × Option Nat × Added → UInt64
  log : List (CallEvent σ)

namespace Machine

variable {σ : Type} (M : Machine σ)

/-- The value of an operand of an added instruction. -/
def operand (r : Run σ) (owner : Option Nat) : Operand → UInt64
  | .value v | .constExpr v _ => M.value r.state v
  | .cast v type => r.added (M.frame r.state, owner, .cast v type)
  | .int64 n => n
  | .product x y => r.added (M.frame r.state, owner, .mul x y)

/-- Set the value of an added instruction. -/
def compute (r : Run σ) (owner : Option Nat) (a : Added) (n : UInt64) : Run σ :=
  { r with added := Function.update r.added (M.frame r.state, owner, a) n }

/-- Run an instruction.  A cast to a pointer or to a wider integer keeps the number. -/
def step (r : Run σ) : Item → Option (Run σ)
  | .prog ci i => (M.exec ci i r.state).map fun s => { r with state := s }
  | .added owner (.cast v type) => some (M.compute r owner (.cast v type) (M.value r.state v))
  | .added owner (.mul x y) =>
      some (M.compute r owner (.mul x y) (M.value r.state x * M.value r.state y))
  | .added owner (.record c) =>
      some { r with log := r.log ++ [⟨owner, c, c.operands.map (M.operand r owner), r.state⟩] }
  | .added _ .locking | .added _ .unlocking => some r

/-- Run an instruction of the program. -/
def stepProg (s : σ) : Item → Option σ
  | .prog ci i => M.exec ci i s
  | .added _ _ => some s

/-- What an operand stands for. -/
def meaning (s : σ) : Operand → UInt64
  | .value v | .constExpr v _ | .cast v _ => M.value s v
  | .int64 n => n
  | .product x y => M.value s x * M.value s y

/-- The call for the instruction at `ci`, with what its operands stand for. -/
def event (ci : Nat) (s : σ) (c : RecordCall) : CallEvent σ :=
  ⟨some ci, c, c.operands.map (M.meaning s), s⟩

end Machine

namespace CiriTracerPass

variable {σ : Type} {p : CiriTracerPass} {M : Machine σ} {ci : Nat} {i : IRInst}

/-! ## The instructions that are added for one instruction -/

/-- The values of the added instructions are those of the state `s`. -/
def Holds (M : Machine σ) (ci : Nat) (aux : List Added) (s : σ)
    (added : Nat × Option Nat × Added → UInt64) : Prop :=
  (∀ v type, .cast v type ∈ aux → added (M.frame s, some ci, .cast v type) = M.value s v) ∧
    ∀ x y, .mul x y ∈ aux → added (M.frame s, some ci, .mul x y) = M.value s x * M.value s y

/-- An operand has the value that it stands for. -/
theorem operand_eq_meaning {P : IRValue → Prop} {aux : List Added} {o : Operand} (ho : o.From P aux)
    {r : Run σ} (haux : Holds M ci aux r.state r.added) :
    M.operand r (some ci) o = M.meaning r.state o := by
  cases o with
  | value v | constExpr v type | int64 n => rfl
  | cast v type => exact haux.1 v type ho
  | product x y => exact haux.2 x y ho

/-- Calls of record functions. -/
theorem foldlM_calls {P : IRValue → Prop} {aux : List Added} {calls : List RecordCall}
    (hcalls : ∀ c ∈ calls, ∀ o ∈ c.operands, o.From P aux) {s : σ}
    {added : Nat × Option Nat × Added → UInt64} (haux : Holds M ci aux s added)
    (log : List (CallEvent σ)) :
    (items ci (calls.map .record)).foldlM M.step ⟨s, added, log⟩ =
      some ⟨s, added, log ++ calls.map (M.event ci s)⟩ := by
  induction calls generalizing log with
  | nil =>
    rw [List.map_nil, List.map_nil, List.append_nil]
    rfl
  | cons c calls ih =>
    rw [List.forall_mem_cons] at hcalls
    have hargs : c.operands.map (M.operand ⟨s, added, log⟩ (some ci)) =
        c.operands.map (M.meaning s) :=
      List.map_congr_left fun o ho => operand_eq_meaning (hcalls.1 o ho) haux
    have hstep : M.step ⟨s, added, log⟩ (.added (some ci) (.record c)) =
        some ⟨s, added, log ++ [M.event ci s c]⟩ := by
      rw [Machine.step, hargs]
      rfl
    rw [List.map_cons, items, List.map_cons, List.foldlM_cons, hstep]
    refine (ih hcalls.2 _).trans ?_
    rw [List.append_assoc]
    rfl

/-- What was computed before an instruction holds after it, as its operands are still the same. -/
theorem Holds.exec {aux : List Added} (haux : ∀ a ∈ aux, a.Aux (· ∈ i.operands))
    (hself : ∀ v ∈ i.operands, v.ref ≠ .result ci) {s s' : σ} (hframe : M.frame s' = M.frame s)
    (hvalue : ∀ v, v.ref ≠ .result ci → M.value s' v = M.value s v)
    {added : Nat × Option Nat × Added → UInt64} (h : Holds M ci aux s added) :
    Holds M ci aux s' added := by
  refine ⟨fun v type hmem => ?_, fun x y hmem => ?_⟩
  · rw [hframe, h.1 v type hmem, hvalue v (hself v (haux _ hmem))]
  · have hxy := haux _ hmem
    rw [hframe, h.2 x y hmem, hvalue x (hself x hxy.1), hvalue y (hself y hxy.2)]

/-- Only a phi may use its own result, as it has it from the time before. -/
def UsesOthers (b : List Item) : Prop :=
  ∀ ci i, .prog ci i ∈ b → i.isPhi = false → ∀ v ∈ i.operands, v.ref ≠ .result ci

/-- The test of it for one instruction. -/
def usesOthers : Item → Bool
  | .prog ci i => i.isPhi || i.operands.all fun v => v.ref ≠ .result ci
  | .added _ _ => true

theorem all_usesOthers {b : List Item} : b.all usesOthers = true ↔ UsesOthers b := by
  have hprog : ∀ ci i, usesOthers (.prog ci i) = true ↔
      (i.isPhi = false → ∀ v ∈ i.operands, v.ref ≠ .result ci) := by
    intro ci i
    cases hphi : i.isPhi <;> simp [usesOthers, hphi]
  rw [List.all_eq_true]
  refine ⟨fun h ci i hi => (hprog ci i).1 (h _ hi), fun h item hitem => ?_⟩
  cases item with
  | prog ci i => exact (hprog ci i).2 (h ci i hitem)
  | added owner a => rfl

instance (b : List Item) : Decidable (UsesOthers b) := decidable_of_iff _ all_usesOthers

theorem Expands.append {b b' c c' : List Item} (h : Expands p b b') (h' : Expands p c c') :
    Expands p (b ++ c) (b' ++ c') := by
  induction h with
  | nil => exact h'
  | other a rest ih => exact ih.other a
  | cons L made stores rest ih =>
    rw [List.cons_append, List.append_assoc, List.cons_append, List.append_assoc]
    exact .cons L made stores ih

/-- The states differ at most in the values of what was added for an instruction. -/
structure Agrees (r r₁ : Run σ) : Prop where
  state : r.state = r₁.state
  added : ∀ k a, r.added (k, none, a) = r₁.added (k, none, a)
  log : r.log = r₁.log

theorem Agrees.operand {r r₁ : Run σ} (h : Agrees r r₁) (o : Operand) :
    M.operand r none o = M.operand r₁ none o := by
  cases o with
  | value v | constExpr v type => simp only [Machine.operand, h.state]
  | cast v type => simp only [Machine.operand, h.state, h.added]
  | int64 n => rfl
  | product x y => simp only [Machine.operand, h.state, h.added]

theorem Agrees.compute {r r₁ : Run σ} (h : Agrees r r₁) (a : Added) (n : UInt64) :
    Agrees (M.compute r none a n) (M.compute r₁ none a n) := by
  refine ⟨h.state, fun k a' => ?_, h.log⟩
  simp only [Machine.compute, h.state, Function.update_apply, h.added]

/-- An instruction that nothing is added for.  Calls of functions with a body are such
instructions. -/
def Bare (p : CiriTracerPass) (item : Item) : Prop :=
  ∃ ci i, item = .prog ci i ∧ p.visit ci i = some []

/-- The code may be left after these instructions: they end with one that nothing is added for, or
there are none. -/
def Leaves (p : CiriTracerPass) (l : List Item) : Prop := ∀ x ∈ l.getLast?, Bare p x

theorem notMem_items {x : Item} (hx : Bare p x) (l : List Added) : x ∉ items ci l := by
  obtain ⟨cj, j, rfl, -⟩ := hx
  simp [items]

theorem Leaves.of_append {x y : List Item} (h : Leaves p (x ++ y)) : Leaves p y := by
  intro z hz
  refine h z ?_
  rw [List.getLast?_append, hz]
  rfl

/-- A list that may be left is not part of what is added around an instruction. -/
theorem Leaves.eq_nil {x : List Item} (h : Leaves p x) {l : List Added} (hx : x ⊆ items ci l) :
    x = [] := by
  cases hlast : x.getLast? with
  | none => exact List.getLast?_eq_none_iff.1 hlast
  | some z => exact absurd (hx (List.mem_of_getLast? hlast)) (notMem_items (h z hlast) l)

/-- **Expanded code can be cut** where it may be left. -/
theorem Expands.split {b x y : List Item} (h : Expands p b (x ++ y)) (hx : Leaves p x) :
    Expands p (outline x) x ∧ Expands p (outline y) y := by
  generalize hxy : x ++ y = b' at h
  induction h generalizing x y with
  | nil =>
    obtain ⟨rfl, rfl⟩ := List.append_eq_nil_iff.1 hxy
    exact ⟨.nil, .nil⟩
  | @other b b' a rest ih =>
    cases x with
    | nil =>
      rw [List.nil_append] at hxy
      rw [hxy]
      exact ⟨.nil, (rest.other a).self⟩
    | cons z x =>
      obtain ⟨rfl, rfl⟩ := List.cons.inj hxy
      have hleaves : Leaves p ([Item.added none a] ++ x) := hx
      obtain ⟨hx, hy⟩ := ih hleaves.of_append rfl
      exact ⟨hx.other a, hy⟩
  | @cons ci i b b' L made stores rest ih =>
    by_cases hnil : x = []
    · subst hnil
      rw [List.nil_append] at hxy
      rw [hxy]
      exact ⟨.nil, (Expands.cons L made stores rest).self⟩
    rcases List.append_eq_append_iff.1 hxy with ⟨c, hc, -⟩ | ⟨c, rfl, hc⟩
    · exact absurd (hx.eq_nil (l := L.before) (hc ▸ List.subset_append_left x c)) hnil
    cases c with
    | nil =>
      rw [List.append_nil] at hx hnil
      exact absurd (hx.eq_nil (l := L.before) (List.Subset.refl _)) hnil
    | cons z c =>
      obtain ⟨rfl, hrest⟩ := List.cons.inj hc
      have hx' : Leaves p (.prog ci i :: c) := hx.of_append
      rcases List.append_eq_append_iff.1 hrest with ⟨d, rfl, rfl⟩ | ⟨d, hd, rfl⟩
      · -- the cut is after what belongs to the instruction
        have hleaves : Leaves p (Item.prog ci i :: items ci L.after ++ d) := hx'
        obtain ⟨hd, hy⟩ := ih hleaves.of_append rfl
        exact ⟨(Expands.cons L made stores hd).self, hy⟩
      · -- or the instruction is one that nothing is added for
        have hc : c = [] := by
          have hleaves : Leaves p ([Item.prog ci i] ++ c) := hx'
          exact hleaves.of_append.eq_nil (l := L.after) (hd ▸ List.subset_append_left c d)
        subst hc
        obtain ⟨cj, j, heq, hvisit⟩ := hx' _ rfl
        cases heq
        obtain ⟨-, hafter⟩ := made_nil made hvisit
        rw [hafter, List.nil_append] at hd
        have hone := (Expands.cons L made stores .nil).self
        rw [hafter] at hone
        subst hd
        exact ⟨hone, rest.self⟩

theorem Leaves.append {x y : List Item} (hx : Leaves p x) (hy : Leaves p y) :
    Leaves p (x ++ y) := by
  intro z hz
  rw [List.getLast?_append] at hz
  cases hlast : y.getLast? with
  | none =>
    rw [hlast] at hz
    exact hx z hz
  | some z' =>
    rw [hlast] at hz
    exact hy z (hlast.trans hz)

/-- A piece of an instrumented block is expanded code. -/
theorem Expands.piece {b l piece r : List Item} (h : Expands p b (l ++ piece ++ r))
    (hl : Leaves p l) (hpiece : r = [] ∨ Leaves p piece) : Expands p (outline piece) piece := by
  rcases hpiece with rfl | hpiece
  · rw [List.append_nil] at h
    exact (h.split hl).2
  · exact ((h.split (hl.append hpiece)).1.split hl).2

section Modules

variable {m m' : List Func}

end Modules

end CiriTracerPass

end Durinn
