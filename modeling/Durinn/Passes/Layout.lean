import Durinn.Passes.TracerPass

/-!
# What a visitor puts around an instruction

A visitor of the tracer pass creates its instructions one after the other, each before or after the
instruction that it visits.  Here is what that comes to: a `Layout`, that is the instructions that
end up before it and those after it, each of them casts and products first and then the calls of
the record functions.

* `Dominated` — every operand is made before it is used.
* `Layout` — what the new instructions around one instruction are, with what they may use.
* `Lays` — the edits of a visitor give a layout.
* `lays_surround`, `lays_asm`, `lays_recordsLock` — the forms that the visitors are made of.
-/

namespace Durinn

open ListEdit PyText

/-! ## Values that are there -/

/-- A value that an instruction of a function makes, or that is there from the beginning. -/
inductive Def where
  | argument (k : Nat)
  | result (place : Nat)
  | cast (owner : Option Nat) (v : IRValue) (type : IRType)
  | product (owner : Option Nat) (x y : IRValue)

/-- What has to be there for a value of the program. -/
def IRValue.needs (v : IRValue) : List Def :=
  match v.ref with
  | .constant _ => []
  | .argument k => [.argument k]
  | .result place => [.result place]

/-- What has to be there for an operand. -/
def Operand.needs (owner : Option Nat) : Operand → List Def
  | .value v => v.needs
  | .constExpr _ _ | .int64 _ => []
  | .cast v type => [.cast owner v type]
  | .product x y => [.product owner x y]

namespace RecordCall

/-- The operands of a call. -/
def operands : RecordCall → List Operand
  | .init _ | .apiBegin _ | .apiEnd _ | .br _ | .fence _ => []
  | .lockBegin _ p | .lockEnd _ p | .unlockBegin _ p | .unlockEnd _ p | .strLoad _ p
  | .strStore _ p | .flush _ p | .lock _ p | .unlock _ p => [p]
  | .load _ p length | .store _ p length | .atomicStore _ p length | .flushWrapper _ p length
  | .alloc _ p length | .txAlloc _ p length | .mmap _ p length => [p, length]
  | .cas _ p v length => [p, v, length]
  | .strcatStore _ p s => [p, s]

/-- The number that the call passes on. -/
def id? : RecordCall → Option UInt32
  | .init _ => none
  | .apiBegin id | .apiEnd id | .lockBegin id _ | .lockEnd id _ | .unlockBegin id _
  | .unlockEnd id _ | .br id | .load id _ _ | .strLoad id _ | .store id _ _ | .atomicStore id _ _
  | .cas id _ _ _ | .strStore id _ | .strcatStore id _ _ | .flush id _ | .flushWrapper id _ _
  | .fence id | .lock id _ | .unlock id _ | .alloc id _ _ | .txAlloc id _ _ | .mmap id _ _ =>
      some id

/-- Does the call record what its instruction is about to read? -/
def reads : RecordCall → Bool
  | .br _ | .load _ _ _ | .strLoad _ _ => true
  | _ => false

/-- Does the call record a store? -/
def stores : RecordCall → Bool
  | .store _ _ _ | .atomicStore _ _ _ | .cas _ _ _ _ | .strStore _ _ | .strcatStore _ _ _ => true
  | _ => false

end RecordCall

namespace Item

/-- What has to be there for an instruction.  The operands of a phi are those of the edges. -/
def needs : Item → List Def
  | .prog _ (.phi _) => []
  | .prog _ i => i.operands.flatMap IRValue.needs
  | .added _ .locking | .added _ .unlocking => []
  | .added _ (.cast v _) => v.needs
  | .added _ (.mul x y) => x.needs ++ y.needs
  | .added owner (.record call) => call.operands.flatMap (Operand.needs owner)

/-- What an instruction makes. -/
def gives : Item → List Def
  | .prog place _ => [.result place]
  | .added owner (.cast v type) => [.cast owner v type]
  | .added owner (.mul x y) => [.product owner x y]
  | .added _ _ => []

end Item

/-- Every instruction of the list finds what it needs, if at first there is `avail`. -/
def Dominated (avail : Set Def) : List Item → Prop
  | [] => True
  | item :: rest => (∀ d ∈ item.needs, d ∈ avail) ∧ Dominated (avail ∪ {d | d ∈ item.gives}) rest

section Dominated

variable {avail avail' : Set Def} {l r : List Item}

theorem Dominated.mono (h : Dominated avail l) (hsub : avail ⊆ avail') : Dominated avail' l := by
  induction l generalizing avail avail' with
  | nil => trivial
  | cons item l ih =>
    exact ⟨fun d hd => hsub (h.1 d hd), ih h.2 (Set.union_subset_union_left _ hsub)⟩

theorem dominated_append :
    Dominated avail (l ++ r) ↔
      Dominated avail l ∧ Dominated (avail ∪ {d | ∃ item ∈ l, d ∈ item.gives}) r := by
  induction l generalizing avail with
  | nil => simp [Dominated]
  | cons item l ih =>
    rw [List.cons_append, Dominated, Dominated, ih, and_assoc, Set.union_assoc]
    refine and_congr_right fun _ => and_congr_right fun _ => ?_
    have hset : {d | d ∈ item.gives} ∪ {d | ∃ item ∈ l, d ∈ item.gives} =
        {d | ∃ item' ∈ item :: l, d ∈ item'.gives} := by
      ext d
      simp
    rw [hset]

theorem dominated_of_forall (h : ∀ item ∈ l, ∀ d ∈ item.needs, d ∈ avail) : Dominated avail l := by
  induction l generalizing avail with
  | nil => trivial
  | cons item l ih =>
    rw [List.forall_mem_cons] at h
    exact ⟨h.1, ih fun item hitem d hd => Or.inl (h.2 item hitem d hd)⟩

end Dominated

namespace CiriTracerPass

variable {p : CiriTracerPass} {ci : Nat}

/-! ## The edits of one instruction -/

/-- What is added for the instruction at `ci`. -/
def items (ci : Nat) (l : List Added) : List Item := l.map (Item.added (some ci))

theorem items_append (l l' : List Added) : items ci (l ++ l') = items ci l ++ items ci l' :=
  List.map_append

theorem mem_items {a : Added} {l : List Added} : Item.added (some ci) a ∈ items ci l ↔ a ∈ l := by
  simp [items]

theorem around_create (ci : Nat) (a : Added) (l : List Added) (after : List Item) :
    Edit.around (items ci l, after) (create a ci) = some (items ci (l ++ [a]), after) := by
  rw [items_append]
  rfl

theorem around_unlock (before : List Item) (l : List Added) :
    Edit.around (before, items ci l) (instrumentUnlock ci) =
      some (before, items ci (.unlocking :: l)) := rfl

theorem foldlM_create (ci : Nat) (as l : List Added) (after : List Item) :
    (as.map fun a => create a ci).foldlM Edit.around (items ci l, after) =
      some (items ci (l ++ as), after) := by
  induction as generalizing l with
  | nil =>
    rw [List.append_nil]
    rfl
  | cons a as ih =>
    rw [List.map_cons]
    refine around_cons (around_create ci a l after) ?_
    rw [ih, List.append_assoc, List.singleton_append]

/-- Moving the instruction before one that was added before it. -/
theorem around_moveBefore (ci : Nat) {a : Added} {l : List Added} (h : a ∉ l)
    (m after : List Added) :
    Edit.around (items ci (l ++ a :: m), items ci after) (moveBefore ci a) =
      some (items ci l, items ci (a :: m ++ after)) := by
  have hne : ∀ x ∈ items ci l, x ≠ Item.added (some ci) a := by
    intro x hx heq
    rw [heq, mem_items] at hx
    exact h hx
  have htake : (items ci (l ++ a :: m)).takeWhile (· ≠ Item.added (some ci) a) = items ci l := by
    rw [items_append, List.takeWhile_append_of_pos (by simpa using hne)]
    simp [items]
  have hdrop : (items ci (l ++ a :: m)).dropWhile (· ≠ Item.added (some ci) a) =
      items ci (a :: m) := by
    rw [items_append, List.dropWhile_append_of_pos (by simpa using hne)]
    simp [items]
  rw [moveBefore, Edit.around, if_pos (mem_items.2 (by simp)), htake, hdrop, items_append (a :: m)]

/-- Inserting after one that was added before the instruction. -/
theorem around_afterOther {a : Added} {l : List Added} (h : a ∉ l) (m : List Added) (new : Added)
    (after : List Item) :
    Edit.around (items ci (l ++ a :: m), after)
        (.afterOther (.added (some ci) a) (.added (some ci) new)) =
      some (items ci (l ++ a :: new :: m), after) := by
  have hnot : Item.added (some ci) a ∉ items ci l := fun hmem => h (mem_items.1 hmem)
  rw [Edit.around, if_pos (mem_items.2 (by simp)), items_append, insertAfter_append hnot,
    items_append]
  show some (items ci l ++ insertAfter _ _ (_ :: items ci m), after) = _
  rw [insertAfter_cons_self]
  rfl

/-- **What `surround` does.** -/
theorem around_surround {casts : List Added} {before after : List RecordCall}
    (hcasts : ∀ c, .record c ∉ casts) (hdisjoint : ∀ c ∈ before, c ∉ after) :
    (surround ci casts before after).foldlM Edit.around ([], []) =
      some (items ci (.locking :: casts ++ before.map .record),
        items ci (after.map .record ++ [.unlocking])) := by
  have hcreate := foldlM_create ci (casts ++ (before ++ after).map .record) [.locking] []
  refine around_append (around_cons (around_create ci .locking [] []) hcreate)
    (around_cons (around_unlock _ []) ?_)
  cases after with
  | nil => simp
  | cons c after =>
    have hnot : Added.record c ∉ Added.locking :: casts ++ before.map .record := by
      simp only [List.cons_append, List.mem_cons, List.mem_append, List.mem_map, not_or, not_exists,
        not_and]
      refine ⟨nofun, hcasts c, ?_⟩
      rintro c' hc' heq
      cases heq
      exact hdisjoint c hc' List.mem_cons_self
    refine around_cons ?_ rfl
    have hmove := around_moveBefore ci hnot (after.map .record) [.unlocking]
    simpa only [List.map_append, List.map_cons, List.append_assoc, List.cons_append,
      List.nil_append] using hmove

end CiriTracerPass

/-! ## Layouts -/

/-- An operand made of values that `P` holds of and of instructions that were added. -/
def Operand.From (P : IRValue → Prop) (aux : List Added) : Operand → Prop
  | .value v => P v
  | .constExpr _ _ | .int64 _ => True
  | .cast v type => .cast v type ∈ aux
  | .product x y => .mul x y ∈ aux

theorem Operand.From.mono {P Q : IRValue → Prop} {aux aux' : List Added} {o : Operand}
    (h : o.From P aux) (hPQ : ∀ v, P v → Q v) (haux : ∀ a ∈ aux, a ∈ aux') : o.From Q aux' := by
  cases o with
  | value v => exact hPQ v h
  | constExpr v type | int64 n => trivial
  | cast v type => exact haux _ h
  | product x y => exact haux _ h

/-- An added instruction that records nothing, and is made of values that `P` holds of. -/
def Added.Aux (P : IRValue → Prop) : Added → Prop
  | .locking | .unlocking => True
  | .cast v _ => P v
  | .mul x y => P x ∧ P y
  | .record _ => False

/-- A call for the instruction at `ci`, made of values that `P` holds of. -/
structure RecordCall.For (p : CiriTracerPass) (ci : Nat) (P : IRValue → Prop) (aux : List Added)
    (c : RecordCall) : Prop where
  id : c.id? = some (p.getID ci)
  operands : ∀ o ∈ c.operands, o.From P aux

/-- What is added around the instruction `i` at `ci`: before it, calls that record what it reads;
after it, calls that record what it did, which may use its result. -/
structure Layout (p : CiriTracerPass) (ci : Nat) (i : IRInst) where
  auxBefore : List Added
  callsBefore : List RecordCall
  auxAfter : List Added
  callsAfter : List RecordCall
  post : List Added
  aux_before : ∀ a ∈ auxBefore, a.Aux (· ∈ i.operands)
  calls_before : ∀ c ∈ callsBefore, c.reads = true ∧ c.For p ci (· ∈ i.operands) auxBefore
  aux_after : ∀ a ∈ auxAfter, a.Aux fun v => v ∈ i.operands ∨ v.ref = .result ci
  calls_after : ∀ c ∈ callsAfter, c.reads = false ∧
    c.For p ci (fun v => v ∈ i.operands ∨ v.ref = .result ci) (auxBefore ++ auxAfter)
  post_unlocking : ∀ a ∈ post, a = .unlocking
  phi : i.isPhi = true → auxBefore = [] ∧ callsBefore = []
  terminator : i.isTerminator = true ∨ i.isPhi = true → auxAfter = [] ∧ callsAfter = [] ∧ post = []

namespace Layout

variable {p : CiriTracerPass} {ci : Nat} {i : IRInst}

/-- The instructions before. -/
def before (L : Layout p ci i) : List Added := L.auxBefore ++ L.callsBefore.map .record

/-- The instructions after. -/
def after (L : Layout p ci i) : List Added := L.auxAfter ++ L.callsAfter.map .record ++ L.post

/-- The layout is what the visitor of the instruction makes. -/
def Made (L : Layout p ci i) : Prop :=
  ∃ es, p.visit ci i = some es ∧ es.foldlM Edit.around ([], []) =
    some (CiriTracerPass.items ci L.before, CiriTracerPass.items ci L.after)

end Layout

namespace CiriTracerPass

variable {p : CiriTracerPass} {ci : Nat} {i : IRInst}

/-! ### The calls for an instruction -/

/-- The calls of record functions among some instructions. -/
def recordsOf (l : List Item) : List RecordCall :=
  l.filterMap fun item => match item with
    | .added _ (.record c) => some c
    | _ => none

/-- The calls that are made before and after the instruction `i` at `ci`. -/
def calls (p : CiriTracerPass) (ci : Nat) (i : IRInst) :
    Option (List RecordCall × List RecordCall) := do
  let es ← p.visit ci i
  let (before, after) ← es.foldlM Edit.around ([], [])
  return (recordsOf before, recordsOf after)

/-- Nothing is added for an instruction whose visitor makes no edits. -/
theorem made_nil {L : Layout p ci i} (h : L.Made) (hvisit : p.visit ci i = some []) :
    L.before = [] ∧ L.after = [] := by
  obtain ⟨es, hes, hfold⟩ := h
  cases hvisit.symm.trans hes
  obtain ⟨hbefore, hafter⟩ := Prod.mk.inj (Option.some.inj hfold)
  exact ⟨List.map_eq_nil_iff.1 hbefore.symm, List.map_eq_nil_iff.1 hafter.symm⟩

/-- The edits lead to a layout, which records a store or not. -/
def Lays (p : CiriTracerPass) (ci : Nat) (i : IRInst) (stores : Bool) (es : List (Edit Item)) :
    Prop :=
  (∀ e ∈ es, ∀ z ∈ e.new?, ∃ a, z = .added (some ci) a) ∧ ∃ L : Layout p ci i,
    es.foldlM Edit.around ([], []) = some (items ci L.before, items ci L.after) ∧
      L.callsAfter.any RecordCall.stores = stores

theorem lays_nil : Lays p ci i false [] :=
  ⟨by simp, ⟨[], [], [], [], [], by simp, by simp, by simp, by simp, by simp, by simp, by simp⟩,
    rfl, rfl⟩

theorem castInsts_cast {P : IRValue → Prop} {v : IRValue} (hv : P v) (type : IRType) :
    ∀ a ∈ castInsts v type, ∃ v' ty, a = .cast v' ty ∧ P v' := by
  intro a ha
  unfold castInsts at ha
  split_ifs at ha
  · cases ha
  · cases ha
  · exact ⟨v, type, List.mem_singleton.1 ha, hv⟩

theorem castInsts_append_cast {P : IRValue → Prop} {v w : IRValue} (hv : P v) (hw : P w)
    (type type' : IRType) :
    ∀ a ∈ castInsts v type ++ castInsts w type', ∃ v' ty, a = .cast v' ty ∧ P v' := by
  intro a ha
  rcases List.mem_append.1 ha with ha | ha
  · exact castInsts_cast hv type a ha
  · exact castInsts_cast hw type' a ha

theorem castTo_from {P : IRValue → Prop} {v : IRValue} (hv : P v) {type : IRType} {aux : List Added}
    (haux : ∀ a ∈ castInsts v type, a ∈ aux) : (castTo v type).From P aux := by
  unfold castTo
  unfold castInsts at haux
  split_ifs at haux ⊢ with h h'
  · exact hv
  · trivial
  · exact haux _ List.mem_cons_self

theorem forall_mem_pair {α : Type} {P : α → Prop} {x y : α} :
    (∀ z ∈ [x, y], P z) ↔ P x ∧ P y := by
  rw [List.forall_mem_cons, List.forall_mem_singleton]

theorem new?_create (l : List Added) :
    ∀ e ∈ l.map (fun a => create a ci), ∀ z ∈ e.new?, ∃ a, z = .added (some ci) a := by
  intro e he z hz
  obtain ⟨a, -, rfl⟩ := List.mem_map.1 he
  cases hz
  exact ⟨a, rfl⟩

/-- An instruction that is surrounded. -/
theorem lays_surround (hi : i.isPhi = false ∧ i.isTerminator = false) {casts : List Added}
    {before after : List RecordCall}
    (hcasts : ∀ a ∈ casts, ∃ v ty, a = .cast v ty ∧ v ∈ i.operands)
    (hbefore : ∀ c ∈ before, c.reads = true ∧ c.For p ci (· ∈ i.operands) casts)
    (hafter : ∀ c ∈ after, c.reads = false ∧
      c.For p ci (fun v => v ∈ i.operands ∨ v.ref = .result ci) casts) :
    Lays p ci i (after.any RecordCall.stores) (surround ci casts before after) := by
  have hrecord : ∀ c, .record c ∉ casts := by
    intro c hc
    obtain ⟨v, ty, h, -⟩ := hcasts _ hc
    cases h
  have hdisjoint : ∀ c ∈ before, c ∉ after := fun c hc hc' =>
    absurd (hbefore c hc).1 (by rw [(hafter c hc').1]; decide)
  have hmono : ∀ {P : IRValue → Prop} {c : RecordCall}, c.For p ci P casts →
      c.For p ci P (.locking :: casts) := fun h =>
    ⟨h.id, fun o ho => (h.operands o ho).mono (fun _ hv => hv) fun _ ha =>
      List.mem_cons_of_mem _ ha⟩
  refine ⟨?_, ⟨.locking :: casts, before, [], after, [.unlocking], ?_, fun c hc => ?_, by simp,
    fun c hc => ?_, by simp, by simp [hi.1], by simp [hi.1, hi.2]⟩, ?_, rfl⟩
  · intro e he z hz
    rw [surround, List.cons_append, List.mem_cons, List.mem_append, List.mem_cons] at he
    rcases he with rfl | he | rfl | he
    · cases hz
      exact ⟨_, rfl⟩
    · exact new?_create _ e he z hz
    · cases hz
      exact ⟨_, rfl⟩
    · obtain ⟨c, -, rfl⟩ := List.mem_map.1 he
      cases hz
  · rw [List.forall_mem_cons]
    refine ⟨trivial, fun a ha => ?_⟩
    obtain ⟨v, ty, rfl, hv⟩ := hcasts a ha
    exact hv
  · exact ⟨(hbefore c hc).1, hmono (hbefore c hc).2⟩
  · rw [List.append_nil]
    exact ⟨(hafter c hc).1, hmono (hafter c hc).2⟩
  · exact around_surround hrecord hdisjoint

/-- The two branches of `visitInlineAsm` that insert `unlocking` after a call: the result is as
for the others. -/
theorem lays_asm (hi : i.isPhi = false ∧ i.isTerminator = false) {casts : List Added}
    {c : RecordCall} (hcasts : ∀ a ∈ casts, ∃ v ty, a = .cast v ty ∧ v ∈ i.operands)
    (hc : c.reads = false ∧ c.For p ci (fun v => v ∈ i.operands ∨ v.ref = .result ci) casts) :
    Lays p ci i c.stores (instrumentLock ci :: casts.map (fun a => create a ci) ++
      [create (.record c) ci,
        .afterOther (.added (some ci) (.record c)) (.added (some ci) .unlocking),
        moveBefore ci (.record c)]) := by
  obtain ⟨hnew, L, hL, hstores⟩ := lays_surround hi hcasts
    (List.forall_mem_nil _) (List.forall_mem_singleton.2 hc)
  have hcall : ∀ c', Added.record c' ∉ Added.locking :: casts := by
    intro c' hmem
    rcases List.mem_cons.1 hmem with h | hmem
    · cases h
    · obtain ⟨v, ty, h, -⟩ := hcasts _ hmem
      cases h
  refine ⟨?_, L, ?_, by simpa using hstores⟩
  · intro e he z hz
    simp only [List.cons_append, List.mem_cons, List.mem_append, List.not_mem_nil, or_false] at he
    rcases he with rfl | he | rfl | rfl | rfl
    · cases hz
      exact ⟨_, rfl⟩
    · exact new?_create _ e he z hz
    · cases hz
      exact ⟨_, rfl⟩
    · cases hz
      exact ⟨_, rfl⟩
    · cases hz
  · rw [← hL, around_surround (fun c' hc' => hcall c' (List.mem_cons_of_mem _ hc')) (by simp)]
    refine around_append (around_cons (around_create ci .locking [] [])
      (foldlM_create ci casts _ _)) ?_
    refine around_cons (around_create ci (.record c) _ _) (around_cons
      (around_afterOther (hcall c) [] .unlocking _) (around_cons ?_ rfl))
    rw [List.map_nil, List.append_nil]
    exact around_moveBefore ci (hcall c) [.unlocking] []

/-- The two branches of `visitLockCall`. -/
theorem lays_recordsLock (hi : i.isPhi = false ∧ i.isTerminator = false) {pointer : IRValue}
    (hpointer : pointer ∈ i.operands) {recInst : UInt32 → Operand → RecordCall}
    (hrec : recInst = .lock ∨ recInst = .unlock) :
    Lays p ci i false (p.recordsLock ci pointer recInst) := by
  have hcasts := castInsts_cast hpointer .voidPtr
  have hfrom : (castTo pointer .voidPtr).From (fun v => v ∈ i.operands ∨ v.ref = .result ci)
      (castInsts pointer .voidPtr ++ []) := castTo_from (Or.inl hpointer) (by simp)
  have hnot : Added.record (recInst (p.getID ci) (castTo pointer .voidPtr)) ∉
      castInsts pointer .voidPtr := by
    intro hmem
    obtain ⟨v, ty, h, -⟩ := hcasts _ hmem
    cases h
  refine ⟨?_, ⟨castInsts pointer .voidPtr, [], [], [recInst (p.getID ci) (castTo pointer .voidPtr)],
    [], ?_, by simp, by simp, ?_, by simp, by simp [hi.1], by simp [hi.1, hi.2]⟩, ?_, ?_⟩
  · intro e he z hz
    simp only [recordsLock, List.mem_append, List.mem_cons, List.not_mem_nil, or_false] at he
    rcases he with he | rfl | rfl
    · exact new?_create _ e he z hz
    · cases hz
      exact ⟨_, rfl⟩
    · cases hz
  · intro a ha
    obtain ⟨v, ty, rfl, hv⟩ := hcasts a ha
    exact hv
  · rw [List.forall_mem_singleton]
    rcases hrec with rfl | rfl <;> exact ⟨rfl, rfl, by simpa [RecordCall.operands] using hfrom⟩
  · refine around_append (foldlM_create ci _ [] []) (around_cons (around_create ci _ _ _)
      (around_cons ?_ rfl))
    have hmove := around_moveBefore ci hnot [] []
    rw [List.append_nil] at hmove
    refine hmove.trans (congrArg some (Prod.ext ?_ rfl))
    exact congrArg (items ci) (List.append_nil _).symm
  · rcases hrec with rfl | rfl <;> rfl

/-- The call of `calloc` is moved before the multiplication as well. -/
theorem lays_visitCalloc (hi : i.isPhi = false ∧ i.isTerminator = false) {x y result : IRValue}
    (hx : x ∈ i.operands) (hy : y ∈ i.operands) (hresult : result.ref = .result ci) :
    Lays p ci i true (p.visitCalloc ci x y result) := by
  have hcasts := castInsts_cast (P := fun v => v ∈ i.operands ∨ v.ref = .result ci) (Or.inr hresult)
    .voidPtr
  have hfrom : (castTo result .voidPtr).From (fun v => v ∈ i.operands ∨ v.ref = .result ci)
      ([.locking] ++ (.mul x y :: castInsts result .voidPtr)) :=
    castTo_from (Or.inr hresult) fun a ha => by simp [ha]
  have hnot : Added.record (.store (p.getID ci) (castTo result .voidPtr) (.product x y)) ∉
      .locking :: .mul x y :: castInsts result .voidPtr := by
    simp only [List.mem_cons, reduceCtorEq, false_or]
    intro hmem
    obtain ⟨v, ty, h, -⟩ := hcasts _ hmem
    cases h
  refine ⟨?_, ⟨[.locking], [], .mul x y :: castInsts result .voidPtr,
    [.store (p.getID ci) (castTo result .voidPtr) (.product x y)], [.unlocking],
    ?_, by simp, ?_, ?_, by simp, by simp [hi.1], by simp [hi.1, hi.2]⟩, ?_, rfl⟩
  · intro e he z hz
    simp only [visitCalloc, List.mem_append, List.mem_cons, List.not_mem_nil, or_false] at he
    rcases he with ((rfl | rfl) | he) | rfl | rfl | rfl | rfl
    · cases hz
      exact ⟨_, rfl⟩
    · cases hz
      exact ⟨_, rfl⟩
    · exact new?_create _ e he z hz
    · cases hz
      exact ⟨_, rfl⟩
    · cases hz
      exact ⟨_, rfl⟩
    · cases hz
    · cases hz
  · rw [List.forall_mem_singleton]
    trivial
  · rw [List.forall_mem_cons]
    refine ⟨⟨Or.inl hx, Or.inl hy⟩, fun a ha => ?_⟩
    obtain ⟨v, ty, rfl, hv⟩ := hcasts a ha
    exact hv
  · rw [List.forall_mem_singleton]
    exact ⟨rfl, rfl, forall_mem_pair.2 ⟨hfrom, by simp [Operand.From]⟩⟩
  · refine around_append (around_append (around_cons (around_create ci .locking [] []) (around_cons
      (around_create ci (.mul x y) _ _) rfl)) (foldlM_create ci _ _ _)) ?_
    refine around_cons (around_create ci _ _ _) (around_cons (around_unlock _ []) (around_cons
      (around_moveBefore ci hnot [] [.unlocking]) (around_cons ?_ rfl)))
    have hmove := around_moveBefore ci (l := [.locking]) (a := .mul x y) (by simp)
      (castInsts result .voidPtr)
    refine (hmove _).trans (congrArg some (Prod.ext rfl ?_))
    exact congrArg (items ci) (List.append_assoc _ _ _).symm

theorem lays_visitBranchInst (condition : Option IRValue) (succs : List Nat) :
    Lays p ci (.br condition succs) false (p.visitBranchInst ci condition) := by
  unfold visitBranchInst
  split
  · exact lays_nil
  · refine ⟨?_, ⟨[], [.br (p.getID ci)], [], [], [], by simp, ?_, by simp, by simp, by simp,
      by simp [IRInst.isPhi], by simp⟩, rfl, rfl⟩
    · rw [List.forall_mem_singleton]
      rintro z hz
      cases hz
      exact ⟨_, rfl⟩
    · rw [List.forall_mem_singleton]
      exact ⟨rfl, rfl, by simp [RecordCall.operands]⟩

end CiriTracerPass

end Durinn
