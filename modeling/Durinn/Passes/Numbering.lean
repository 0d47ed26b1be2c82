import Durinn.Lib.Dict
import Durinn.Lib.Runs
import Durinn.Lib.TextJoin
import Durinn.Trace.MemOps

/-!
# The numbers of instructions

Three compiler passes go through a module.  `LoadStoreNumberPass` gives numbers to the
instructions that can show up in a trace, `PrintSrcMap` prints them with their source lines, and
`CiriTracerPass` writes them into the trace.  Each has a list of kinds of instructions of its own,
and the first two have a counter each.  `QueryLoadStoreNumbers` reads the numbers back.

* `printSrcMap_numbers` — `PrintSrcMap` prints the numbers that `LoadStoreNumberPass` assigns.
* `numbers_eq_range'_iff` — they are `1` to `n`, unless the counter of 32 bits overflows.
* `query_spec` — then the two maps of `QueryLoadStoreNumbers` are inverse to each other.
-/

namespace Durinn

open PyText

/-! ## Modules -/

/-- What a `CallInst` calls. -/
inductive Callee where
  /-- Inline assembly. -/
  | inlineAsm (asm : Text)
  /-- A function, which may be only declared in the module. -/
  | direct (name : Text) (isDeclaration : Bool)
  /-- A function pointer. -/
  | indirect
  deriving DecidableEq, Repr

/-- The kinds of instructions that the passes tell apart. -/
inductive InstKind where
  | load
  | store
  | select
  | call (callee : Callee)
  | atomicRmw
  | atomicCmpXchg
  | br (isConditional : Bool)
  | other
  deriving DecidableEq, Repr

/-- An instruction, with the file and the line of its debug location. -/
structure Instr where
  kind : InstKind
  loc : Option (Text × Nat)
  deriving DecidableEq, Repr

/-- A module: the instructions of the basic blocks of its functions. -/
structure Bitcode where
  functions : List (List (List Instr))

/-- The instructions in the order in which `visit` goes through them. -/
def Bitcode.insts (m : Bitcode) : List Instr := m.functions.flatten.flatten

/-! ## The passes that count -/

/-- A visitor with a counter: what `g` selects gets the next number. -/
def countVisit {α β : Type} (g : α → Option β) (st : UInt32 × List (β × UInt32)) (x : α) :
    UInt32 × List (β × UInt32) :=
  match g x with
  | some b => (st.1 + 1, st.2 ++ [(b, st.1 + 1)])
  | none => st

/-- A pass with a counter that starts at `0`. -/
def countPass {α β : Type} (g : α → Option β) (l : List α) : List (β × UInt32) :=
  (l.foldl (countVisit g) (0, [])).2

/-- The visitors of `LoadStoreNumberPass`. -/
def LoadStoreNumberPass.visits : InstKind → Bool
  | .load => true
  | .store => true
  | .select => true
  | .call _ => true
  | .atomicRmw => true
  | .atomicCmpXchg => true
  | .br isConditional => isConditional
  | .other => false

/-- `LoadStoreNumberPass`: the instructions that get a number, by their places, with the numbers. -/
def loadStoreNumbers (m : Bitcode) : List (Nat × UInt32) :=
  countPass (fun x => if LoadStoreNumberPass.visits x.1.kind then some x.2 else none)
    m.insts.zipIdx

/-- The visitors of `PrintSrcMap`: what they print for the kind of the instruction. -/
def PrintSrcMap.suffix : InstKind → Option Text
  | .load => some "load".toList
  | .store => some "store".toList
  | .select => some "select".toList
  | .call _ => some "call".toList
  | .atomicRmw => some "atomic_rmw".toList
  | .atomicCmpXchg => some "atomic_cmp".toList
  | .br true => some "br_cond".toList
  | .br false => none
  | .other => none

/-- `locateSrcInfo`. -/
def Instr.locateSrcInfo (i : Instr) : Text :=
  match i.loc with
  | some (file, line) => file ++ ':' :: Nat.toDigits 10 line
  | none => "NIL".toList

/-- An instruction that `PrintSrcMap` prints: its place and its kind. -/
structure SrcInst where
  inst : Instr
  place : Nat
  suffix : Text

/-- `PrintSrcMap`: the instructions that it prints, with the numbers. -/
def printSrcMap (m : Bitcode) : List (SrcInst × UInt32) :=
  countPass (fun x => (PrintSrcMap.suffix x.1.kind).map fun suffix => ⟨x.1, x.2, suffix⟩)
    m.insts.zipIdx

/-! ## Reading the numbers back -/

/-- `QueryLoadStoreNumbers`: its two maps. -/
structure QueryLoadStoreNumbers where
  idMap : Dict Nat UInt32
  instMap : Dict UInt32 Nat

namespace QueryLoadStoreNumbers

/-- The loop body of `runOnModule`; `none` is a failed assertion. -/
def step (q : QueryLoadStoreNumbers) (x : Nat × UInt32) : Option QueryLoadStoreNumbers :=
  if x.2 = 0 then none
  else if x.2 ∈ q.instMap.keys then none
  else some ⟨q.idMap.set x.1 x.2, q.instMap.set x.2 x.1⟩

/-- `runOnModule`, on the numbers of the metadata. -/
def run (numbers : List (Nat × UInt32)) : Option QueryLoadStoreNumbers :=
  numbers.foldlM step ⟨Dict.empty, Dict.empty⟩

/-- `getID`: `0` for an instruction without a number. -/
def getID (q : QueryLoadStoreNumbers) (place : Nat) : UInt32 := (q.idMap.get? place).getD 0

/-- `getInstByID`. -/
def getInstByID (q : QueryLoadStoreNumbers) (id : UInt32) : Option Nat := q.instMap.get? id

end QueryLoadStoreNumbers

/-! ## The pass that writes the trace -/

namespace CiriTracerPass

/-- The name that `visitCallInst` compares: without the parameters if the name can be demangled. -/
def funcName (demangle : Text → Option Text) (mangled : Text) : Text :=
  match demangle mangled with
  | some full => full.takeWhile (· ≠ '(')
  | none => mangled

/-- Does `visitInlineAsm` emit a store record? -/
def asmStores (asm : Text) : Bool :=
  if contains "clflush $0".toList asm || contains "xsaveopt $0".toList asm then false
  else if contains "mfence".toList asm then false
  else contains "xchgq $0,$1".toList asm

/-- The calls for which `visitSpecialCall` emits a store record. -/
def specialCallStores (name : Text) : Bool :=
  "llvm.memset.".toList.isPrefixOf name || "llvm.memcpy.".toList.isPrefixOf name ||
    "llvm.memmove.".toList.isPrefixOf name ||
    (["strcpy", "strncpy", "__strncpy_chk", "strcat", "calloc", "sprintf", "fgets",
      "snprintf"].map String.toList).contains name

/-- The calls for which `visitPmemCall` emits a store record. -/
def pmemCallStores (name : Text) : Bool :=
  (["pmem_memmove_nodrain", "pmem_memcpy_nodrain", "pmem_memmove_persist", "pmem_memcpy_persist",
    "pmem_memmove", "pmem_memcpy", "pmem_memset_nodrain", "pmem_memset_persist",
    "pmem_memset"].map String.toList).contains name

/-- Does `visitCallInst` emit a store record? -/
def callStores (demangle : Text → Option Text) : Callee → Bool
  | .inlineAsm asm => asmStores asm
  | .indirect => false
  | .direct mangled isDeclaration =>
      let name := funcName demangle mangled
      if name = "pmemobj_alloc".toList ∨ name = "pmemobj_tx_alloc".toList then false
      else isDeclaration && (specialCallStores name || pmemCallStores name)

/-- Does the pass emit a store record for an instruction of this kind? -/
def emitsStore (demangle : Text → Option Text) : InstKind → Bool
  | .store => true
  | .atomicRmw => true
  | .atomicCmpXchg => true
  | .call callee => callStores demangle callee
  | .load | .select | .br _ | .other => false

/-- What emits a store record is printed as one of the four kinds that stores have. -/
theorem suffix_of_emitsStore {demangle : Text → Option Text} {kind : InstKind}
    (h : emitsStore demangle kind = true) :
    ∃ suffix, PrintSrcMap.suffix kind = some suffix ∧
      suffix ∈ ["store", "atomic_rmw", "atomic_cmp", "call"].map String.toList := by
  cases kind with
  | load | select | other => cases h
  | br isConditional => cases h
  | store | atomicRmw | atomicCmpXchg | call => exact ⟨_, rfl, by decide⟩

end CiriTracerPass

/-! ## The numbers -/

/-- **A pass with a counter** numbers what it selects, in order. -/
theorem foldl_countVisit {α β : Type} (g : α → Option β) (l : List α) :
    l.foldl (countVisit g) (0, []) = (UInt32.ofNat (l.filterMap g).length,
      (l.filterMap g).zipIdx.map fun x => (x.1, UInt32.ofNat (x.2 + 1))) := by
  induction l using List.reverseRecOn with
  | nil => rfl
  | append_singleton l a ih =>
    rw [List.foldl_append, ih, List.filterMap_append]
    cases ha : g a with
    | none => simp [countVisit, ha]
    | some b => simp [countVisit, ha, List.zipIdx_append]

theorem countPass_eq {α β : Type} (g : α → Option β) (l : List α) :
    countPass g l = (l.filterMap g).zipIdx.map fun x => (x.1, UInt32.ofNat (x.2 + 1)) := by
  rw [countPass, foldl_countVisit]

theorem map_fst_countPass {α β : Type} (g : α → Option β) (l : List α) :
    (countPass g l).map Prod.fst = l.filterMap g := by
  rw [countPass_eq, List.map_map]
  exact List.zipIdx_map_fst 0 _

/-- The two passes select the same instructions. -/
theorem isSome_suffix (kind : InstKind) :
    (PrintSrcMap.suffix kind).isSome = LoadStoreNumberPass.visits kind := by
  cases kind with
  | br isConditional => cases isConditional <;> rfl
  | _ => rfl

/-- **Both passes give the same numbers.** -/
theorem printSrcMap_numbers (m : Bitcode) :
    (printSrcMap m).map (fun x => (x.1.place, x.2)) = loadStoreNumbers m := by
  have hselect : ∀ x : Instr × Nat,
      ((PrintSrcMap.suffix x.1.kind).map fun suffix => SrcInst.mk x.1 x.2 suffix).map
        (fun s => s.place) = if LoadStoreNumberPass.visits x.1.kind then some x.2 else none := by
    intro x
    rw [← isSome_suffix]
    cases PrintSrcMap.suffix x.1.kind <;> rfl
  rw [printSrcMap, loadStoreNumbers, countPass_eq, countPass_eq, List.map_map]
  simp only [← hselect]
  rw [← List.map_filterMap, List.zipIdx_map, List.map_map]
  rfl

/-- **The numbers are consecutive** if and only if the counter does not overflow. -/
theorem numbers_eq_range'_iff (m : Bitcode) :
    (loadStoreNumbers m).map (fun x => x.2.toNat) = List.range' 1 (loadStoreNumbers m).length ↔
      (loadStoreNumbers m).length < 2 ^ 32 := by
  have hget : ∀ k < (loadStoreNumbers m).length,
      ((loadStoreNumbers m).map fun x => x.2.toNat)[k]? = some ((k + 1) % 2 ^ 32) := by
    intro k hk
    rw [loadStoreNumbers, countPass_eq] at hk ⊢
    rw [List.length_map, List.length_zipIdx] at hk
    simp [List.getElem?_zipIdx, List.getElem?_eq_getElem hk]
  have hrange : ∀ k < (loadStoreNumbers m).length,
      (List.range' 1 (loadStoreNumbers m).length)[k]? = some (k + 1) := by
    intro k hk
    rw [List.getElem?_range' hk]
    simp [Nat.add_comm]
  constructor
  · intro heq
    by_contra hlen
    -- the number after the largest one is `0`
    have hzero := hget (2 ^ 32 - 1) (by omega)
    rw [heq, hrange _ (by omega)] at hzero
    revert hzero
    decide
  · intro hlen
    refine List.ext_getElem? fun k => ?_
    by_cases hk : k < (loadStoreNumbers m).length
    · rw [hget k hk, hrange k hk, Nat.mod_eq_of_lt (by omega)]
    · rw [List.getElem?_eq_none (by simpa using hk), List.getElem?_eq_none (by simpa using hk)]

theorem filterMap_sublist_map {α β : Type} {f : α → Option β} {g : α → β}
    (h : ∀ a b, f a = some b → b = g a) (l : List α) : (l.filterMap f).Sublist (l.map g) := by
  induction l with
  | nil => exact List.Sublist.refl []
  | cons a l ih =>
    rw [List.map_cons]
    cases ha : f a with
    | none => rw [List.filterMap_cons_none ha]; exact ih.cons (g a)
    | some b => rw [List.filterMap_cons_some ha, h a b ha]; exact ih.cons_cons (g a)

/-- No instruction gets two numbers. -/
theorem nodup_places (m : Bitcode) : ((loadStoreNumbers m).map Prod.fst).Nodup := by
  have hsub := filterMap_sublist_map (g := Prod.snd)
    (f := fun x : Instr × Nat => if LoadStoreNumberPass.visits x.1.kind then some x.2 else none)
    (by simp) m.insts.zipIdx
  rw [loadStoreNumbers, map_fst_countPass]
  refine List.Nodup.sublist hsub ?_
  rw [List.zipIdx_map_snd]
  exact List.nodup_range'

/-- What `PrintSrcMap` prints. -/
theorem mem_printSrcMap {m : Bitcode} {s : SrcInst} :
    (∃ id, (s, id) ∈ printSrcMap m) ↔
      m.insts[s.place]? = some s.inst ∧ PrintSrcMap.suffix s.inst.kind = some s.suffix := by
  have hmem : (∃ id, (s, id) ∈ printSrcMap m) ↔ s ∈ (printSrcMap m).map Prod.fst := by simp
  rw [hmem, printSrcMap, map_fst_countPass, List.mem_filterMap]
  constructor
  · rintro ⟨x, hx, hs⟩
    obtain ⟨suffix, hsuffix, rfl⟩ := Option.map_eq_some_iff.1 hs
    exact ⟨List.mem_zipIdx_iff_getElem?.1 hx, hsuffix⟩
  · rintro ⟨hinst, hsuffix⟩
    exact ⟨(s.inst, s.place), List.mem_zipIdx_iff_getElem?.2 hinst, by rw [hsuffix]; rfl⟩

namespace QueryLoadStoreNumbers

/-- **Reading the numbers back**: if no number is `0` or comes twice, no assertion fails, and the
two maps are inverse to each other. -/
theorem run_spec {numbers : List (Nat × UInt32)} (hplaces : (numbers.map Prod.fst).Nodup)
    (hids : (numbers.map Prod.snd).Nodup) (hpos : ∀ x ∈ numbers, x.2 ≠ 0) :
    ∃ q, run numbers = some q ∧ (∀ place id, q.idMap.get? place = some id ↔ (place, id) ∈ numbers) ∧
      ∀ place id, q.instMap.get? id = some place ↔ (place, id) ∈ numbers := by
  induction numbers using List.reverseRecOn with
  | nil => exact ⟨_, rfl, by simp, by simp⟩
  | append_singleton numbers x ih =>
    rw [List.map_append, List.nodup_append] at hplaces hids
    obtain ⟨q, hrun, hid, hinst⟩ :=
      ih hplaces.1 hids.1 fun y hy => hpos y (List.mem_append_left _ hy)
    obtain ⟨place, id⟩ := x
    have hid0 : id ≠ 0 := hpos (place, id) (by simp)
    have hnewPlace : ∀ id', (place, id') ∉ numbers := fun id' hmem =>
      hplaces.2.2 place (List.mem_map.2 ⟨_, hmem, rfl⟩) place (by simp) rfl
    have hnewId : ∀ place', (place', id) ∉ numbers := fun place' hmem =>
      hids.2.2 id (List.mem_map.2 ⟨_, hmem, rfl⟩) id (by simp) rfl
    have hfree : id ∉ q.instMap.keys := by
      intro hmem
      obtain ⟨place', hplace'⟩ := Option.isSome_iff_exists.1 (Dict.mem_keys.1 hmem)
      exact hnewId place' ((hinst _ _).1 hplace')
    refine ⟨⟨q.idMap.set place id, q.instMap.set id place⟩, ?_, fun place' id' => ?_,
      fun place' id' => ?_⟩
    · rw [run] at hrun ⊢
      rw [List.foldlM_append, hrun]
      simp [step, hid0, hfree]
    · rw [Dict.get?_set, List.mem_append, List.mem_singleton, Prod.mk.injEq]
      by_cases hp : place' = place
      · subst hp
        simp [hnewPlace, eq_comm]
      · simp [hp, hid]
    · rw [Dict.get?_set, List.mem_append, List.mem_singleton, Prod.mk.injEq]
      by_cases hi : id' = id
      · subst hi
        simp [hnewId, eq_comm]
      · simp [hi, hinst]

end QueryLoadStoreNumbers

/-- **The numbers of a module are read back.** -/
theorem query_spec {m : Bitcode} (h : (loadStoreNumbers m).length < 2 ^ 32) :
    ∃ q, QueryLoadStoreNumbers.run (loadStoreNumbers m) = some q ∧
      ∀ x ∈ loadStoreNumbers m, x.2 ≠ 0 ∧ q.getID x.1 = x.2 ∧ q.getInstByID x.2 = some x.1 := by
  have hrange := (numbers_eq_range'_iff m).2 h
  have hids : ((loadStoreNumbers m).map Prod.snd).Nodup := by
    refine List.Nodup.of_map UInt32.toNat ?_
    rw [List.map_map]
    exact hrange ▸ List.nodup_range'
  have hpos : ∀ x ∈ loadStoreNumbers m, x.2 ≠ 0 := by
    intro x hx hzero
    have hmem : x.2.toNat ∈ List.range' 1 (loadStoreNumbers m).length :=
      hrange ▸ List.mem_map.2 ⟨x, hx, rfl⟩
    rw [hzero, List.mem_range'_1] at hmem
    exact absurd hmem.1 (by decide)
  obtain ⟨q, hrun, hid, hinst⟩ := QueryLoadStoreNumbers.run_spec (nodup_places m) hids hpos
  refine ⟨q, hrun, fun x hx => ⟨hpos x hx, ?_, (hinst _ _).2 hx⟩⟩
  rw [QueryLoadStoreNumbers.getID, (hid _ _).2 hx]
  rfl

end Durinn
