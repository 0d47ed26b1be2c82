import Durinn.Lib.ListEdit
import Durinn.Passes.Numbering

/-!
# Instrumenting a module

The model of `CiriTracerPass` of `tracer/tracer_pass.cpp`, the compiler pass that puts calls of the
record functions into the traced program.  A visitor inserts instructions next to the one that it
visits, and mostly moves that one before a call that has to see its result; so a visitor is
given by the edits that it makes, and these are carried out on the basic block.

* `CiriTracerPass.visit` — the visitors; `none` is a failed assertion or a missing operand.
* `CiriTracerPass.visitBlock` — the edits of a block, instruction by instruction.
* `CiriTracerPass.runOnModule` — all blocks, and then the calls at the beginning of `main`,
  `api_begin` and `api_end`, and at the beginning and the returns of the functions in the two
  sets of modelled lock functions.

A call has at least the operands that its visitor takes.  The counters of `STATISTIC` and the
strings with the texts of instructions are left out.
-/

namespace Durinn

open ListEdit PyText

/-! ## The program -/

/-- The types that the pass tells apart: `VoidPtrType`, `Int64Type`, and others. -/
inductive IRType where
  | voidPtr
  | int64
  | other (name : Text)
  deriving DecidableEq, Repr

/-- Where a value comes from. -/
inductive IRValueRef where
  | constant (k : Nat)
  | argument (k : Nat)
  /-- The result of the instruction at this place of the module. -/
  | result (place : Nat)
  deriving DecidableEq, Repr

/-- A value of the program. -/
structure IRValue where
  ref : IRValueRef
  type : IRType
  deriving DecidableEq, Repr

/-- `isa<Constant>`. -/
def IRValue.isConstant (v : IRValue) : Bool :=
  match v.ref with
  | .constant _ => true
  | _ => false

/-- An instruction of the program. -/
inductive IRInst where
  /-- A phi, or another instruction that has to stand at the beginning of a block. -/
  | phi (operands : List IRValue)
  | load (pointer : IRValue) (type : IRType)
  | store (value pointer : IRValue)
  | select (operands : List IRValue)
  | call (callee : Callee) (args : List IRValue) (type : IRType)
  | invoke (callee : Callee) (args : List IRValue) (succs : List Nat)
  | atomicRmw (pointer value : IRValue)
  | atomicCmpXchg (pointer expected newVal : IRValue)
  /-- A `BranchInst`, which is conditional if it has a condition. -/
  | br (condition : Option IRValue) (succs : List Nat)
  | ret (value : Option IRValue)
  /-- Any other terminator. -/
  | terminator (operands : List IRValue) (succs : List Nat)
  | other (operands : List IRValue)
  deriving DecidableEq, Repr

namespace IRInst

/-- The operands that are values. -/
def operands : IRInst → List IRValue
  | .phi operands | .select operands | .terminator operands _ | .other operands => operands
  | .load pointer _ => [pointer]
  | .store value pointer => [value, pointer]
  | .call _ args _ | .invoke _ args _ => args
  | .atomicRmw pointer value => [pointer, value]
  | .atomicCmpXchg pointer expected newVal => [pointer, expected, newVal]
  | .br condition _ => condition.toList
  | .ret value => value.toList

/-- The kind of the instruction, for the passes that number and print. -/
def kind : IRInst → InstKind
  | .load _ _ => .load
  | .store _ _ => .store
  | .select _ => .select
  | .call callee _ _ => .call callee
  | .atomicRmw _ _ => .atomicRmw
  | .atomicCmpXchg _ _ _ => .atomicCmpXchg
  | .br condition _ => .br condition.isSome
  | .phi _ | .invoke _ _ _ | .ret _ | .terminator _ _ | .other _ => .other

def isPhi : IRInst → Bool
  | .phi _ => true
  | _ => false

def isTerminator : IRInst → Bool
  | .invoke _ _ _ | .br _ _ | .ret _ | .terminator _ _ => true
  | _ => false

end IRInst

/-! ## What the pass adds -/

/-- An operand of an added instruction. -/
inductive Operand where
  | value (v : IRValue)
  /-- A constant of another type, as a constant expression. -/
  | constExpr (v : IRValue) (type : IRType)
  /-- The result of an added cast. -/
  | cast (v : IRValue) (type : IRType)
  /-- `ConstantInt::get(Int64Type, n)`. -/
  | int64 (n : UInt64)
  /-- The result of an added multiplication. -/
  | product (x y : IRValue)
  deriving DecidableEq, Repr

/-- A call of a record function. -/
inductive RecordCall where
  | init (name : Text)
  | apiBegin (id : UInt32)
  | apiEnd (id : UInt32)
  | lockBegin (id : UInt32) (p : Operand)
  | lockEnd (id : UInt32) (p : Operand)
  | unlockBegin (id : UInt32) (p : Operand)
  | unlockEnd (id : UInt32) (p : Operand)
  | br (id : UInt32)
  | load (id : UInt32) (p length : Operand)
  | strLoad (id : UInt32) (p : Operand)
  | store (id : UInt32) (p length : Operand)
  | atomicStore (id : UInt32) (p length : Operand)
  | cas (id : UInt32) (p v length : Operand)
  | strStore (id : UInt32) (p : Operand)
  | strcatStore (id : UInt32) (p s : Operand)
  | flush (id : UInt32) (p : Operand)
  | flushWrapper (id : UInt32) (p length : Operand)
  | fence (id : UInt32)
  | lock (id : UInt32) (p : Operand)
  | unlock (id : UInt32) (p : Operand)
  | alloc (id : UInt32) (p length : Operand)
  | txAlloc (id : UInt32) (oid length : Operand)
  | mmap (id : UInt32) (p length : Operand)
  deriving DecidableEq, Repr

/-- An instruction that the pass adds. -/
inductive Added where
  /-- A call of `locking`. -/
  | locking
  /-- A call of `unlocking`. -/
  | unlocking
  | cast (v : IRValue) (type : IRType)
  | mul (x y : IRValue)
  | record (call : RecordCall)
  deriving DecidableEq, Repr

/-- An instruction of an instrumented block.  What is added for an instruction is known by its
place; what is added for a function belongs to none. -/
inductive Item where
  | prog (place : Nat) (inst : IRInst)
  | added (owner : Option Nat) (a : Added)
  deriving DecidableEq, Repr

/-- A function; a declaration has no blocks. -/
structure Func where
  name : Text
  args : List IRValue
  blocks : List (List Item)
  deriving DecidableEq

/-! ## The pass -/

/-- `CiriTracerPass`: its options, and what it takes from the data layout, from
`QueryLoadStoreNumbers` and from the demangler. -/
structure CiriTracerPass where
  traceFilename : Text
  lockModelingSet : List Text
  unlockModelingSet : List Text
  getTypeStoreSize : IRType → UInt64
  getID : Nat → UInt32
  demangle : Text → Option Text

namespace CiriTracerPass

/-! ### Edits -/

/-- The value that `castTo` returns. -/
def castTo (v : IRValue) (type : IRType) : Operand :=
  if v.type = type then .value v else if v.isConstant then .constExpr v type else .cast v type

/-- The instructions that `castTo` inserts. -/
def castInsts (v : IRValue) (type : IRType) : List Added :=
  if v.type = type then [] else if v.isConstant then [] else [.cast v type]

/-- Insert an instruction before `ci`. -/
def create (a : Added) (ci : Nat) : Edit Item := .before (.added (some ci) a)

/-- `instrumentLock`. -/
def instrumentLock (ci : Nat) : Edit Item := create .locking ci

/-- `instrumentUnlock`. -/
def instrumentUnlock (ci : Nat) : Edit Item := .after (.added (some ci) .unlocking)

/-- `moveBefore`, to an added instruction. -/
def moveBefore (ci : Nat) (a : Added) : Edit Item := .moveBefore (.added (some ci) a)

/-- What most visitors do: between `locking` and `unlocking` stand the casts, the calls that record
what is read, the instruction itself, and the calls that record what it did.  All are inserted
before the instruction, which is then moved before the first of the latter. -/
def surround (ci : Nat) (casts : List Added) (before after : List RecordCall) : List (Edit Item) :=
  instrumentLock ci :: (casts ++ (before ++ after).map Added.record).map (fun a => create a ci) ++
    instrumentUnlock ci :: after.head?.toList.map fun recInst => moveBefore ci (.record recInst)

variable (p : CiriTracerPass)

/-! ### Visitors -/

def visitBranchInst (bi : Nat) (condition : Option IRValue) : List (Edit Item) :=
  if condition.isNone then [] else [create (.record (.br (p.getID bi))) bi]

def visitLoadInst (li : Nat) (pointer : IRValue) (type : IRType) : List (Edit Item) :=
  surround li (castInsts pointer .voidPtr)
    [.load (p.getID li) (castTo pointer .voidPtr) (.int64 (p.getTypeStoreSize type))] []

def visitStoreInst (si : Nat) (value pointer : IRValue) : List (Edit Item) :=
  surround si (castInsts pointer .voidPtr) []
    [.store (p.getID si) (castTo pointer .voidPtr) (.int64 (p.getTypeStoreSize value.type))]

def visitAtomicRMWInst (ai : Nat) (pointer value : IRValue) : List (Edit Item) :=
  surround ai (castInsts pointer .voidPtr) []
    [.atomicStore (p.getID ai) (castTo pointer .voidPtr) (.int64 (p.getTypeStoreSize value.type))]

def visitAtomicCmpXchgInst (ai : Nat) (pointer newVal : IRValue) : List (Edit Item) :=
  surround ai (castInsts pointer .voidPtr ++ castInsts newVal .int64) []
    [.cas (p.getID ai) (castTo pointer .voidPtr) (castTo newVal .int64)
      (.int64 (p.getTypeStoreSize newVal.type))]

/-- The flush of `visitInlineAsm`, where `unlocking` is inserted after the call of `recordFlush`. -/
def visitAsmFlush (ci : Nat) (pointer : IRValue) : List (Edit Item) :=
  let recFlush := Added.record (.flush (p.getID ci) (castTo pointer .voidPtr))
  instrumentLock ci :: (castInsts pointer .voidPtr).map (fun a => create a ci) ++
    [create recFlush ci, .afterOther (.added (some ci) recFlush) (.added (some ci) .unlocking),
      moveBefore ci recFlush]

/-- The fence of `visitInlineAsm`. -/
def visitAsmFence (ci : Nat) : List (Edit Item) :=
  let recFence := Added.record (.fence (p.getID ci))
  [instrumentLock ci, create recFence ci,
    .afterOther (.added (some ci) recFence) (.added (some ci) .unlocking), moveBefore ci recFence]

def visitInlineAsm (ci : Nat) (asm : Text) (args : List IRValue) : Option (List (Edit Item)) :=
  if contains "clflush $0".toList asm || contains "xsaveopt $0".toList asm then do
    -- the assertion about the number of arguments
    if args.length ≠ 1 ∧ args.length ≠ 2 then none
    let pointer ← args[0]?
    return p.visitAsmFlush ci pointer
  else if contains "mfence".toList asm then
    if args.length ≠ 0 then none else some (p.visitAsmFence ci)
  else if contains "xchgq $0,$1".toList asm then do
    if args.length ≠ 2 then none
    let pointer ← args[0]?
    return surround ci (castInsts pointer .voidPtr) []
      [.store (p.getID ci) (castTo pointer .voidPtr) (.int64 (p.getTypeStoreSize pointer.type))]
  else some []

/-- The branch of `visitSpecialCall` for `calloc`, which is moved twice. -/
def visitCalloc (ci : Nat) (x y result : IRValue) : List (Edit Item) :=
  let numElts := Added.mul x y
  let recStore :=
    Added.record (.store (p.getID ci) (castTo result .voidPtr) (.product x y))
  [instrumentLock ci, create numElts ci] ++
    (castInsts result .voidPtr).map (fun a => create a ci) ++
    [create recStore ci, instrumentUnlock ci, moveBefore ci recStore, moveBefore ci numElts]

/-- A store of so many bytes, as that of `memset`. -/
def recordsStore (ci : Nat) (dst numElts : IRValue) (more : List RecordCall) : List (Edit Item) :=
  surround ci (castInsts dst .voidPtr) []
    (.store (p.getID ci) (castTo dst .voidPtr) (.value numElts) :: more)

/-- A copy of so many bytes, as that of `memcpy`. -/
def recordsCopy (ci : Nat) (dst src numElts : IRValue) (more : List RecordCall) :
    List (Edit Item) :=
  surround ci (castInsts dst .voidPtr ++ castInsts src .voidPtr)
    [.load (p.getID ci) (castTo src .voidPtr) (.value numElts)]
    (.store (p.getID ci) (castTo dst .voidPtr) (.value numElts) :: more)

/-- A string that is written, after others were read. -/
def recordsString (ci : Nat) (dst : IRValue) (casts : List Added) (read : List Operand) :
    List (Edit Item) :=
  surround ci (castInsts dst .voidPtr ++ casts) (read.map (.strLoad (p.getID ci)))
    [.strStore (p.getID ci) (castTo dst .voidPtr)]

/-- `visitSpecialCall`: `none` for a call that it does not handle. -/
def visitSpecialCall (ci : Nat) (name : Text) (args : List IRValue) (type : IRType) :
    Option (Option (List (Edit Item))) :=
  if "llvm.memset.".toList.isPrefixOf name then some do
    let dst ← args[0]?
    let numElts ← args[2]?
    return p.recordsStore ci dst numElts []
  else if "llvm.memcpy.".toList.isPrefixOf name || "llvm.memmove.".toList.isPrefixOf name then
    some do
      let dst ← args[0]?
      let src ← args[1]?
      let numElts ← args[2]?
      return p.recordsCopy ci dst src numElts []
  else if name = "strcpy".toList ∨ name = "strncpy".toList ∨ name = "__strncpy_chk".toList then
    some do
      let dst ← args[0]?
      let src ← args[1]?
      return p.recordsString ci dst (castInsts src .voidPtr) [castTo src .voidPtr]
  else if name = "strcat".toList then some do
    let dst ← args[0]?
    let src ← args[1]?
    return surround ci (castInsts dst .voidPtr ++ castInsts src .voidPtr)
      [.strLoad (p.getID ci) (castTo dst .voidPtr), .strLoad (p.getID ci) (castTo src .voidPtr)]
      [.strcatStore (p.getID ci) (castTo dst .voidPtr) (castTo src .voidPtr)]
  else if name = "strlen".toList then some do
    let src ← args[0]?
    return surround ci (castInsts src .voidPtr) [.strLoad (p.getID ci) (castTo src .voidPtr)] []
  else if name = "strcmp".toList then some do
    let ptr0 ← args[0]?
    let ptr1 ← args[1]?
    return surround ci (castInsts ptr0 .voidPtr ++ castInsts ptr1 .voidPtr)
      [.strLoad (p.getID ci) (castTo ptr0 .voidPtr),
        .strLoad (p.getID ci) (castTo ptr1 .voidPtr)] []
  else if name = "calloc".toList then some do
    let x ← args[0]?
    let y ← args[1]?
    return p.visitCalloc ci x y ⟨.result ci, type⟩
  else if name = "sprintf".toList then some do
    let dst ← args[0]?
    return p.recordsString ci dst [] (((args.drop 2).filter (·.type = .voidPtr)).map .value)
  else if name = "fgets".toList then some do
    let dst ← args[0]?
    return p.recordsString ci dst [] []
  else if name = "snprintf".toList then some do
    let dst ← args[0]?
    let numElts ← args[1]?
    return p.recordsStore ci dst numElts []
  else none

/-- `visitPmemCall`. -/
def visitPmemCall (ci : Nat) (name : Text) (args : List IRValue) :
    Option (Option (List (Edit Item))) :=
  let id := p.getID ci
  -- the calls that record the flush of what was written, and the fence
  let flush (dst numElts : IRValue) :=
    RecordCall.flushWrapper id (castTo dst .voidPtr) (.value numElts)
  let fence := RecordCall.fence id
  if name = "pmem_flush".toList then some do
    let pointer ← args[0]?
    let numElts ← args[1]?
    return surround ci (castInsts pointer .voidPtr) [] [flush pointer numElts]
  else if name = "pmem_drain".toList then some (some (surround ci [] [] [fence]))
  else if name = "pmem_persist".toList ∨ name = "pmem_msync".toList then some do
    let pointer ← args[0]?
    let numElts ← args[1]?
    return surround ci (castInsts pointer .voidPtr) [] [flush pointer numElts, fence]
  else if name = "pmem_memmove_nodrain".toList ∨ name = "pmem_memcpy_nodrain".toList then some do
    let dst ← args[0]?
    let src ← args[1]?
    let numElts ← args[2]?
    return p.recordsCopy ci dst src numElts [flush dst numElts]
  else if name = "pmem_memmove_persist".toList ∨ name = "pmem_memcpy_persist".toList then some do
    let dst ← args[0]?
    let src ← args[1]?
    let numElts ← args[2]?
    return p.recordsCopy ci dst src numElts [flush dst numElts, fence]
  else if name = "pmem_memmove".toList ∨ name = "pmem_memcpy".toList then some do
    let dst ← args[0]?
    let src ← args[1]?
    let numElts ← args[2]?
    return p.recordsCopy ci dst src numElts []
  else if name = "pmem_memset_nodrain".toList then some do
    let dst ← args[0]?
    let numElts ← args[2]?
    return p.recordsStore ci dst numElts [flush dst numElts]
  else if name = "pmem_memset_persist".toList then some do
    let dst ← args[0]?
    let numElts ← args[2]?
    return p.recordsStore ci dst numElts [flush dst numElts, fence]
  else if name = "pmem_memset".toList then some do
    let dst ← args[0]?
    let numElts ← args[2]?
    return p.recordsStore ci dst numElts []
  else none

/-- The functions that take a lock. -/
def lockNames : List Text :=
  ["pthread_rwlock_wrlock", "pthread_rwlock_trywrlock", "pthread_rwlock_timedwrlock",
    "pthread_rwlock_rdlock", "pthread_rwlock_tryrdlock", "pthread_rwlock_timedrdlock",
    "pthread_mutex_lock", "pthread_mutex_trylock", "pthread_mutex_timedlock", "pthread_spin_lock",
    "pthread_spin_trylock"].map String.toList

/-- The functions that release a lock. -/
def unlockNames : List Text :=
  ["pthread_rwlock_unlock", "pthread_mutex_unlock", "pthread_spin_unlock"].map String.toList

/-- The two branches of `visitLockCall`, which have no `locking`. -/
def recordsLock (ci : Nat) (pointer : IRValue) (recInst : UInt32 → Operand → RecordCall) :
    List (Edit Item) :=
  let call := Added.record (recInst (p.getID ci) (castTo pointer .voidPtr))
  (castInsts pointer .voidPtr).map (fun a => create a ci) ++ [create call ci, moveBefore ci call]

/-- `visitLockCall`. -/
def visitLockCall (ci : Nat) (name : Text) (args : List IRValue) :
    Option (Option (List (Edit Item))) :=
  if name ∈ lockNames then some do
    let pointer ← args[0]?
    return p.recordsLock ci pointer .lock
  else if name ∈ unlockNames then some do
    let pointer ← args[0]?
    return p.recordsLock ci pointer .unlock
  else none

/-- `visitMmapCall`. -/
def visitMmapCall (ci : Nat) (name : Text) (args : List IRValue) (type : IRType) :
    Option (Option (List (Edit Item))) :=
  if name = "mmap".toList then some do
    let size ← args[1]?
    return surround ci [] [] [.mmap (p.getID ci) (.value ⟨.result ci, type⟩) (.value size)]
  else none

def visitCallInst (ci : Nat) (callee : Callee) (args : List IRValue) (type : IRType) :
    Option (List (Edit Item)) :=
  match callee with
  | .inlineAsm asm => p.visitInlineAsm ci asm args
  | .indirect => some []
  | .direct mangled isDeclaration =>
      let name := funcName p.demangle mangled
      if name = "pmemobj_alloc".toList then do
        let pointer ← args[1]?
        let size ← args[2]?
        return surround ci (castInsts pointer .voidPtr) []
          [.alloc (p.getID ci) (castTo pointer .voidPtr) (.value size)]
      else if name = "pmemobj_tx_alloc".toList then do
        let size ← args[0]?
        return surround ci [] [] [.txAlloc (p.getID ci) (.value ⟨.result ci, type⟩) (.value size)]
      else if !isDeclaration then some []
      else (((p.visitSpecialCall ci name args type).orElse fun _ =>
        (p.visitPmemCall ci name args).orElse fun _ =>
        (p.visitLockCall ci name args).orElse fun _ =>
          p.visitMmapCall ci name args type).getD (some []))

/-- The visitor of an instruction. -/
def visit (place : Nat) : IRInst → Option (List (Edit Item))
  | .load pointer type => some (p.visitLoadInst place pointer type)
  | .store value pointer => some (p.visitStoreInst place value pointer)
  | .atomicRmw pointer value => some (p.visitAtomicRMWInst place pointer value)
  | .atomicCmpXchg pointer _ newVal => some (p.visitAtomicCmpXchgInst place pointer newVal)
  | .call callee args type => p.visitCallInst place callee args type
  | .br condition _ => some (p.visitBranchInst place condition)
  | .phi _ | .select _ | .invoke _ _ _ | .ret _ | .terminator _ _ | .other _ => some []

/-- Visit one instruction of a block. -/
def visitItem (block : List Item) (item : Item) : Option (List Item) :=
  match item with
  | .prog place i => (p.visit place i).map fun es => es.foldl (Edit.apply item) block
  | .added _ _ => some block

/-- Visit the instructions that the block has at the beginning. -/
def visitBlock (block : List Item) : Option (List Item) := block.foldlM p.visitItem block

/-! ### Functions -/

def isPhi : Item → Bool
  | .prog _ i => i.isPhi
  | .added _ _ => false

/-- Insert before `getFirstInsertionPt`. -/
def atFirstInsertionPt (new : List Added) (block : List Item) : List Item :=
  block.takeWhile isPhi ++ new.map (Item.added none) ++ block.dropWhile isPhi

/-- Insert at the beginning of the entry block; a declaration has none. -/
def atEntry (new : List Added) (f : Func) : Option Func :=
  match f.blocks with
  | [] => none
  | entry :: blocks => some { f with blocks := atFirstInsertionPt new entry :: blocks }

/-- Insert before every `ReturnInst` of a block. -/
def beforeReturns (new : Added) (block : List Item) : List Item :=
  block.flatMap fun item => match item with
    | .prog _ (.ret _) => [.added none new, item]
    | _ => [item]

/-- `ConstantInt::get(Int32Type, -1)`. -/
def noID : UInt32 := 0xFFFFFFFF

/-- The body of the loops of `instrumentLockModeling` and `instrumentUnlockModeling`: a call at the
beginning of the function, and one at its returns. -/
def modelLock (begins ends : UInt32 → Operand → RecordCall) (f : Func) : Option Func := do
  let pointer ← f.args.head?
  let f ← atEntry (castInsts pointer .voidPtr ++
    [.record (begins noID (castTo pointer .voidPtr))]) f
  let recEnd := Added.record (ends noID (castTo pointer .voidPtr))
  return { f with blocks := f.blocks.map (beforeReturns recEnd) }

/-- `M.getFunction`, as its place in the module. -/
def getFunction (m : List Func) (name : Text) : Option Nat := m.findIdx? fun f => f.name = name

/-- Change a function of the module. -/
def modifyFunction (m : List Func) (k : Nat) (g : Func → Option Func) : Option (List Func) := do
  let f ← m[k]?
  let f ← g f
  return m.set k f

/-- `instrumentInit`. -/
def instrumentInit (m : List Func) : Option (List Func) := do
  let k ← getFunction m "main".toList
  modifyFunction m k (atEntry [.record (.init p.traceFilename)])

/-- `instrumentAPIBegin`. -/
def instrumentAPIBegin (m : List Func) : Option (List Func) := do
  let k ← (getFunction m "api_begin".toList).orElse fun _ => getFunction m "_Z9api_beginv".toList
  modifyFunction m k (atEntry [.record (.apiBegin noID)])

/-- `instrumentAPIEnd`. -/
def instrumentAPIEnd (m : List Func) : Option (List Func) := do
  let k ← (getFunction m "api_end".toList).orElse fun _ => getFunction m "_Z7api_endv".toList
  modifyFunction m k (atEntry [.record (.apiEnd noID)])

/-- The loop over a set of modelled functions. -/
def instrumentModeling (begins ends : UInt32 → Operand → RecordCall) (names : List Text)
    (m : List Func) : Option (List Func) :=
  names.foldlM (fun m name => match getFunction m name with
    | none => some m
    | some k => modifyFunction m k (modelLock begins ends)) m

/-- `instrumentLockModeling`. -/
def instrumentLockModeling (m : List Func) : Option (List Func) :=
  instrumentModeling .lockBegin .lockEnd p.lockModelingSet m

/-- `instrumentUnlockModeling`. -/
def instrumentUnlockModeling (m : List Func) : Option (List Func) :=
  instrumentModeling .unlockBegin .unlockEnd p.unlockModelingSet m

/-- Visit the blocks of a function. -/
def visitFunc (f : Func) : Option Func :=
  (f.blocks.mapM p.visitBlock).map fun blocks => { f with blocks }

/-- `CiriTracerPass::runOnModule`. -/
def runOnModule (m : List Func) : Option (List Func) := do
  let m ← m.mapM p.visitFunc
  let m ← p.instrumentInit m
  let m ← instrumentAPIBegin m
  let m ← instrumentAPIEnd m
  let m ← p.instrumentLockModeling m
  p.instrumentUnlockModeling m

end CiriTracerPass

end Durinn
