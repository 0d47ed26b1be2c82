import Durinn.Lib.Dict
import Durinn.Lib.FloatDiv
import Durinn.Lib.PyText
import Durinn.Lib.TextJoin
import Durinn.Trace.MemOps

/-!
# Reading a trace

The model of `trace_checker/lib/trace.py`.  A trace file has one entry in a line, fields
separated by commas, the first of which says what happened.  `Trace.extract_operations`
makes a list of operations of it, either all of them or, with `only_persist`, only those
that concern persistence, with the stores cut into atomic pieces; on the way it
records the ranges of the API calls, the addresses loaded in them, and their allocations and
branches.  What happens between `LockBegin` and `LockEnd` is skipped.
-/

namespace Durinn

open PyText

/-! ## Entries -/

/-- What an entry is about, by its first field. -/
inductive EntryKind where
  | lockBegin
  | unlockBegin
  | lockEnd
  | unlockEnd
  | store
  | load
  | flush
  | fence
  | lock
  | unlock
  | apiBegin
  | apiEnd
  | alloc
  | br
  deriving DecidableEq, Repr

/-- The first fields. -/
def entryKinds : List (Text × EntryKind) :=
  [("LockBegin".toList, .lockBegin), ("UnLockBegin".toList, .unlockBegin),
    ("LockEnd".toList, .lockEnd), ("UnLockEnd".toList, .unlockEnd),
    ("Store".toList, .store), ("Load".toList, .load), ("Flush".toList, .flush),
    ("Fence".toList, .fence), ("Lock".toList, .lock), ("UnLock".toList, .unlock),
    ("APIBegin".toList, .apiBegin), ("APIEnd".toList, .apiEnd), ("Alloc".toList, .alloc),
    ("Br".toList, .br)]

/-- The kind of an entry, `none` for one that is none of these. -/
def entryKind (strs : List Text) : Option EntryKind := entryKinds.lookup (strs.headD [])

/-- `int(strs[i], base)`. -/
def natField (base : Nat) (strs : List Text) (i : Nat) : Option Nat :=
  strs[i]?.bind (natOfText base)

/-- `Store.__init__`: the bytes are given as a list of texts. -/
def Store.new (address size : Nat) (value : List Text) (id tid : Nat) (srcInfo : Text)
    (isCas : Nat) : Option Store :=
  (fromHex value.flatten).map fun valueBytes =>
    ⟨⟨id, tid, srcInfo⟩, address, size, valueBytes, isCas⟩

/-- What every entry has besides its kind, with the source info in the field `i`. -/
def baseOf (strs : List Text) (i id : Nat) : Option BaseOperation := do
  let tid ← natField 10 strs 1
  let srcInfo ← strs[i]?
  return ⟨id, tid, srcInfo⟩

/-- The operation that an entry of this kind becomes. -/
def parseOp (strs : List Text) (id : Nat) : EntryKind → Option Op
  | .store => do
      let tid ← natField 10 strs 1
      let address ← natField 16 strs 2
      let size ← natField 10 strs 3
      let value ← strs[4]?
      let srcInfo ← strs[5]?
      let isCas ← natField 10 strs 6
      let s ← Store.new address size (value.splitOn ' ') id tid srcInfo isCas
      return .store s
  | .load => do
      let base ← baseOf strs 4 id
      let address ← natField 16 strs 2
      let size ← natField 10 strs 3
      return .load ⟨base, address, size⟩
  | .flush => do
      let base ← baseOf strs 3 id
      let address ← natField 16 strs 2
      return .flush ⟨base, address⟩
  | .fence => (baseOf strs 2 id).map Op.fence
  | .lock | .lockEnd => do
      let base ← baseOf strs 3 id
      let address ← natField 16 strs 2
      return .lock ⟨base, address⟩
  | .unlock | .unlockEnd => do
      let base ← baseOf strs 3 id
      let address ← natField 16 strs 2
      return .unlock ⟨base, address⟩
  | .apiBegin => (baseOf strs 2 id).map Op.apiBegin
  | .apiEnd => (baseOf strs 2 id).map Op.apiEnd
  | .lockBegin | .unlockBegin | .alloc | .br => none

/-- Does an entry of this kind delimit an API call? -/
def EntryKind.isBoundary : EntryKind → Bool
  | .apiBegin | .apiEnd => true
  | _ => false

theorem id_of_baseOf {strs : List Text} {k i : Nat} {b : BaseOperation}
    (h : baseOf strs k i = some b) : b.id = i := by
  simp only [baseOf, Option.bind_eq_bind, Option.bind_eq_some_iff] at h
  obtain ⟨tid, -, src, -, h⟩ := h
  cases h
  rfl

/-- What is read has the id it was given, and delimits an API call if its entry does. -/
theorem parseOp_spec {strs : List Text} {i : Nat} {kind : EntryKind} {op : Op}
    (h : parseOp strs i kind = some op) :
    op.id = i ∧ op.isBoundary = kind.isBoundary ∧ (kind = .apiBegin → ∃ o, op = .apiBegin o) := by
  cases kind with
  | store =>
    simp only [parseOp, Store.new, Option.bind_eq_bind, Option.bind_eq_some_iff,
      Option.map_eq_some_iff] at h
    obtain ⟨tid, -, a, -, n, -, v, -, src, -, cas, -, s, ⟨bytes, -, rfl⟩, h⟩ := h
    cases h
    exact ⟨rfl, rfl, fun hc => by cases hc⟩
  | load =>
    simp only [parseOp, Option.bind_eq_bind, Option.bind_eq_some_iff] at h
    obtain ⟨b, hb, a, -, n, -, h⟩ := h
    cases h
    exact ⟨id_of_baseOf hb, rfl, fun hc => by cases hc⟩
  | fence =>
    obtain ⟨b, hb, rfl⟩ := Option.map_eq_some_iff.1 h
    exact ⟨id_of_baseOf hb, rfl, fun hc => by cases hc⟩
  | apiBegin =>
    obtain ⟨b, hb, rfl⟩ := Option.map_eq_some_iff.1 h
    exact ⟨id_of_baseOf hb, rfl, fun _ => ⟨b, rfl⟩⟩
  | apiEnd =>
    obtain ⟨b, hb, rfl⟩ := Option.map_eq_some_iff.1 h
    exact ⟨id_of_baseOf hb, rfl, fun hc => by cases hc⟩
  | flush | lock | lockEnd | unlock | unlockEnd =>
    simp only [parseOp, Option.bind_eq_bind, Option.bind_eq_some_iff] at h
    obtain ⟨b, hb, a, -, h⟩ := h
    cases h
    exact ⟨id_of_baseOf hb, rfl, fun hc => by cases hc⟩
  | lockBegin | unlockBegin | alloc | br => cases h

/-! ## Atomic pieces of a store -/

/-- `Trace.get_stores`: cut a store entry into pieces inside words of
`ATOMIC_WRITE_BYTES`.  Addresses so large that the division is off by a word are
outside the model. -/
def getStores (params : List Text) (currIndex : Nat) : Option (List Store) := do
  let tid ← natField 10 params 1
  let address ← natField 16 params 2
  let size ← natField 10 params 3
  let text ← params[4]?
  let srcInfo ← params[5]?
  let isCas ← natField 10 params 6
  let value := text.splitOn ' '
  let low := FloatDiv.truncTrueDiv address atomicWriteBytes * atomicWriteBytes
  let high := low + atomicWriteBytes
  if high < address then none
  let piece (offset length index : Nat) (value : List Text) : Option Store :=
    Store.new (address + offset) length value index tid srcInfo isCas
  let sizeFirstChunk := min size (high - address)
  let first := if low < address then [piece 0 sizeFirstChunk currIndex (value.take sizeFirstChunk)]
    else []
  let start := if low < address then high - address else 0
  -- the loop runs as long as a whole word is left
  let words := (size - start) / atomicWriteBytes
  let middle := (List.range words).map fun k =>
    piece (start + k * atomicWriteBytes) atomicWriteBytes (currIndex + first.length + k)
      ((value.drop (start + k * atomicWriteBytes)).take atomicWriteBytes)
  let stop := start + words * atomicWriteBytes
  let last := if stop < size then
      [piece stop (size - stop) (currIndex + first.length + words) (value.drop stop)]
    else []
  (first ++ middle ++ last).mapM id

/-! ## The list of operations -/

/-- `Trace`: what the checkers use of it. -/
structure Trace where
  ops : List Op
  opsApiRanges : List (Nat × Nat)
  loadAddrs : Finset Nat
  loadSrcToAddrs : Dict Text (Finset Nat)
  allocs : Dict Nat (List Load)
  brSrcs : Finset Text

/-- The variables of `Trace.extract_operations`.  The number of API calls begun so far is
`curr_idx + 1`. -/
structure Extraction extends Trace where
  opCurrIndex : Nat
  opCurrApiBeginIndex : Option Nat
  apiCount : Nat
  skipLockModeling : Bool

namespace Extraction

/-- Before the first entry. -/
def start : Extraction :=
  ⟨⟨[], [], ∅, Dict.empty, Dict.empty, ∅⟩, 0, none, 0, false⟩

/-- Append operations, which have the next ids. -/
def append (st : Extraction) (ops : List Op) : Extraction :=
  { st with ops := st.ops ++ ops, opCurrIndex := st.opCurrIndex + ops.length }

/-- Append an operation that does not concern persistence. -/
def appendFull (st : Extraction) (onlyPersist : Bool) (op : Op) : Extraction :=
  if onlyPersist then st else st.append [op]

/-- Record the address of a load in an API call. -/
def recordLoad (st : Extraction) (address : Nat) (srcInfo : Text) : Extraction :=
  if st.opCurrApiBeginIndex.isSome then
    { st with
      loadAddrs := insert address st.loadAddrs
      loadSrcToAddrs := st.loadSrcToAddrs.set srcInfo
        (insert address ((st.loadSrcToAddrs.get? srcInfo).getD ∅)) }
  else st

/-- Close the open API call, if there is one, at the operation about to be appended. -/
def closeApi (st : Extraction) : Extraction :=
  match st.opCurrApiBeginIndex with
  | some b =>
      { st with
        opsApiRanges := st.opsApiRanges ++ [(b, st.opCurrIndex)]
        opCurrApiBeginIndex := none }
  | none => st

/-- Open an API call at the operation about to be appended. -/
def openApi (st : Extraction) : Extraction :=
  { st with opCurrApiBeginIndex := some st.opCurrIndex, apiCount := st.apiCount + 1 }

/-- Record an allocation in an API call. -/
def recordAlloc (st : Extraction) (alloc : Load) : Extraction :=
  if st.opCurrApiBeginIndex.isSome then
    { st with
      allocs := st.allocs.set (st.apiCount - 1)
        ((st.allocs.get? (st.apiCount - 1)).getD [] ++ [alloc]) }
  else st

/-- An entry outside the modelling of locks. -/
def extractEntry (onlyPersist : Bool) (st : Extraction) (strs : List Text) :
    EntryKind → Option Extraction
  | .store =>
      if onlyPersist then
        (getStores strs st.opCurrIndex).map fun pieces => st.append (pieces.map Op.store)
      else (parseOp strs st.opCurrIndex .store).map fun op => st.append [op]
  | .load => do
      let op ← parseOp strs st.opCurrIndex .load
      match op with
      | .load l => return (st.appendFull onlyPersist op).recordLoad l.address l.srcInfo
      | _ => none
  | .flush => (parseOp strs st.opCurrIndex .flush).map fun op => st.append [op]
  | .fence => (parseOp strs st.opCurrIndex .fence).map fun op => st.append [op]
  | .lock => (parseOp strs st.opCurrIndex .lock).map (st.appendFull onlyPersist)
  | .unlock => (parseOp strs st.opCurrIndex .unlock).map (st.appendFull onlyPersist)
  | .apiBegin =>
      (parseOp strs st.opCurrIndex .apiBegin).map fun op => st.closeApi.openApi.append [op]
  | .apiEnd => do
      let op ← parseOp strs st.opCurrIndex .apiEnd
      -- the assertion that an API call is open
      if st.opCurrApiBeginIndex.isNone then none
      return st.closeApi.append [op]
  | .alloc => do
      let base ← baseOf strs 4 0
      let address ← natField 16 strs 2
      let size ← natField 10 strs 3
      return st.recordAlloc ⟨base, address, size⟩
  | .br =>
      if st.opCurrApiBeginIndex.isSome then
        (baseOf strs 2 0).map fun base => { st with brSrcs := insert base.srcInfo st.brSrcs }
      else some st
  | .lockBegin | .unlockBegin | .lockEnd | .unlockEnd => none

/-- The loop body of `Trace.extract_operations`. -/
def step (onlyPersist : Bool) (st : Extraction) (entry : Text) : Option Extraction :=
  let strs := entry.splitOn ','
  match entryKind strs with
  | some .lockBegin | some .unlockBegin => some { st with skipLockModeling := true }
  | some .lockEnd => (parseOp strs st.opCurrIndex .lockEnd).map fun op =>
      { st.appendFull onlyPersist op with skipLockModeling := false }
  | some .unlockEnd => (parseOp strs st.opCurrIndex .unlockEnd).map fun op =>
      { st.appendFull onlyPersist op with skipLockModeling := false }
  | kind? =>
      if st.skipLockModeling then some st else kind?.bind (extractEntry onlyPersist st strs)

end Extraction

/-- `self.trace.ops[api_range[0] : api_range[1]+1]`. -/
def Trace.perApi (trace : Trace) (apiRange : Nat × Nat) : List Op :=
  (trace.ops.drop apiRange.1).take (apiRange.2 + 1 - apiRange.1)

/-- `Trace.extract_operations`. -/
def Trace.extractOperations (onlyPersist : Bool) (entries : List Text) : Option Trace :=
  (entries.foldlM (Extraction.step onlyPersist) Extraction.start).map Extraction.toTrace

/-- `Trace.__init__`, on the contents of the trace file. -/
def Trace.new (file : Text) (onlyPersist : Bool) : Option Trace :=
  Trace.extractOperations onlyPersist (terminated '\n' (universalNewlines file))

end Durinn
