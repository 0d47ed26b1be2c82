import Durinn.Lib.MarkBuffer
import Durinn.Persist.BinaryFile

/-!
# The flat cache model

The model of `trace_checker/lib/cache.py`.  A `Cache` is a list of operations in program
order; a flush marks those it overlaps and a fence drops the marked ones.  A
`ReplayCache` is such a cache of stores that, on a fence, first writes the
marked stores to a file.

`ReplayCache` refines the mark-and-drain buffer of `Durinn.Lib.MarkBuffer`:
`acceptOps_eq` says that running it over a list of operations leaves the pending items
of the buffer in the cache and writes the drained items to the file, in that
order, and raises an exception exactly if one of these writes does.
-/

namespace Durinn

open MarkBuffer

/-- The attribute `flushing`: clear, to be written back on the next fence, or written
back. -/
inductive FlushMark where
  | clear
  | flushing
  | fenced
  deriving DecidableEq, Repr

/-- An operation in a cache, with its attribute `flushing`. -/
structure Cell (α : Type) where
  op : α
  flushing : FlushMark
  deriving DecidableEq, Repr

namespace Cell

variable {α : Type}

/-- `is_clear`. -/
def isClear (e : Cell α) : Bool := e.flushing = .clear

/-- `is_flushing`. -/
def isFlushing (e : Cell α) : Bool := e.flushing = .flushing

/-- `Store.accept_flush`, which asserts that the store was not written back. -/
def acceptFlush (e : Cell α) : Option (Cell α) :=
  if e.isClear || e.isFlushing then some { e with flushing := .flushing } else none

/-- `Store.accept_fence`, with the same assertion. -/
def acceptFence (e : Cell α) : Option (Cell α) :=
  if e.isClear || e.isFlushing then some { e with flushing := .fenced } else none

/-- The cell of an item of a buffer. -/
def ofItem (x : α × Bool) : Cell α := ⟨x.1, if x.2 then .flushing else .clear⟩

@[simp] theorem op_ofItem (x : α × Bool) : (ofItem x).op = x.1 := rfl

@[simp] theorem isFlushing_ofItem (x : α × Bool) : (ofItem x).isFlushing = x.2 := by
  cases h : x.2 <;> simp [ofItem, isFlushing, h]

@[simp] theorem isClear_ofItem (x : α × Bool) : (ofItem x).isClear = !x.2 := by
  cases h : x.2 <;> simp [ofItem, isClear, h]

@[simp] theorem acceptFlush_ofItem (x : α × Bool) :
    (ofItem x).acceptFlush = some (ofItem (x.1, true)) := by
  cases h : x.2 <;> simp [acceptFlush, isClear, isFlushing, ofItem, h]

@[simp] theorem isSome_acceptFence_ofItem (x : α × Bool) : (ofItem x).acceptFence.isSome := by
  cases h : x.2 <;> simp [acceptFence, isClear, isFlushing, ofItem, h]

end Cell

/-! ## `Cache` -/

/-- `Cache`: operations in program order. -/
structure Cache (α : Type) where
  ops : List (Cell α)
  deriving DecidableEq, Repr

namespace Cache

variable {α : Type}

/-- A new cache. -/
def empty : Cache α := ⟨[]⟩

/-- `Cache.accept_op`. -/
def acceptOp (c : Cache α) (op : α) : Cache α := ⟨c.ops ++ [⟨op, .clear⟩]⟩

/-- `Cache.accept_flush`: mark every operation the flush overlaps. -/
def acceptFlush [Rangeable α] (c : Cache α) (flush : Flush) : Cache α :=
  ⟨c.ops.map fun e => if flush.isInFlush e.op then { e with flushing := .flushing } else e⟩

/-- `Cache.accept_fence`: keep the operations that are clear. -/
def acceptFence (c : Cache α) : Cache α := ⟨c.ops.filter Cell.isClear⟩

/-- `Cache.clear`. -/
def clear (_ : Cache α) : Cache α := ⟨[]⟩

/-- `Cache.is_empty`. -/
def isEmpty (c : Cache α) : Bool := c.ops.isEmpty

/-- `Cache.get_all_ops`. -/
def getAllOps (c : Cache α) : List α := c.ops.map Cell.op

/-- `Cache.get_flushing_ops`. -/
def getFlushingOps (c : Cache α) : List α := (c.ops.filter Cell.isFlushing).map Cell.op

/-- The cache that holds the pending items of a buffer. -/
def ofBuffer (b : Buffer α) : Cache α := ⟨b.pending.map Cell.ofItem⟩

theorem ofBuffer_put (b : Buffer α) (op : α) :
    ofBuffer (b.step (.put op)) = (ofBuffer b).acceptOp op := by
  simp [ofBuffer, Buffer.step, acceptOp, Cell.ofItem]

theorem ofBuffer_mark [Rangeable α] (b : Buffer α) (f : Flush) :
    ofBuffer (b.step (.mark fun x => f.isInFlush x)) = (ofBuffer b).acceptFlush f := by
  simp only [ofBuffer, Buffer.step, acceptFlush, List.map_map]
  congr 1
  refine List.map_congr_left fun x _ => ?_
  cases hx : x.2 <;> cases hf : f.isInFlush x.1 <;> simp [Cell.ofItem, hx, hf]

theorem ofBuffer_drain (b : Buffer α) :
    ofBuffer (b.step .drain) = (ofBuffer b).acceptFence := by
  simp [ofBuffer, Buffer.step, acceptFence, List.filter_map, Function.comp_def]

@[simp] theorem getAllOps_ofBuffer (b : Buffer α) :
    (ofBuffer b).getAllOps = b.pending.map Prod.fst := by
  simp [ofBuffer, getAllOps, Function.comp_def]

@[simp] theorem getFlushingOps_ofBuffer (b : Buffer α) :
    (ofBuffer b).getFlushingOps = (b.pending.filter fun e => e.2).map Prod.fst := by
  simp [ofBuffer, getFlushingOps, List.filter_map, Function.comp_def]

end Cache

/-! ## `ReplayCache` -/

/-- `ReplayCache`: a cache of stores with the file it writes them to. -/
structure ReplayCache (F : Type) extends Cache Store where
  binaryFile : F
  deriving DecidableEq, Repr

namespace ReplayCache

variable {F : Type} [DoStore F]

/-- A new cache that writes to `file`. -/
def new (file : F) : ReplayCache F := ⟨Cache.empty, file⟩

/-- `ReplayCache.accept_fence`: write the marked stores back, in order, and drop them. -/
def acceptFence (c : ReplayCache F) : Option (ReplayCache F) := do
  let file ← doStores c.binaryFile c.getFlushingOps
  return ⟨c.toCache.acceptFence, file⟩

/-- `ReplayCache.accept_op`.  Operations of other kinds are ignored: the last branch of
the source asserts `True`. -/
def acceptOp (c : ReplayCache F) : Op → Option (ReplayCache F)
  | .store s => some ⟨c.toCache.acceptOp s, c.binaryFile⟩
  | .flush f => some ⟨c.toCache.acceptFlush f, c.binaryFile⟩
  | .fence _ => c.acceptFence
  | _ => some c

/-- `ReplayCache.accept_ops`. -/
def acceptOps (c : ReplayCache F) (ops : List Op) : Option (ReplayCache F) :=
  ops.foldlM acceptOp c

/-- `ReplayCache.write_back_all_stores`: write every store back, in order, and forget
them. -/
def writeBackAllStores (c : ReplayCache F) : Option (ReplayCache F) := do
  let file ← doStores c.binaryFile c.getAllOps
  return ⟨Cache.empty, file⟩

@[simp] theorem acceptOps_nil (c : ReplayCache F) : c.acceptOps [] = some c := rfl

theorem acceptOps_append (c : ReplayCache F) (u v : List Op) :
    c.acceptOps (u ++ v) = (c.acceptOps u).bind fun c => c.acceptOps v := by
  simp [acceptOps, List.foldlM_append]

end ReplayCache

/-! ## The flat cache as a mark-and-drain buffer -/

/-- What an operation means to a cache of stores: a store arrives, a flush marks the
stores it overlaps, a fence drains. -/
def Op.event : Op → Event Store
  | .store s => .put s
  | .flush f => .mark fun s => f.isInFlush s
  | .fence _ => .drain
  | _ => .idle

/-- The events of a list of operations. -/
def events (ops : List Op) : List (Event Store) := ops.map Op.event

@[simp] theorem events_nil : events [] = [] := rfl

@[simp] theorem events_cons (op : Op) (v : List Op) : events (op :: v) = op.event :: events v := rfl

@[simp] theorem events_singleton (op : Op) : events [op] = [op.event] := rfl

@[simp] theorem events_append (u v : List Op) : events (u ++ v) = events u ++ events v :=
  List.map_append

theorem events_ne_drainAll {ops : List Op} : ∀ e ∈ events ops, e ≠ .drainAll := by
  intro e he
  obtain ⟨op, -, rfl⟩ := List.mem_map.1 he
  cases op <;> simp [Op.event]

namespace ReplayCache

variable {F : Type} [DoStore F]

/-- The cache holds the pending items of the buffer, and its file is `file` after the
drained items were written to it. -/
structure Refines (file : F) (c : ReplayCache F) (b : Buffer Store) : Prop where
  cache : c.toCache = Cache.ofBuffer b
  written : doStores file b.drained = some c.binaryFile

theorem refines_new (file : F) : Refines file (new file) Buffer.empty := ⟨rfl, rfl⟩

/-- One operation: the cache follows the buffer, unless one of the writes raises. -/
theorem acceptOp_eq {file : F} {c : ReplayCache F} {b : Buffer Store} (h : Refines file c b)
    (op : Op) :
    c.acceptOp op = (doStores file (b.step op.event).drained).map fun f =>
      ⟨Cache.ofBuffer (b.step op.event), f⟩ := by
  obtain ⟨hc, hw⟩ := h
  have hsame : ∀ b' : Buffer Store, b'.drained = b.drained → ∀ d, Cache.ofBuffer b' = d →
      some ⟨d, c.binaryFile⟩ = (doStores file b'.drained).map fun f =>
        (⟨Cache.ofBuffer b', f⟩ : ReplayCache F) := by
    intro b' hb d hd
    rw [hb, hw, hd]
    rfl
  cases op with
  | store s =>
    rw [acceptOp, hc]
    exact hsame (b.step (.put s)) rfl _ (Cache.ofBuffer_put b s)
  | flush f =>
    rw [acceptOp, hc]
    exact hsame (b.step (.mark fun x => f.isInFlush x)) rfl _ (Cache.ofBuffer_mark b f)
  | fence o =>
    simp only [acceptOp, acceptFence, Op.event, hc, Cache.getFlushingOps_ofBuffer,
      ← Cache.ofBuffer_drain]
    simp only [Buffer.step, doStores_append, hw, Option.bind_some]
    cases doStores c.binaryFile ((b.pending.filter fun e => e.2).map Prod.fst) <;> rfl
  | _ =>
    have hid : some c = some (⟨Cache.ofBuffer b, c.binaryFile⟩ : ReplayCache F) := by rw [← hc]
    exact hid.trans (hsame _ rfl _ rfl)

/-- **The flat cache refines the buffer.**  After any list of operations it holds the
pending items of the buffer and has written the drained ones, in order; it raises an
exception exactly if one of these writes does. -/
theorem acceptOps_eq {file : F} {c : ReplayCache F} {b : Buffer Store} (h : Refines file c b)
    (ops : List Op) :
    c.acceptOps ops = (doStores file (b.run (events ops)).drained).map fun f =>
      ⟨Cache.ofBuffer (b.run (events ops)), f⟩ := by
  induction ops using List.reverseRecOn with
  | nil =>
    rw [acceptOps_nil, events_nil, Buffer.run_nil, h.written, Option.map_some, ← h.cache]
  | append_singleton ops op ih =>
    rw [acceptOps_append, ih, events_append, events_singleton, Buffer.run_append_singleton]
    cases hrun : doStores file (b.run (events ops)).drained with
    | none =>
      -- an exception on the way is an exception in the end
      obtain ⟨w, hw⟩ := Buffer.drained_prefix_run (b.run (events ops)) [op.event]
      have hw' : (b.run (events ops)).drained ++ w =
          ((b.run (events ops)).step op.event).drained := hw
      rw [← hw', doStores_append, hrun]
      rfl
    | some f =>
      have href : Refines file ⟨Cache.ofBuffer (b.run (events ops)), f⟩ (b.run (events ops)) :=
        ⟨rfl, hrun⟩
      simp only [Option.map_some, Option.bind_some, acceptOps, List.foldlM_cons, List.foldlM_nil,
        acceptOp_eq href op]
      exact bind_pure _

/-- The stores a run over `ops` writes, in order. -/
def written (ops : List Op) : List Store := (Buffer.empty.run (events ops)).drained

/-- The stores that are still in the cache after a run over `ops`, in order. -/
def unwritten (ops : List Op) : List Store :=
  (Buffer.empty.run (events ops)).pending.map Prod.fst

/-- `write_back_all_stores` after a run completes the sequence of writes. -/
theorem acceptOps_writeBackAllStores (file : F) (ops : List Op) :
    ((new file).acceptOps ops).bind writeBackAllStores =
      (doStores file (written ops ++ unwritten ops)).map fun f => ⟨Cache.empty, f⟩ := by
  rw [acceptOps_eq (refines_new file) ops, doStores_append, written]
  cases doStores file (Buffer.empty.run (events ops)).drained with
  | none => rfl
  | some f =>
    simp only [Option.map_some, Option.bind_some, writeBackAllStores, unwritten,
      Cache.getAllOps_ofBuffer]
    cases doStores f ((Buffer.empty.run (events ops)).pending.map Prod.fst) <;> rfl

end ReplayCache

end Durinn
