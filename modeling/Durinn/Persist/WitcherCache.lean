import Durinn.Lib.Dict
import Durinn.Persist.Cache

/-!
# The cache model with cachelines

The model of `trace_checker/lib/witchercache.py`.  A `WitcherCache` is a dictionary of
cachelines, each with the list of its stores; lines are created when a store or a flush
needs them, written back line by line, and deleted when a fence leaves them empty.
Nothing in it remembers the order of stores to different lines.

It refines the same mark-and-drain buffer as the flat cache does.  `feed_spec` and
`writeBackAllStores_spec` are the two step lemmas: as long as every store lies inside its
cacheline and inside the file, no assertion fails, each line holds the pending items of
the buffer that belong to it, in order, and the file is the initial one after the
drained items were written to it.  Writing line by line and not in order makes no
difference there, since stores to different lines share no byte.
-/

namespace Durinn

open MarkBuffer

/-! ## Cachelines -/

/-- `WitcherCacheline`: the stores to one line, in order. -/
structure WitcherCacheline where
  address : Nat
  size : Nat
  storesList : List (Cell Store)
  deriving DecidableEq, Repr

namespace WitcherCacheline

variable {F : Type} [DoStore F]

/-- `WitcherCacheline.can_accept_store_op`. -/
def canAcceptStoreOp (l : WitcherCacheline) (s : Store) : Bool :=
  l.address ≤ s.address && s.address + s.size ≤ l.address + l.size

/-- `WitcherCacheline.can_accept_flush_op`; every flush has the size of a cacheline. -/
def canAcceptFlushOp (l : WitcherCacheline) (f : Flush) : Bool :=
  l.address = f.address && l.size = cachelineBytes

/-- `WitcherCacheline.accept_store`; `none` is the failed assertion. -/
def acceptStore (l : WitcherCacheline) (s : Store) : Option WitcherCacheline :=
  if l.canAcceptStoreOp s then some { l with storesList := l.storesList ++ [⟨s, .clear⟩] }
  else none

/-- `WitcherCacheline.accept_flush`: mark every store of the line. -/
def acceptFlush (l : WitcherCacheline) (f : Flush) : Option WitcherCacheline :=
  if l.canAcceptFlushOp f then
    (l.storesList.mapM Cell.acceptFlush).map fun cells => { l with storesList := cells }
  else none

/-- `WitcherCacheline.write_back_all_flushing_stores`: write the marked stores, in order,
and keep the clear ones. -/
def writeBackAllFlushingStores (l : WitcherCacheline) (file : F) :
    Option (WitcherCacheline × F) := do
  let file ← doStores file ((l.storesList.filter Cell.isFlushing).map Cell.op)
  let cells ← l.storesList.mapM fun e => if e.isFlushing then e.acceptFence else some e
  return ({ l with storesList := cells.filter Cell.isClear }, file)

/-- `WitcherCacheline.write_back_all_stores`. -/
def writeBackAllStores (l : WitcherCacheline) (file : F) : Option (WitcherCacheline × F) := do
  let file ← doStores file (l.storesList.map Cell.op)
  let _ ← l.storesList.mapM Cell.acceptFence
  return ({ l with storesList := [] }, file)

/-- `WitcherCacheline.is_empty`. -/
def isEmpty (l : WitcherCacheline) : Bool := l.storesList.isEmpty

end WitcherCacheline

/-! ## `WitcherCache` -/

/-- `WitcherCache`: the cachelines by address, and the file they are written to. -/
structure WitcherCache (F : Type) where
  cachelineDict : Dict Nat WitcherCacheline
  binaryFile : F

namespace WitcherCache

variable {F : Type} [DoStore F]

/-- A new cache that writes to `file`. -/
def new (file : F) : WitcherCache F := ⟨Dict.empty, file⟩

/-- `WitcherCache.get_cacheline_from_address`: the line of an address, created if there
is none. -/
def getCachelineFromAddress (c : WitcherCache F) (address : Nat) :
    WitcherCache F × WitcherCacheline :=
  let cachelineAddress := getCachelineAddress address
  match c.cachelineDict.get? cachelineAddress with
  | some cacheline => (c, cacheline)
  | none =>
      let cacheline := ⟨cachelineAddress, cachelineBytes, []⟩
      ({ c with cachelineDict := c.cachelineDict.set cachelineAddress cacheline }, cacheline)

/-- Let the line of an address, created if there is none, do `f`. -/
def updateCacheline (c : WitcherCache F) (address : Nat)
    (f : WitcherCacheline → Option WitcherCacheline) : Option (WitcherCache F) :=
  let (c, cacheline) := c.getCachelineFromAddress address
  (f cacheline).map fun cacheline =>
    { c with cachelineDict := c.cachelineDict.set (getCachelineAddress address) cacheline }

/-- `WitcherCache.accept_store`. -/
def acceptStore (c : WitcherCache F) (s : Store) : Option (WitcherCache F) :=
  c.updateCacheline s.address fun cacheline => cacheline.acceptStore s

/-- `WitcherCache.accept_flush`. -/
def acceptFlush (c : WitcherCache F) (f : Flush) : Option (WitcherCache F) :=
  c.updateCacheline f.address fun cacheline => cacheline.acceptFlush f

/-- `WitcherCache.accept_op`: the new state, and whether the operation is a fence. -/
def acceptOp (c : WitcherCache F) : Op → Option (WitcherCache F × Bool)
  | .store s => (c.acceptStore s).map fun c => (c, false)
  | .flush f => (c.acceptFlush f).map fun c => (c, false)
  | .fence _ => some (c, true)
  | _ => some (c, false)

/-- `WitcherCache.write_back_all_flushing_stores`: write back line by line, then delete
the lines that are empty now. -/
def writeBackAllFlushingStores (c : WitcherCache F) : Option (WitcherCache F) := do
  let (d, file) ← c.cachelineDict.traverse WitcherCacheline.writeBackAllFlushingStores c.binaryFile
  let emptyCachelines := d.values.filter WitcherCacheline.isEmpty
  return ⟨(emptyCachelines.map WitcherCacheline.address).foldl Dict.erase d, file⟩

/-- `WitcherCache.write_back_all_stores`. -/
def writeBackAllStores (c : WitcherCache F) : Option (WitcherCache F) := do
  let (_, file) ← c.cachelineDict.traverse WitcherCacheline.writeBackAllStores c.binaryFile
  return ⟨Dict.empty, file⟩

/-- An operation as `LSValidator.run` feeds it to the cache: the caller writes the marked
stores back when `accept_op` reports a fence. -/
def feed (c : WitcherCache F) (op : Op) : Option (WitcherCache F) := do
  let (c, isFence) ← c.acceptOp op
  if isFence then c.writeBackAllFlushingStores else some c

/-- The stores of the dictionary, line by line. -/
def cells (c : WitcherCache F) : List (Cell Store) :=
  c.cachelineDict.values.flatMap WitcherCacheline.storesList

end WitcherCache

/-! ## Lines that hold items of a buffer -/

/-- The pending items of a buffer that belong to the line at `k`. -/
def itemsAt (b : Buffer Store) (k : Nat) : List (Store × Bool) :=
  b.pending.filter fun e => e.1.line = k

namespace WitcherCacheline

variable {F : Type} [DoStore F]

/-- The line at `k` with the given items. -/
def ofItems (k : Nat) (items : List (Store × Bool)) : WitcherCacheline :=
  ⟨k, cachelineBytes, items.map Cell.ofItem⟩

theorem acceptStore_ofItems {s : Store} (hs : s.InLine) (items : List (Store × Bool)) :
    (ofItems s.line items).acceptStore s = some (ofItems s.line (items ++ [(s, false)])) := by
  have hcan : (ofItems s.line items).canAcceptStoreOp s = true := by
    rw [canAcceptStoreOp, Bool.and_eq_true, decide_eq_true_eq, decide_eq_true_eq]
    exact hs
  rw [acceptStore, if_pos hcan]
  simp [ofItems, Cell.ofItem]

theorem acceptFlush_ofItems (f : Flush) (items : List (Store × Bool)) :
    (ofItems f.address items).acceptFlush f =
      some (ofItems f.address (items.map fun e => (e.1, true))) := by
  have hcan : (ofItems f.address items).canAcceptFlushOp f = true := by
    simp [canAcceptFlushOp, ofItems]
  have hcells : ∀ items : List (Store × Bool), (items.map Cell.ofItem).mapM Cell.acceptFlush =
      some ((items.map fun e => (e.1, true)).map Cell.ofItem) := by
    intro items
    induction items with
    | nil => rfl
    | cons e items ih =>
      rw [List.map_cons, List.mapM_cons, ih, Cell.acceptFlush_ofItem]
      rfl
  rw [acceptFlush, if_pos hcan]
  exact congrArg (Option.map _) (hcells items)

/-- Stores that are written back are no longer clear, so they go. -/
theorem filter_isClear_mapM (cells : List (Cell Store)) :
    ∃ cells', (cells.mapM fun e => if e.isFlushing then e.acceptFence else some e) = some cells' ∧
      cells'.filter Cell.isClear = cells.filter Cell.isClear := by
  induction cells with
  | nil => exact ⟨[], rfl, rfl⟩
  | cons e cells ih =>
    obtain ⟨cells', hrun, hclear⟩ := ih
    obtain ⟨s, m⟩ := e
    rw [List.mapM_cons, hrun]
    cases m with
    | clear => exact ⟨⟨s, .clear⟩ :: cells', rfl, by simp [hclear, Cell.isClear]⟩
    | flushing => exact ⟨⟨s, .fenced⟩ :: cells', rfl, by simp [hclear, Cell.isClear]⟩
    | fenced => exact ⟨⟨s, .fenced⟩ :: cells', rfl, by simp [hclear, Cell.isClear]⟩

theorem writeBackAllFlushingStores_eq (l : WitcherCacheline) (file : F) :
    l.writeBackAllFlushingStores file =
      (doStores file ((l.storesList.filter Cell.isFlushing).map Cell.op)).map fun file =>
        ({ l with storesList := l.storesList.filter Cell.isClear }, file) := by
  obtain ⟨cells', hrun, hclear⟩ := filter_isClear_mapM l.storesList
  rw [← hclear, writeBackAllFlushingStores, hrun]
  cases doStores file ((l.storesList.filter Cell.isFlushing).map Cell.op) <;> rfl

/-- The part of `write_back_all_stores` that concerns the file. -/
def writeAll (file : F) (l : WitcherCacheline) : Option F := do
  let file ← doStores file (l.storesList.map Cell.op)
  let _ ← l.storesList.mapM Cell.acceptFence
  return file

theorem writeBackAllStores_eq (l : WitcherCacheline) (file : F) :
    l.writeBackAllStores file =
      (writeAll file l).map fun file => ({ l with storesList := [] }, file) := by
  simp only [writeBackAllStores, writeAll]
  cases doStores file (l.storesList.map Cell.op) with
  | none => rfl
  | some file => cases l.storesList.mapM Cell.acceptFence <;> rfl

theorem writeAll_ofItems (k : Nat) (items : List (Store × Bool)) (file : F) :
    writeAll file (ofItems k items) =
      doStores file ((ofItems k items).storesList.map Cell.op) := by
  have hcells : ∃ cells, (items.map Cell.ofItem).mapM Cell.acceptFence = some cells := by
    induction items with
    | nil => exact ⟨[], rfl⟩
    | cons e items ih =>
      obtain ⟨cells, hcells⟩ := ih
      obtain ⟨e', he'⟩ := Option.isSome_iff_exists.1 (Cell.isSome_acceptFence_ofItem e)
      exact ⟨e' :: cells, by rw [List.map_cons, List.mapM_cons, hcells, he']; rfl⟩
  obtain ⟨cells, hcells⟩ := hcells
  simp only [writeAll, ofItems, hcells]
  cases doStores file ((items.map Cell.ofItem).map Cell.op) <;> rfl

end WitcherCacheline

/-- Writing list after list is writing their concatenation. -/
theorem foldlM_doStores {F V : Type} [DoStore F] {step : F → V → Option F} {g : V → List Store}
    {vs : List V} (h : ∀ v ∈ vs, ∀ file, step file v = doStores file (g v)) (file : F) :
    vs.foldlM step file = doStores file (vs.flatMap g) := by
  induction vs generalizing file with
  | nil => rfl
  | cons v vs ih =>
    rw [List.foldlM_cons, h v (by simp), List.flatMap_cons, doStores_append]
    cases doStores file (g v) with
    | none => rfl
    | some file' => exact ih (fun v hv => h v (List.mem_cons_of_mem _ hv)) file'

/-! ## The cache as a mark-and-drain buffer -/

/-- What an operation means to a cache of lines: a flush marks the stores of its line,
and the end of an API call writes everything back. -/
def Op.lineEvent : Op → Event Store
  | .store s => .put s
  | .flush f => .mark fun s => f.address = s.line
  | .fence _ => .drain
  | .apiBegin _ => .drainAll
  | .apiEnd _ => .drainAll
  | _ => .idle

/-- The events of a list of operations, to a cache of lines. -/
def lineEvents (ops : List Op) : List (Event Store) := ops.map Op.lineEvent

@[simp] theorem lineEvents_nil : lineEvents [] = [] := rfl

@[simp] theorem lineEvents_cons (op : Op) (v : List Op) :
    lineEvents (op :: v) = op.lineEvent :: lineEvents v := rfl

@[simp] theorem lineEvents_append (u v : List Op) :
    lineEvents (u ++ v) = lineEvents u ++ lineEvents v :=
  List.map_append

/-- Stores inside their cachelines may be written in any order that keeps the order of
each line. -/
theorem doStores_congr_lines {file : BinaryFile} {ss ts : List Store}
    (hss : ∀ s ∈ ss, s.InLine ∧ file.InFile s) (hts : ∀ s ∈ ts, s.InLine ∧ file.InFile s)
    (h : ∀ k, ss.filter (fun s => s.line = k) = ts.filter fun s => s.line = k) :
    doStores file ss = doStores file ts := by
  have hline : ∀ s, s ∈ ss ∨ s ∈ ts → s.InLine :=
    fun s hs => hs.elim (fun hs => (hss s hs).1) fun hs => (hts s hs).1
  exact BinaryFile.doStores_congr (fun s hs => (hss s hs).2) (fun s hs => (hts s hs).2) Store.line
    (fun s t hs ht a hsa hta => Store.line_eq_of_covers (hline s hs) (hline t ht) hsa hta) h

namespace WitcherCache

/-- Every line holds the pending items of the buffer that belong to it, and the file is
the initial one after the drained items were written to it. -/
structure Refines (file : BinaryFile) (c : WitcherCache BinaryFile) (b : Buffer Store) : Prop where
  line_eq : ∀ k l, c.cachelineDict.get? k = some l → l = .ofItems k (itemsAt b k)
  items_nil : ∀ k, c.cachelineDict.get? k = none → itemsAt b k = []
  written : doStores file b.drained = some c.binaryFile
  good : ∀ s, s ∈ b.drained ∨ s ∈ b.pending.map Prod.fst → s.InLine ∧ file.InFile s

variable {file : BinaryFile} {c : WitcherCache BinaryFile} {b : Buffer Store}

theorem refines_new (file : BinaryFile) : Refines file (new file) Buffer.empty where
  line_eq k l h := by simp [new] at h
  items_nil k _ := rfl
  written := rfl
  good s h := by simp [Buffer.empty] at h

theorem Refines.inFile (h : Refines file c b) {s : Store} (hs : s ∈ b.pending.map Prod.fst) :
    c.binaryFile.InFile s :=
  (BinaryFile.inFile_of_doStores (fun r hr => (h.good r (Or.inl hr)).2) h.written s).2
    (h.good s (Or.inr hs)).2

/-- What the lines hold, collected in the order of the dictionary, is line by line what
the buffer holds. -/
theorem Refines.filter_cells (h : Refines file c b) (k : Nat) :
    c.cells.filter (fun e => e.op.line = k) = (itemsAt b k).map Cell.ofItem := by
  have hkey : ∀ k l, c.cachelineDict.get? k = some l → ∀ e ∈ l.storesList, e.op.line = k := by
    intro k l hl e he
    rw [h.line_eq k l hl, WitcherCacheline.ofItems] at he
    obtain ⟨x, hx, rfl⟩ := List.mem_map.1 he
    simpa [itemsAt] using (List.mem_filter.1 hx).2
  rw [cells, Dict.filter_flatMap_values _ _ (fun e : Cell Store => e.op.line) hkey]
  cases hk : c.cachelineDict.get? k with
  | none => simp [h.items_nil k hk]
  | some l => simp [h.line_eq k l hk, WitcherCacheline.ofItems]

theorem Refines.filter_line (h : Refines file c b) (q : Cell Store → Bool) (k : Nat) :
    ((c.cells.filter q).map Cell.op).filter (fun s => s.line = k) =
      ((b.pending.filter fun e => q (Cell.ofItem e)).map Prod.fst).filter fun s => s.line = k := by
  have hleft : ((c.cells.filter q).map Cell.op).filter (fun s => s.line = k) =
      ((c.cells.filter fun e => e.op.line = k).filter q).map Cell.op := by
    simp only [List.filter_map, List.filter_filter, Function.comp_def, Bool.and_comm]
  rw [hleft, h.filter_cells]
  simp only [itemsAt, List.filter_map, List.filter_filter, List.map_map, Function.comp_def,
    Cell.op_ofItem, Bool.and_comm]

theorem flatMap_eq_cells (c : WitcherCache BinaryFile) (q : Cell Store → Bool) :
    (c.cachelineDict.values.flatMap fun l => (l.storesList.filter q).map Cell.op) =
      (c.cells.filter q).map Cell.op := by
  simp only [cells, List.filter_flatMap, List.map_flatMap]

/-- **Stores to different lines may be written in any order**: writing a selection of
the stores line by line is writing it in the order of the buffer. -/
theorem Refines.doStores_lines (h : Refines file c b) (q : Cell Store → Bool) :
    doStores c.binaryFile ((c.cells.filter q).map Cell.op) =
      doStores c.binaryFile ((b.pending.filter fun e => q (Cell.ofItem e)).map Prod.fst) := by
  have hright : ∀ s ∈ (b.pending.filter fun e => q (Cell.ofItem e)).map Prod.fst,
      s ∈ b.pending.map Prod.fst :=
    fun s hs => (List.filter_sublist.map Prod.fst).subset hs
  have hleft : ∀ s ∈ (c.cells.filter q).map Cell.op, s ∈ b.pending.map Prod.fst := by
    intro s hs
    have hmem : s ∈ ((c.cells.filter q).map Cell.op).filter fun r => r.line = s.line :=
      List.mem_filter.2 ⟨hs, decide_eq_true rfl⟩
    rw [h.filter_line q s.line] at hmem
    exact hright s (List.mem_filter.1 hmem).1
  have hgood : ∀ s ∈ b.pending.map Prod.fst, s.InLine ∧ c.binaryFile.InFile s :=
    fun s hs => ⟨(h.good s (Or.inr hs)).1, h.inFile hs⟩
  exact doStores_congr_lines (fun s hs => hgood s (hleft s hs)) (fun s hs => hgood s (hright s hs))
    (h.filter_line q)

/-- The line of an address is there afterwards, with the items that belong to it. -/
theorem Refines.getCachelineFromAddress (h : Refines file c b) (a : Nat) :
    Refines file (c.getCachelineFromAddress a).1 b ∧
      (c.getCachelineFromAddress a).2 =
        .ofItems (getCachelineAddress a) (itemsAt b (getCachelineAddress a)) := by
  cases hk : c.cachelineDict.get? (getCachelineAddress a) with
  | some l =>
    simp only [WitcherCache.getCachelineFromAddress, hk]
    exact ⟨h, h.line_eq _ l hk⟩
  | none =>
    simp only [WitcherCache.getCachelineFromAddress, hk]
    have hnew : (⟨getCachelineAddress a, cachelineBytes, []⟩ : WitcherCacheline) =
        .ofItems (getCachelineAddress a) (itemsAt b (getCachelineAddress a)) := by
      rw [h.items_nil _ hk]
      rfl
    refine ⟨⟨fun k l hl => ?_, fun k hl => ?_, h.written, h.good⟩, hnew⟩
    · rw [Dict.get?_set] at hl
      split at hl
      · rename_i hka
        rw [← Option.some.inj hl, hka]
        exact hnew
      · exact h.line_eq k l hl
    · rw [Dict.get?_set] at hl
      split at hl
      · cases hl
      · exact h.items_nil k hl

/-- What one line does follows any step of the buffer that changes only this line. -/
theorem Refines.updateCacheline (h : Refines file c b) {b' : Buffer Store} {a k : Nat}
    (hk : getCachelineAddress a = k) {f : WitcherCacheline → Option WitcherCacheline}
    (hf : f (.ofItems k (itemsAt b k)) = some (.ofItems k (itemsAt b' k)))
    (hother : ∀ k', k' ≠ k → itemsAt b' k' = itemsAt b k') (hdrained : b'.drained = b.drained)
    (hgood : ∀ s, s ∈ b'.pending.map Prod.fst → s.InLine ∧ file.InFile s) :
    ∃ c', c.updateCacheline a f = some c' ∧ Refines file c' b' := by
  obtain ⟨h', hl⟩ := h.getCachelineFromAddress a
  subst hk
  simp only [WitcherCache.updateCacheline, hl, hf, Option.map_some]
  refine ⟨_, rfl, fun k l hkl => ?_, fun k hkl => ?_, ?_, fun s hs => ?_⟩
  · rw [Dict.get?_set] at hkl
    split at hkl
    · rename_i hk
      rw [← Option.some.inj hkl, hk]
    · rename_i hk
      rw [hother k hk]
      exact h'.line_eq k l hkl
  · rw [Dict.get?_set] at hkl
    split at hkl
    · cases hkl
    · rename_i hk
      rw [hother k hk]
      exact h'.items_nil k hkl
  · rw [hdrained]
    exact h'.written
  · rw [hdrained] at hs
    exact hs.elim (fun hs => h.good s (Or.inl hs)) (hgood s)

theorem acceptStore_spec (h : Refines file c b) {s : Store} (hs : s.InLine ∧ file.InFile s) :
    ∃ c', c.acceptStore s = some c' ∧ Refines file c' (b.step (.put s)) := by
  have hitems : itemsAt (b.step (.put s)) s.line = itemsAt b s.line ++ [(s, false)] := by
    simp [itemsAt, Buffer.step]
  refine h.updateCacheline (k := s.line) rfl ?_ (fun k hk => ?_) rfl fun r hr => ?_
  · rw [hitems]
    exact WitcherCacheline.acceptStore_ofItems hs.1 _
  · simp [itemsAt, Buffer.step, hk.symm]
  · simp only [Buffer.step, List.map_append, List.mem_append, List.map_cons, List.map_nil,
      List.mem_singleton] at hr
    rcases hr with hr | rfl
    · exact h.good r (Or.inr hr)
    · exact hs

theorem itemsAt_mark (b : Buffer Store) (f : Flush) (k : Nat) :
    itemsAt (b.step (Op.lineEvent (.flush f))) k =
      (itemsAt b k).map fun e => (e.1, e.2 || decide (f.address = k)) := by
  simp only [itemsAt, Op.lineEvent, Buffer.step, List.filter_map, Function.comp_def]
  refine List.map_congr_left fun e he => ?_
  have hline : e.1.line = k := by simpa using (List.mem_filter.1 he).2
  simp [hline]

theorem acceptFlush_spec (h : Refines file c b) (f : Flush) :
    ∃ c', c.acceptFlush f = some c' ∧ Refines file c' (b.step (Op.lineEvent (.flush f))) := by
  refine h.updateCacheline (k := f.address) (getCachelineAddress_idem _) ?_ (fun k hk => ?_) rfl
    fun r hr => ?_
  · rw [itemsAt_mark]
    simpa using WitcherCacheline.acceptFlush_ofItems f (itemsAt b f.address)
  · simp [itemsAt_mark, hk.symm]
  · have hsame : (b.step (Op.lineEvent (.flush f))).pending.map Prod.fst =
        b.pending.map Prod.fst := by simp [Op.lineEvent, Buffer.step, Function.comp_def]
    exact h.good r (Or.inr (hsame ▸ hr))

theorem itemsAt_drain (b : Buffer Store) (k : Nat) :
    itemsAt (b.step .drain) k = (itemsAt b k).filter fun e => !e.2 := by
  simp only [itemsAt, Buffer.step, List.filter_filter, Bool.and_comm]

/-- The line that is left of a line after a fence. -/
theorem ofItems_drain (b : Buffer Store) (k : Nat) :
    { WitcherCacheline.ofItems k (itemsAt b k) with
        storesList := (WitcherCacheline.ofItems k (itemsAt b k)).storesList.filter Cell.isClear } =
      WitcherCacheline.ofItems k (itemsAt (b.step .drain) k) := by
  simp [WitcherCacheline.ofItems, itemsAt_drain, List.filter_map, Function.comp_def]

theorem good_drain (h : Refines file c b) {b' : Buffer Store} {w : List Store}
    (hw : ∀ s ∈ w, s ∈ b.pending.map Prod.fst) (hd : b'.drained = b.drained ++ w)
    (hp : ∀ s ∈ b'.pending.map Prod.fst, s ∈ b.pending.map Prod.fst) :
    ∀ s, s ∈ b'.drained ∨ s ∈ b'.pending.map Prod.fst → s.InLine ∧ file.InFile s := by
  rintro s (hs | hs)
  · rw [hd, List.mem_append] at hs
    exact h.good s (hs.imp_right (hw s))
  · exact h.good s (Or.inr (hp s hs))

theorem writeBackAllFlushingStores_spec (h : Refines file c b) :
    ∃ c', c.writeBackAllFlushingStores = some c' ∧ Refines file c' (b.step .drain) := by
  have hsub : ∀ s ∈ (b.pending.filter fun e => e.2).map Prod.fst, s ∈ b.pending.map Prod.fst :=
    fun s hs => (List.filter_sublist.map Prod.fst).subset hs
  obtain ⟨file', hfile', -⟩ := BinaryFile.doStores_spec fun s hs => h.inFile (hsub s hs)
  have htrav := Dict.traverse_spec
    (WitcherCacheline.writeBackAllFlushingStores_eq (F := BinaryFile))
    c.cachelineDict c.binaryFile
  rw [foldlM_doStores fun v _ file => rfl, flatMap_eq_cells, h.doStores_lines Cell.isFlushing]
    at htrav
  simp only [Cell.isFlushing_ofItem, hfile', Option.map_some] at htrav
  -- the lines that are deleted are those left without items
  have hline : ∀ k l, (c.cachelineDict.map fun l => { l with
      storesList := l.storesList.filter Cell.isClear }).get? k = some l →
      l = .ofItems k (itemsAt (b.step .drain) k) := by
    intro k l hl
    rw [Dict.get?_map, Option.map_eq_some_iff] at hl
    obtain ⟨l₀, hl₀, rfl⟩ := hl
    rw [h.line_eq k l₀ hl₀]
    exact ofItems_drain b k
  simp only [WitcherCache.writeBackAllFlushingStores, htrav]
  refine ⟨_, rfl, fun k l hl => ?_, fun k hl => ?_, ?_, ?_⟩
  · rw [Dict.get?_foldl_erase] at hl
    split at hl
    · cases hl
    · exact hline k l hl
  · rw [Dict.get?_foldl_erase] at hl
    split at hl
    · rename_i hk
      obtain ⟨l, hl, rfl⟩ := List.mem_map.1 hk
      obtain ⟨hmem, hempty⟩ := List.mem_filter.1 hl
      obtain ⟨k, hk⟩ := Dict.mem_values.1 hmem
      rw [hline k l hk] at hempty ⊢
      simpa [WitcherCacheline.isEmpty, WitcherCacheline.ofItems] using hempty
    · rw [Dict.get?_map, Option.map_eq_none_iff] at hl
      rw [itemsAt_drain, h.items_nil k hl]
      rfl
  · simp only [Buffer.step, doStores_append, h.written, Option.bind_some]
    exact hfile'
  · exact good_drain h hsub rfl fun s hs => (List.filter_sublist.map Prod.fst).subset hs

theorem writeBackAllStores_spec (h : Refines file c b) :
    ∃ c', c.writeBackAllStores = some c' ∧ Refines file c' (b.step .drainAll) := by
  have hin : ∀ s ∈ b.pending.map Prod.fst, c.binaryFile.InFile s := fun s hs => h.inFile hs
  obtain ⟨file', hfile', -⟩ := BinaryFile.doStores_spec hin
  have hwrite : ∀ l ∈ c.cachelineDict.values, ∀ file : BinaryFile,
      WitcherCacheline.writeAll file l =
        doStores file ((l.storesList.filter fun _ => true).map Cell.op) := by
    intro l hl file
    obtain ⟨k, hk⟩ := Dict.mem_values.1 hl
    rw [List.filter_true, h.line_eq k l hk, WitcherCacheline.writeAll_ofItems]
  have htrav := Dict.traverse_spec (WitcherCacheline.writeBackAllStores_eq (F := BinaryFile))
    c.cachelineDict c.binaryFile
  rw [foldlM_doStores hwrite, flatMap_eq_cells, h.doStores_lines fun _ => true,
    List.filter_true, hfile'] at htrav
  simp only [WitcherCache.writeBackAllStores, htrav]
  refine ⟨_, rfl, fun k l hl => ?_, fun k _ => rfl, ?_, ?_⟩
  · cases hl
  · simp only [Buffer.step, doStores_append, h.written, Option.bind_some]
    exact hfile'
  · exact good_drain h (fun s hs => hs) rfl fun s hs => by simp [Buffer.step] at hs

/-- **One operation**: fed with a store inside its cacheline and inside the file, a
flush or a fence, the cache follows the buffer and no assertion fails. -/
theorem feed_spec (h : Refines file c b) {op : Op} (hop : op.isBoundary = false)
    (hgood : ∀ s, op = .store s → s.InLine ∧ file.InFile s) :
    ∃ c', c.feed op = some c' ∧ Refines file c' (b.step op.lineEvent) := by
  cases op with
  | store s =>
    obtain ⟨c', hc', href⟩ := acceptStore_spec h (hgood s rfl)
    exact ⟨c', by simp [feed, acceptOp, hc'], href⟩
  | flush f =>
    obtain ⟨c', hc', href⟩ := acceptFlush_spec h f
    exact ⟨c', by simp [feed, acceptOp, hc'], href⟩
  | fence o => exact writeBackAllFlushingStores_spec h
  | apiBegin o => cases hop
  | apiEnd o => cases hop
  | _ => exact ⟨c, rfl, h⟩

end WitcherCache

end Durinn
