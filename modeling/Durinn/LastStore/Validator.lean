import Durinn.Persist.WitcherCache

/-!
# The crash images of the single-thread validator

The model of `LSValidator.run` and `LSValidator.gen_crash_and_validate` of
`trace_checker/checker/ls_validator.py`.  A job is a range of store ids together with
the set of those to test; the validator walks through the trace, keeps a
`WitcherCache` up to date, and at each store to test makes two crash images: one with all
stores before it (case 0), one with those that are certainly persistent, the
earlier ones in its own cacheline, and itself (case 1).

* `LSValidator.run_images` — the validator tests exactly the selected stores of the
  trace, in order, and its images are exactly the intended ones, stated in terms of
  the trace alone: neither the job nor the tests before make a difference.
-/

namespace Durinn

open MarkBuffer

/-! ## The validator -/

/-- One call of `LSValidator.validate`. -/
structure CrashTest where
  crashState : BinaryFile
  store : Store
  crashInfo : Nat
  deriving DecidableEq, Repr

/-- `LSValidator`: the job, and where and how large the image is. -/
structure LSValidator where
  idStart : Nat
  idEnd : Nat
  crashes : List Nat
  pmaddr : Nat
  pmsize : Nat
  deriving DecidableEq, Repr

namespace LSValidator

/-- `LSValidator.gen_crash_and_validate`: two copies of the image, one with every store of
the cache written to it, one with the stores of the line of `op` and then `op`.  Looking
the line up may create it. -/
def genCrashAndValidate (cache : WitcherCache BinaryFile) (op : Store) :
    Option (WitcherCache BinaryFile × List CrashTest) := do
  let img0 ← doStores cache.binaryFile (cache.cells.map Cell.op)
  let (cache, cacheline) := cache.getCachelineFromAddress op.address
  let img1 ← doStores cache.binaryFile (cacheline.storesList.map Cell.op)
  let img1 ← doStore img1 op
  return (cache, [⟨img0, op, 0⟩, ⟨img1, op, 1⟩])

/-- Is the store one to test? -/
def selects (v : LSValidator) (s : Store) : Bool :=
  v.idStart ≤ s.id && s.id ≤ v.idEnd && v.crashes.contains s.id

/-- The first half of the loop body of `LSValidator.run`. -/
def crashAt (v : LSValidator) (cache : WitcherCache BinaryFile) :
    Op → Option (WitcherCache BinaryFile × List CrashTest)
  | .store s => if v.selects s then genCrashAndValidate cache s else some (cache, [])
  | _ => some (cache, [])

/-- The second half of the loop body of `LSValidator.run`. -/
def acceptOp (cache : WitcherCache BinaryFile) (op : Op) : Option (WitcherCache BinaryFile) := do
  let cache ← cache.feed op
  if op.isBoundary then cache.writeBackAllStores else some cache

/-- The loop of `LSValidator.run`, which returns at the first operation after the job. -/
def runOps (v : LSValidator) (cache : WitcherCache BinaryFile) :
    List Op → Option (List CrashTest)
  | [] => some []
  | op :: ops =>
      if v.idEnd < op.id then some []
      else do
        let (cache, tests) ← v.crashAt cache op
        let cache ← acceptOp cache op
        let rest ← v.runOps cache ops
        return tests ++ rest

/-- `LSValidator.run`, on the operations of the trace: the calls of `validate` it makes. -/
def run (v : LSValidator) (ops : List Op) : Option (List CrashTest) :=
  v.runOps (WitcherCache.new (BinaryFile.zero v.pmaddr v.pmsize)) ops

end LSValidator

/-! ## What is persistent -/

/-- The store, which the operations `v` follow, is certainly persistent after them: an API
call began or ended since, or its cacheline was flushed and then came a fence. -/
def Persisted (r : Store) (v : List Op) : Prop :=
  (∃ op ∈ v, op.isBoundary = true) ∨ LineFlushedIn r.line v

theorem hasDrain_lineEvents (v : List Op) :
    hasDrain (lineEvents v) = true ↔ ∃ b, Op.fence b ∈ v := by
  induction v with
  | nil => simp [hasDrain]
  | cons op v ih =>
    rw [lineEvents_cons]
    cases op <;> simp [Op.lineEvent, hasDrain, ih]

theorem persisted_cons {r : Store} {op : Op} {v : List Op} :
    Persisted r (op :: v) ↔ op.isBoundary = true ∨
      (∃ f, op = .flush f ∧ f.address = r.line ∧ ∃ b, Op.fence b ∈ v) ∨ Persisted r v := by
  rw [Persisted, LineFlushedIn, flushedAndFenced_cons, List.exists_mem_cons_iff, or_assoc]
  exact or_congr_right or_left_comm

/-- Persistent is what a cache of lines has written back. -/
theorem gone_lineEvents (r : Store) (v : List Op) :
    gone r (lineEvents v) = true ↔ Persisted r v := by
  induction v with
  | nil => simp [gone, Persisted, LineFlushedIn, FlushedAndFenced]
  | cons op v ih =>
    rw [lineEvents_cons, persisted_cons, ← ih]
    cases op with
    | flush f =>
      rw [Op.lineEvent, gone, Bool.or_eq_true, Bool.and_eq_true, decide_eq_true_eq,
        hasDrain_lineEvents]
      simp [Op.isBoundary]
    | _ => simp [Op.lineEvent, gone, Op.isBoundary]

instance (r : Store) (v : List Op) : Decidable (Persisted r v) :=
  decidable_of_iff _ (gone_lineEvents r v)

/-- A crash right after `s`, when the operations `ops` came before it, may lose any of their
stores but those that are persistent and, since `s` made it, those in its line. -/
def keptStores (s : Store) : List Op → List Store
  | [] => []
  | .store r :: v =>
      if Persisted r v ∨ r.line = s.line then r :: keptStores s v else keptStores s v
  | _ :: v => keptStores s v

/-! ## Lists of stores, seen from the buffer -/

theorem arrivals_lineEvents_fst (ops : List Op) :
    (arrivals (lineEvents ops)).map Prod.fst = storesOf ops := by
  induction ops with
  | nil => rfl
  | cons op ops ih =>
    cases op with
    | store s => exact congrArg (s :: ·) ih
    | _ => exact ih

theorem keptStores_eq (s : Store) (ops : List Op) :
    keptStores s ops = ((arrivals (lineEvents ops)).filter fun x =>
      gone x.1 x.2 || decide (x.1.line = s.line)).map Prod.fst := by
  induction ops with
  | nil => rfl
  | cons op ops ih =>
    cases op with
    | store r =>
      rw [keptStores, lineEvents_cons, Op.lineEvent, arrivals, ih]
      by_cases h : Persisted r ops ∨ r.line = s.line
      · rw [if_pos h, List.filter_cons_of_pos, List.map_cons]
        simpa [gone_lineEvents] using h
      · rw [if_neg h, List.filter_cons_of_neg]
        simpa [gone_lineEvents] using h
    | _ => exact ih

theorem inOrder_lineEvents (k : Nat) (ops : List Op) :
    InOrder (fun s : Store => decide (s.line = k)) (lineEvents ops) := by
  refine inOrder_of_uniform fun p hp r t hr ht => ?_
  obtain ⟨op, -, hop⟩ := List.mem_map.1 hp
  cases op with
  | flush f =>
    simp only [decide_eq_true_eq] at hr ht
    rw [← Event.mark.inj hop]
    simp only [hr, ht]
  | _ => cases hop

theorem keptStores_subset {s : Store} {ops : List Op} : keptStores s ops ⊆ storesOf ops := by
  rw [keptStores_eq, ← arrivals_lineEvents_fst]
  exact (List.filter_sublist.map Prod.fst).subset

/-! ## The images -/

namespace WitcherCache.Refines

variable {file : BinaryFile} {cache : WitcherCache BinaryFile} {ops : List Op}

/-- All stores of the cache on top of its image: case 0. -/
theorem doStores_cells (h : Refines file cache (Buffer.empty.run (lineEvents ops)))
    (hgood : ∀ s ∈ storesOf ops, s.InLine ∧ file.InFile s) :
    doStores cache.binaryFile (cache.cells.map Cell.op) = doStores file (storesOf ops) := by
  have hall := h.doStores_lines fun _ => true
  simp only [List.filter_true] at hall
  have hsplit := doStores_append file (Buffer.empty.run (lineEvents ops)).drained
    ((Buffer.empty.run (lineEvents ops)).pending.map Prod.fst)
  rw [h.written, Option.bind_some, ← hall] at hsplit
  rw [← hsplit]
  refine doStores_congr_lines (fun s hs => h.good s (List.mem_append.1 hs)) hgood fun k => ?_
  rw [List.filter_append, drained_filter_append_pending (inOrder_lineEvents k ops),
    arrivals_lineEvents_fst]

/-- The stores of one line on top of the image: what case 1 starts from. -/
theorem doStores_line (h : Refines file cache (Buffer.empty.run (lineEvents ops)))
    (hgood : ∀ s ∈ storesOf ops, s.InLine ∧ file.InFile s) (s : Store) :
    doStores cache.binaryFile
        ((itemsAt (Buffer.empty.run (lineEvents ops)) s.line).map Prod.fst) =
      doStores file (keptStores s ops) := by
  set b := Buffer.empty.run (lineEvents ops) with hb
  have hsplit := doStores_append file b.drained ((itemsAt b s.line).map Prod.fst)
  rw [h.written, Option.bind_some] at hsplit
  rw [← hsplit]
  refine doStores_congr_lines (fun r hr => ?_) (fun r hr => hgood r (keptStores_subset hr))
    fun k => ?_
  · refine h.good r ((List.mem_append.1 hr).imp_right fun hr => ?_)
    exact (List.filter_sublist.map Prod.fst).subset hr
  · have hitems : ((itemsAt b s.line).map Prod.fst).filter (fun r => r.line = k) =
        if k = s.line then (b.pending.map Prod.fst).filter (fun r => r.line = k) else [] := by
      split
      · rename_i hk
        simp [itemsAt, List.filter_map, List.filter_filter, Function.comp_def, hk]
      · rename_i hk
        rw [List.filter_eq_nil_iff]
        intro r hr
        obtain ⟨e, he, rfl⟩ := List.mem_map.1 hr
        have hline : e.1.line = s.line := by simpa [itemsAt] using (List.mem_filter.1 he).2
        simp [hline, Ne.symm hk]
    rw [List.filter_append, hitems, keptStores_eq]
    split
    · -- in the line of the store everything is kept
      rename_i hk
      rw [drained_filter_append_pending (inOrder_lineEvents k ops), hk, List.filter_map,
        List.filter_map, List.filter_filter]
      congr 1
      refine List.filter_congr fun x _ => ?_
      by_cases hx : x.1.line = s.line <;> simp [hx]
    · -- in the other lines, what was drained
      rename_i hk
      rw [List.append_nil, drained_filter_of_inOrder (inOrder_lineEvents k ops), List.filter_map,
        List.filter_filter]
      congr 1
      refine List.filter_congr fun x _ => ?_
      by_cases hx : x.1.line = k
      · simp [hx, hk]
      · simp [hx]

end WitcherCache.Refines

namespace LSValidator

/-- **The two images of a store** are made from the trace before it, and making them
leaves the cache as it was. -/
theorem genCrashAndValidate_spec {file : BinaryFile} {cache : WitcherCache BinaryFile}
    {done : List Op}
    (h : WitcherCache.Refines file cache (Buffer.empty.run (lineEvents done)))
    (hgood : ∀ r ∈ storesOf done, r.InLine ∧ file.InFile r) {s : Store} (hs : file.InFile s) :
    ∃ cache' img0 img1, genCrashAndValidate cache s = some (cache', [⟨img0, s, 0⟩, ⟨img1, s, 1⟩]) ∧
      WitcherCache.Refines file cache' (Buffer.empty.run (lineEvents done)) ∧
      doStores file (storesOf done) = some img0 ∧
      doStores file (keptStores s done ++ [s]) = some img1 := by
  obtain ⟨img0, himg0, -⟩ := BinaryFile.doStores_spec fun r hr => (hgood r hr).2
  have hkept : ∀ r ∈ keptStores s done ++ [s], file.InFile r := by
    intro r hr
    rcases List.mem_append.1 hr with hr | hr
    · exact (hgood r (keptStores_subset hr)).2
    · rwa [List.mem_singleton.1 hr]
  obtain ⟨img1, himg1, -⟩ := BinaryFile.doStores_spec hkept
  obtain ⟨h', hline⟩ := h.getCachelineFromAddress s.address
  refine ⟨_, img0, img1, ?_, h', himg0, himg1⟩
  have hcase1 : ((itemsAt (Buffer.empty.run (lineEvents done)) s.line).map Cell.ofItem).map
      Cell.op = (itemsAt (Buffer.empty.run (lineEvents done)) s.line).map Prod.fst := by
    simp [Function.comp_def]
  rw [doStores_append, ← h'.doStores_line hgood s, ← hcase1] at himg1
  simp only [doStores_singleton] at himg1
  simp only [genCrashAndValidate, hline, h.doStores_cells hgood, himg0, Option.bind_eq_bind,
    Option.bind_some]
  obtain ⟨img, himg, hop⟩ := Option.bind_eq_some_iff.1 himg1
  have himg : doStores (cache.getCachelineFromAddress s.address).1.binaryFile
      ((WitcherCacheline.ofItems (getCachelineAddress s.address) (itemsAt (Buffer.empty.run
        (lineEvents done)) (getCachelineAddress s.address))).storesList.map Cell.op) =
        some img := himg
  rw [himg, Option.bind_some, hop]
  rfl

theorem acceptOp_spec {file : BinaryFile} {cache : WitcherCache BinaryFile} {done : List Op}
    (h : WitcherCache.Refines file cache (Buffer.empty.run (lineEvents done))) (op : Op)
    (hgood : ∀ s, op = .store s → s.InLine ∧ file.InFile s) :
    ∃ cache', acceptOp cache op = some cache' ∧
      WitcherCache.Refines file cache' (Buffer.empty.run (lineEvents (done ++ [op]))) := by
  simp only [lineEvents_append, lineEvents_cons, lineEvents_nil, Buffer.run_append_singleton]
  by_cases hb : op.isBoundary = true
  · -- at the boundary of an API call the cache itself does nothing
    have hfeed : cache.feed op = some cache ∧ op.lineEvent = .drainAll := by
      cases op with
      | apiBegin o => exact ⟨rfl, rfl⟩
      | apiEnd o => exact ⟨rfl, rfl⟩
      | _ => cases hb
    obtain ⟨cache', hcache', h'⟩ := WitcherCache.writeBackAllStores_spec h
    exact ⟨cache', by simp [acceptOp, hfeed.1, hb, hcache'], by rw [hfeed.2]; exact h'⟩
  · obtain ⟨cache', hcache', h'⟩ :=
      WitcherCache.feed_spec h (Bool.eq_false_iff.2 hb) hgood
    exact ⟨cache', by simp [acceptOp, hcache', hb], h'⟩

/-- What a call of `validate` gets, for a store that comes after the operations `before`. -/
structure Intended (file : BinaryFile) (before : List Op) (t : CrashTest) : Prop where
  case0 : t.crashInfo = 0 → doStores file (storesOf before) = some t.crashState
  case1 : t.crashInfo = 1 →
    doStores file (keptStores t.store before ++ [t.store]) = some t.crashState

/-- One step of the loop tests the store, if it is selected, with the intended images. -/
theorem crashAt_spec (v : LSValidator) {file : BinaryFile} {cache : WitcherCache BinaryFile}
    {done : List Op}
    (h : WitcherCache.Refines file cache (Buffer.empty.run (lineEvents done)))
    (hgood : ∀ r ∈ storesOf done, r.InLine ∧ file.InFile r) (op : Op)
    (hop : ∀ s, op = .store s → file.InFile s) :
    ∃ cache' tests, v.crashAt cache op = some (cache', tests) ∧
      WitcherCache.Refines file cache' (Buffer.empty.run (lineEvents done)) ∧
      (tests.map fun t => (t.store, t.crashInfo)) =
        ((storesOf [op]).filter v.selects).flatMap (fun s => [(s, 0), (s, 1)]) ∧
      ∀ t ∈ tests, op = .store t.store ∧ Intended file done t := by
  have hskip : ((storesOf [op]).filter v.selects) = [] → v.crashAt cache op = some (cache, []) →
      ∃ cache' tests, v.crashAt cache op = some (cache', tests) ∧
        WitcherCache.Refines file cache' (Buffer.empty.run (lineEvents done)) ∧
        (tests.map fun t => (t.store, t.crashInfo)) =
          ((storesOf [op]).filter v.selects).flatMap (fun s => [(s, 0), (s, 1)]) ∧
        ∀ t ∈ tests, op = .store t.store ∧ Intended file done t := by
    intro hnil hrun
    exact ⟨cache, [], hrun, h, by simp [hnil], by simp⟩
  cases op with
  | store s =>
    have hself : storesOf [.store s] = [s] := rfl
    by_cases hs : v.selects s = true
    · obtain ⟨cache', img0, img1, hrun, h', himg0, himg1⟩ :=
        genCrashAndValidate_spec h hgood (hop s rfl)
      refine ⟨cache', _, by rw [crashAt, if_pos hs, hrun], h', by simp [hself, hs], ?_⟩
      intro t ht
      simp only [List.mem_cons, List.not_mem_nil, or_false] at ht
      rcases ht with rfl | rfl
      · exact ⟨rfl, fun _ => himg0, fun hc => by cases hc⟩
      · exact ⟨rfl, fun hc => (by cases hc), fun _ => himg1⟩
    · exact hskip (by simp [hself, hs]) (by rw [crashAt, if_neg hs])
  | _ => exact hskip rfl rfl

/-- The loop: from any reachable state, the stores that are still to come and selected are
tested, in order, with the intended images. -/
theorem runOps_spec (v : LSValidator) {file : BinaryFile} {ops : List Op} :
    ∀ {cache : WitcherCache BinaryFile} {done : List Op},
      WitcherCache.Refines file cache (Buffer.empty.run (lineEvents done)) →
      (∀ s ∈ storesOf (done ++ ops), s.InLine ∧ file.InFile s) →
      (ops.map Op.id).Pairwise (· < ·) →
      ∃ tests, v.runOps cache ops = some tests ∧
        (tests.map fun t => (t.store, t.crashInfo)) =
          ((storesOf ops).filter v.selects).flatMap (fun s => [(s, 0), (s, 1)]) ∧
        ∀ t ∈ tests, ∃ u w, ops = u ++ .store t.store :: w ∧ Intended file (done ++ u) t := by
  induction ops with
  | nil => exact fun _ _ _ => ⟨[], rfl, rfl, by simp⟩
  | cons op ops ih =>
    intro cache done h hgood hids
    rw [List.map_cons, List.pairwise_cons] at hids
    by_cases hend : v.idEnd < op.id
    · -- the loop returns: no later store has an id in the range
      refine ⟨[], by rw [runOps, if_pos hend], ?_, by simp⟩
      have hnone : (storesOf (op :: ops)).filter v.selects = [] := by
        rw [List.filter_eq_nil_iff]
        intro s hs hsel
        have hle : s.id ≤ v.idEnd := by
          simp only [selects, Bool.and_eq_true, decide_eq_true_eq] at hsel
          exact hsel.1.2
        rcases List.mem_cons.1 (mem_storesOf.1 hs) with hs | hs
        · rw [← hs] at hend
          exact absurd hle (not_le.2 hend)
        · exact absurd (hend.trans (hids.1 s.id (List.mem_map.2 ⟨_, hs, rfl⟩))) (not_lt.2 hle)
      simp [hnone]
    · obtain ⟨cache₁, tests, hrun, h₁, hstores, htests⟩ :=
        crashAt_spec v h (fun r hr => hgood r (by simp [hr])) op fun s hs =>
          (hgood s (mem_storesOf.2 (by simp [hs]))).2
      obtain ⟨cache₂, haccept, h₂⟩ := acceptOp_spec h₁ op fun s hs =>
        hgood s (mem_storesOf.2 (by simp [hs]))
      obtain ⟨rest, hrest, hstores', htests'⟩ := ih h₂ (by simpa using hgood) hids.2
      refine ⟨tests ++ rest, ?_, ?_, ?_⟩
      · rw [runOps, if_neg hend]
        simp [hrun, haccept, hrest]
      · have hcons : storesOf (op :: ops) = storesOf [op] ++ storesOf ops :=
          storesOf_append [op] ops
        rw [List.map_append, hstores, hstores', hcons, List.filter_append, List.flatMap_append]
      · intro t ht
        rcases List.mem_append.1 ht with ht | ht
        · obtain ⟨hop, hint⟩ := htests t ht
          exact ⟨[], ops, by rw [hop]; rfl, by simpa using hint⟩
        · obtain ⟨u, w, hu, hint⟩ := htests' t ht
          exact ⟨op :: u, w, by rw [hu]; rfl, by simpa using hint⟩

theorem refines_nil (v : LSValidator) :
    WitcherCache.Refines (BinaryFile.zero v.pmaddr v.pmsize)
      (WitcherCache.new (BinaryFile.zero v.pmaddr v.pmsize)) (Buffer.empty.run (lineEvents [])) :=
  WitcherCache.refines_new _

/-- Which stores a run tests. -/
theorem run_tests (v : LSValidator) {ops : List Op} (hids : (ops.map Op.id).Pairwise (· < ·))
    (hgood : ∀ s ∈ storesOf ops, s.InLine ∧ (BinaryFile.zero v.pmaddr v.pmsize).InFile s) :
    ∃ tests, v.run ops = some tests ∧
      (tests.map fun t => (t.store, t.crashInfo)) =
        ((storesOf ops).filter v.selects).flatMap (fun s => [(s, 0), (s, 1)]) := by
  obtain ⟨tests, hrun, hstores, -⟩ := runOps_spec v (refines_nil v) hgood hids
  exact ⟨tests, hrun, hstores⟩

/-- **The crash images are exactly the intended ones.**  On a trace with increasing ids
whose stores lie inside their cachelines and inside the image, the validator tests exactly
the selected stores, each in both cases.  For a store that comes after the operations `before`,
the image of case 0 is the zero image with all stores of `before` applied in order, and
that of case 1 the zero image with those that are persistent or in the store's own line,
and then the store itself. -/
theorem run_images (v : LSValidator) (ops : List Op) (hids : (ops.map Op.id).Pairwise (· < ·))
    (hline : ∀ s ∈ storesOf ops, s.InLine)
    (hfile : ∀ s ∈ storesOf ops, (BinaryFile.zero v.pmaddr v.pmsize).InFile s) :
    ∃ tests, v.run ops = some tests ∧
      (tests.map fun t => (t.store, t.crashInfo)) =
        ((storesOf ops).filter v.selects).flatMap (fun s => [(s, 0), (s, 1)]) ∧
      ∀ t ∈ tests, ∀ before after, ops = before ++ .store t.store :: after →
        Intended (BinaryFile.zero v.pmaddr v.pmsize) before t := by
  obtain ⟨tests, hrun, hstores, htests⟩ := runOps_spec v (refines_nil v)
    (fun s hs => ⟨hline s hs, hfile s hs⟩) hids
  refine ⟨tests, hrun, hstores, fun t ht before after hops => ?_⟩
  obtain ⟨u, w, hu, hint⟩ := htests t ht
  -- the ids are distinct, so the store has one place in the trace
  have hnodup : ops.Nodup :=
    (hids.imp fun h => Nat.ne_of_lt h).of_map Op.id fun a b h hab => h (congrArg Op.id hab)
  obtain ⟨rfl, -⟩ := split_unique hnodup hu hops
  exact hint

/-- An API call with a store that is flushed and fenced, a store to another line, and a
store back in the first line. -/
def apiCall : List Op :=
  [.apiBegin ⟨0, 1, ['0']⟩,
    .store ⟨⟨1, 1, ['1']⟩, 0, 8, [1, 1, 1, 1, 1, 1, 1, 1], 0⟩,
    .flush ⟨⟨2, 1, ['2']⟩, 0⟩,
    .fence ⟨3, 1, ['3']⟩,
    .store ⟨⟨4, 1, ['4']⟩, 64, 8, [2, 2, 2, 2, 2, 2, 2, 2], 0⟩,
    .store ⟨⟨5, 1, ['5']⟩, 8, 4, [3, 3, 3, 3], 0⟩,
    .apiEnd ⟨6, 1, ['6']⟩]

theorem run_images_apiCall :
    ∃ tests, (LSValidator.mk 4 5 [5] 0 1).run apiCall = some tests ∧
      (tests.map fun t => (t.store, t.crashInfo)) =
        ((storesOf apiCall).filter (LSValidator.mk 4 5 [5] 0 1).selects).flatMap
          (fun s => [(s, 0), (s, 1)]) ∧
      ∀ t ∈ tests, ∀ before after, apiCall = before ++ .store t.store :: after →
        Intended (BinaryFile.zero 0 1) before t := by
  refine run_images (LSValidator.mk 4 5 [5] 0 1) apiCall (by decide) (by decide +kernel) ?_
  intro s hs
  have hbounds : s.address + s.size ≤ 128 ∧ s.valueBytes.length = s.size := by
    revert s hs
    decide +kernel
  exact BinaryFile.inFile_zero (Nat.zero_le _) (by norm_num; omega) hbounds.2

end LSValidator

end Durinn
