import Durinn.Race.Pairs

/-!
# The race detector for two operations

The model of `TraceChecker` of `checker/st_trace_checker_2_ops.py`, which the two-thread phase
runs on a pair of operations.  It is an older copy of the detector of
`checker/st_trace_checker.py`: it takes the addresses of the linearization points from its
caller, selects the stores of a report by address, reports even where nothing is
left to report, and insists that no lock is held at the end of a call.

* `rel_raceOpsPerApi` — the walks of both through one call, side by side: up to empty
  reports they report the same.
* `racePairs_eq` — both record the same pairs, since an empty report races with nothing.
-/

namespace Durinn

/-- `isinstance(op, APIEnd)`. -/
def Op.isApiEnd : Op → Bool
  | .apiEnd _ => true
  | _ => false

namespace TwoOps

/-! ## The checker -/

/-- The report of a group of stores, whether it is empty or not. -/
def reportStores (lps : Finset Nat) (op : Op) (stores : List Store) (locks : List Lock) : RaceOp :=
  RaceOp.new op ((stores.filter fun s => s.address ∈ lps).map fun s => s.address) locks

/-- The loop body of `init_race_op_list_per_api`; `none` is a failed assertion: a lock is
released and none is held, or one is held at the end. -/
def step (lps : Finset Nat) (st : RaceState) (op : Op) : Option RaceState :=
  match op with
  | .store s => some { st with
      raceLdList := if st.cacheLd.isEmpty then st.raceLdList
        else st.raceLdList ++ [reportLoads op st.cacheLd.getAllOps st.locksAll]
      cacheSt := st.cacheSt.acceptOp s
      cacheLd := st.cacheLd.clear
      noStores := false }
  | .load l => some { st with cacheLd := st.cacheLd.acceptOp l }
  | .flush f => some { st with
      cacheSt := st.cacheSt.acceptFlush f
      cacheLd := st.cacheLd.acceptFlush f }
  | .fence _ => some { st with
      raceStList := st.raceStList ++ [reportStores lps op st.cacheSt.getFlushingOps st.locks]
      cacheSt := st.cacheSt.acceptFence
      cacheLd := st.cacheLd.acceptFence }
  | .lock l => some { st with locks := st.locks ++ [l], locksAll := st.locksAll ++ [l] }
  | .unlock u =>
      if st.locks.length = 0 then none else some { st with locks := removeLock st.locks u }
  | .apiBegin _ => some st
  | .apiEnd _ =>
      if st.locks.length = 0 then some { st with
        raceStList := if st.cacheSt.isEmpty then st.raceStList
          else st.raceStList ++ [reportStores lps op st.cacheSt.getAllOps st.locks]
        raceLdList := if st.noStores then
            st.raceLdList ++ [reportLoads op st.cacheLd.getAllOps st.locksAll]
          else st.raceLdList }
      else none

/-- The walk of `init_race_op_list_per_api`: the reports of stores and of loads. -/
def raceOpsPerApi (lps : Finset Nat) (tracePerApi : List Op) :
    Option (List RaceOp × List RaceOp) :=
  (tracePerApi.foldlM (step lps) RaceState.start).map fun st => (st.raceStList, st.raceLdList)

/-- `TraceChecker`: its arguments. -/
structure TraceChecker where
  trace : Trace
  window : Int
  lps : Finset Nat

/-- What `TraceChecker` computes. -/
structure TraceResult where
  raceStList : List (List RaceOp)
  raceLdList : List (List RaceOp)
  racePairs : Dict (Nat × Nat) (List RacePair)

/-- Record the pairs found for a key, if there are any. -/
def TraceResult.record (res : TraceResult) (key : Nat × Nat) (pairs : List RacePair) :
    TraceResult :=
  if 0 < pairs.length then { res with racePairs := res.racePairs.set key pairs } else res

/-- `init_race_pairs_per_2_apis`; `none` is an `IndexError`. -/
def TraceResult.initRacePairsPer2Apis (res : TraceResult) (i j : Nat) : Option TraceResult := do
  let stsI ← res.raceStList[i]?
  let ldsJ ← res.raceLdList[j]?
  let pairs := stsI.flatMap fun st => (ldsJ.filter fun ld => racing st ld).map fun ld => ⟨st, ld⟩
  let res' := res.record (i, j) pairs
  let ldsI ← res.raceLdList[i]?
  let stsJ ← res.raceStList[j]?
  let pairs := ldsI.flatMap fun ld => (stsJ.filter fun st => racing st ld).map fun st => ⟨st, ld⟩
  return res'.record (j, i) pairs

namespace TraceChecker

/-- `init_race_op_list_per_api`. -/
def initRaceOpListPerApi (c : TraceChecker) (res : TraceResult) (tracePerApi : List Op) :
    Option TraceResult := do
  let (raceStList, raceLdList) ← raceOpsPerApi c.lps tracePerApi
  return { res with
    raceStList := res.raceStList ++ [raceStList]
    raceLdList := res.raceLdList ++ [raceLdList] }

/-- `init_race_op_list`. -/
def initRaceOpList (c : TraceChecker) : Option TraceResult :=
  c.trace.opsApiRanges.foldlM (fun res r => c.initRaceOpListPerApi res (c.trace.perApi r))
    ⟨[], [], Dict.empty⟩

/-- `init_race_pairs`, with its two assertions; its loops go through the calls as those of the
other detector do. -/
def initRacePairs (c : TraceChecker) (res : TraceResult) : Option TraceResult :=
  let numApis := c.trace.opsApiRanges.length
  if res.raceStList.length = numApis ∧ res.raceLdList.length = numApis then
    (apiPairs numApis c.window).foldlM (fun res p => res.initRacePairsPer2Apis p.1 p.2) res
  else none

/-- `TraceChecker.__init__`. -/
def init (c : TraceChecker) : Option TraceResult := c.initRaceOpList.bind c.initRacePairs

end TraceChecker

/-! ## One call -/

/-- The reports that are not empty. -/
def nonempty (sts : List RaceOp) : List RaceOp := sts.filter fun st => 0 < st.deps.card

theorem nonempty_append (sts sts' : List RaceOp) :
    nonempty (sts ++ sts') = nonempty sts ++ nonempty sts' :=
  List.filter_append ..

/-- Both reports of a group of stores, if the selected ones are those with an address in `lps`. -/
theorem nonempty_reportStores {lps : Finset Nat} {lpStores stores : List Store} {op : Op}
    {locks : List Lock} (h : ∀ s ∈ stores, s ∈ lpStores ↔ s.address ∈ lps) :
    nonempty [reportStores lps op stores locks] =
      Durinn.reportStores op (stores.filter lpStores.contains) locks := by
  have hfilter : (stores.filter fun s => decide (s.address ∈ lps)) =
      stores.filter lpStores.contains := by
    refine List.filter_congr fun s hs => ?_
    rw [Bool.eq_iff_iff, decide_eq_true_eq, List.contains_iff_mem]
    exact (h s hs).symm
  rw [reportStores, hfilter, Durinn.reportStores]
  cases stores.filter lpStores.contains with
  | nil => rfl
  | cons s ss =>
    have hpos : 0 < (RaceOp.new op ((s :: ss).map fun s => s.address) locks).deps.card := by
      rw [Finset.card_pos]
      exact ⟨s.address, by simp [RaceOp.new]⟩
    rw [if_pos (by simp), nonempty, List.filter_singleton, decide_eq_true hpos]
    rfl

/-- The two walks after the operations `done`: they differ in empty reports only. -/
def Alike (lpStores : List Store) (done : List Op) (st st' : RaceState) : Prop :=
  st = RaceState.after lpStores done ∧ ∃ sts, st' = { st with raceStList := sts } ∧
    st.raceStList = nonempty sts

theorem mem_storesOf_of_pending {done : List Op} {s : Store}
    (h : s ∈ (pendingStores done).getAllOps) : s ∈ storesOf done := by
  obtain ⟨u, v, rfl, -⟩ := mem_pendingStores.1 h
  exact mem_storesOf.2 (by simp)

theorem mem_storesOf_of_flushing {done : List Op} {s : Store}
    (h : s ∈ (pendingStores done).getFlushingOps) : s ∈ storesOf done := by
  obtain ⟨u, v, rfl, -⟩ := mem_flushing_pendingStores.1 h
  exact mem_storesOf.2 (by simp)

/-- **One operation** keeps the walks alike, as long as no lock is held at the end of the call. -/
theorem Alike.next {lps : Finset Nat} {lpStores : List Store} {done : List Op} {st st' : RaceState}
    {op : Op} (h : Alike lpStores done st st')
    (hlps : ∀ s ∈ storesOf done, s ∈ lpStores ↔ s.address ∈ lps)
    (hlocks : ∀ b, op = .apiEnd b → heldLocks done = []) :
    Option.Rel (Alike lpStores (done ++ [op])) (st.step lpStores op) (step lps st' op) := by
  obtain ⟨rfl, sts, rfl, hsts⟩ := h
  cases op with
  | store s => exact .some ⟨RaceState.step_after rfl, sts, rfl, hsts⟩
  | load l => exact .some ⟨RaceState.step_after rfl, sts, rfl, hsts⟩
  | flush f => exact .some ⟨RaceState.step_after rfl, sts, rfl, hsts⟩
  | lock l => exact .some ⟨RaceState.step_after rfl, sts, rfl, hsts⟩
  | apiBegin b => exact .some ⟨RaceState.step_after rfl, sts, rfl, hsts⟩
  | fence b =>
    have hreport : nonempty [reportStores lps (.fence b) (pendingStores done).getFlushingOps
        (heldLocks done)] = _ :=
      nonempty_reportStores fun s hs => hlps s (mem_storesOf_of_flushing hs)
    refine .some ⟨RaceState.step_after rfl, _, rfl, ?_⟩
    rw [nonempty_append, ← hsts]
    exact congrArg _ hreport.symm
  | unlock u =>
    by_cases hl : (heldLocks done).length = 0
    · have h₁ : (RaceState.after lpStores done).step lpStores (.unlock u) = none := if_pos hl
      have h₂ : step lps { RaceState.after lpStores done with raceStList := sts } (.unlock u) =
        none := if_pos hl
      rw [h₁, h₂]
      exact .none
    · have h₁ : (RaceState.after lpStores done).step lpStores (.unlock u) = some _ := if_neg hl
      have h₂ : step lps { RaceState.after lpStores done with raceStList := sts } (.unlock u) =
        some _ := if_neg hl
      rw [h₁, h₂]
      exact .some ⟨RaceState.step_after h₁, sts, rfl, hsts⟩
  | apiEnd b =>
    have hl : (heldLocks done).length = 0 := by rw [hlocks b rfl]; rfl
    have hreport : nonempty [reportStores lps (.apiEnd b) (pendingStores done).getAllOps
        (heldLocks done)] = _ :=
      nonempty_reportStores fun s hs => hlps s (mem_storesOf_of_pending hs)
    have h₁ : (RaceState.after lpStores done).step lpStores (.apiEnd b) = some _ := if_pos hl
    have h₂ : step lps { RaceState.after lpStores done with raceStList := sts } (.apiEnd b) =
      some _ := if_pos hl
    rw [h₁, h₂]
    refine .some ⟨RaceState.step_after h₁, _, rfl, ?_⟩
    show (if (pendingStores done).isEmpty then _ else _) =
      nonempty (if (pendingStores done).isEmpty then _ else _)
    by_cases he : (pendingStores done).isEmpty = true
    · rw [if_pos he, if_pos he]
      exact hsts
    · rw [if_neg he, if_neg he, nonempty_append, ← hsts]
      exact congrArg _ hreport.symm

/-- The list of held locks of the detectors is empty at the end of the call. -/
def NoLockAtEnd (tracePerApi : List Op) : Prop :=
  ∀ i < tracePerApi.length, tracePerApi[i]?.any Op.isApiEnd = true →
    heldLocks (tracePerApi.take i) = []

instance (tracePerApi : List Op) : Decidable (NoLockAtEnd tracePerApi) :=
  inferInstanceAs (Decidable (∀ _ < _, _ → _))

/-- **The walks through a call** fail or succeed together, and differ in empty reports only. -/
theorem rel_raceOpsPerApi {lps : Finset Nat} {tracePerApi : List Op}
    (hlocks : NoLockAtEnd tracePerApi) :
    Option.Rel (fun r r' => r.1 = nonempty r'.1 ∧ r.2 = r'.2)
      (Durinn.raceOpsPerApi (storesUsedByLoadsBeforeBr lps (storesOf tracePerApi)) tracePerApi)
      (raceOpsPerApi lps tracePerApi) := by
  have hwalk : Option.Rel
      (Alike (storesUsedByLoadsBeforeBr lps (storesOf tracePerApi)) tracePerApi)
      (tracePerApi.foldlM (RaceState.step (storesUsedByLoadsBeforeBr lps (storesOf tracePerApi)))
        RaceState.start)
      (tracePerApi.foldlM (step lps) RaceState.start) := by
    refine Runs.rel_run (Alike _) ⟨rfl, [], rfl, rfl⟩ ?_
    rintro done op st st' ⟨v, rfl⟩ h
    refine h.next ?_ ?_
    · intro s hs
      rw [storesUsedByLoadsBeforeBr, List.mem_filter, decide_eq_true_eq, storesOf_append,
        storesOf_append]
      exact and_iff_right (List.mem_append_left _ (List.mem_append_left _ hs))
    · rintro b rfl
      have hend := hlocks done.length (by simp) (by simp [Op.isApiEnd])
      rwa [List.append_assoc, List.take_left] at hend
  refine Runs.rel_map hwalk fun st st' h => ?_
  obtain ⟨-, sts, rfl, hsts⟩ := h
  exact ⟨hsts, rfl⟩

/-! ## All calls -/

/-- The results of both checkers: the same up to empty reports. -/
def Same (res : Durinn.TraceResult) (res' : TraceResult) : Prop :=
  res.raceStList = res'.raceStList.map nonempty ∧ res.raceLdList = res'.raceLdList ∧
    res.racePairs = res'.racePairs

/-- An empty report races with nothing. -/
theorem deps_pos_of_racing {st ld : RaceOp} (h : racing st ld = true) : 0 < st.deps.card := by
  obtain ⟨⟨a, ha, -⟩, -⟩ := racing_iff.1 h
  exact Finset.card_pos.2 ⟨a, ha⟩

theorem flatMap_nonempty (sts lds : List RaceOp) :
    ((nonempty sts).flatMap fun st => (lds.filter fun ld => racing st ld).map (RacePair.mk st)) =
      sts.flatMap fun st => (lds.filter fun ld => racing st ld).map (RacePair.mk st) := by
  induction sts with
  | nil => rfl
  | cons st sts ih =>
    by_cases hpos : 0 < st.deps.card
    · rw [nonempty, List.filter_cons_of_pos (by simpa using hpos), ← nonempty, List.flatMap_cons,
        List.flatMap_cons, ih]
    · have hnone : (lds.filter fun ld => racing st ld) = [] := by
        rw [List.filter_eq_nil_iff]
        exact fun ld _ h => hpos (deps_pos_of_racing h)
      rw [nonempty, List.filter_cons_of_neg (by simpa using hpos), ← nonempty, List.flatMap_cons,
        hnone, ih]
      rfl

theorem filter_nonempty (sts : List RaceOp) (ld : RaceOp) :
    ((nonempty sts).filter fun st => racing st ld) = sts.filter fun st => racing st ld := by
  rw [nonempty, List.filter_filter]
  refine List.filter_congr fun st _ => ?_
  rw [Bool.and_eq_left_iff_imp, decide_eq_true_eq]
  exact deps_pos_of_racing

theorem Same.record {res : Durinn.TraceResult} {res' : TraceResult} (h : Same res res')
    (key : Nat × Nat) (pairs : List RacePair) :
    Same (res.record key pairs) (res'.record key pairs) := by
  unfold Durinn.TraceResult.record TraceResult.record
  split
  · exact ⟨h.1, h.2.1, congrArg (fun d => d.set key pairs) h.2.2⟩
  · exact h

/-- **One pair of calls** keeps the results the same. -/
theorem Same.initRacePairsPer2Apis {res : Durinn.TraceResult} {res' : TraceResult}
    (h : Same res res') (i j : Nat) :
    Option.Rel Same (res.initRacePairsPer2Apis i j) (res'.initRacePairsPer2Apis i j) := by
  have hself : ∀ x : Option (List RaceOp), Option.Rel Eq x x := by
    intro x
    cases x with
    | none => exact .none
    | some sts => exact .some rfl
  simp only [Durinn.TraceResult.initRacePairsPer2Apis, TraceResult.initRacePairsPer2Apis, h.1,
    h.2.1, List.getElem?_map, Option.bind_eq_bind, Option.bind_map]
  refine Runs.rel_bind (hself _) ?_
  rintro stsI _ rfl
  refine Runs.rel_bind (hself _) ?_
  rintro ldsJ _ rfl
  refine Runs.rel_bind (hself _) ?_
  rintro ldsI _ rfl
  refine Runs.rel_bind (hself _) ?_
  rintro stsJ _ rfl
  refine .some ?_
  simp only [flatMap_nonempty, filter_nonempty]
  exact (h.record _ _).record _ _

/-- The stores that the other checker selects in this mode. -/
theorem selectStoresAt_eq {c : Durinn.TraceChecker} (hfree : c.lockFree = 0)
    (hbased : c.lockBased = 4) (addrs : Finset Nat) (tracePerApi : List Op) (idx : Nat) :
    c.selectStoresAt addrs tracePerApi idx =
      storesUsedByLoadsBeforeBr addrs (storesOf tracePerApi) := by
  simp [Durinn.TraceChecker.selectStoresAt, hfree, hbased, casStores]

/-- **The reports of all calls** are the same. -/
theorem rel_initRaceOpList {c : Durinn.TraceChecker} (addrs : Finset Nat) (hfree : c.lockFree = 0)
    (hbased : c.lockBased = 4)
    (hlocks : ∀ r ∈ c.trace.opsApiRanges, NoLockAtEnd (c.trace.perApi r)) :
    Option.Rel Same (c.initRaceOpList addrs)
      (TraceChecker.mk c.trace c.window addrs).initRaceOpList := by
  -- one loop counts the calls, the other does not
  have hcount : (TraceChecker.mk c.trace c.window addrs).initRaceOpList =
      c.trace.opsApiRanges.zipIdx.foldlM (fun res r =>
        (TraceChecker.mk c.trace c.window addrs).initRaceOpListPerApi res (c.trace.perApi r.1))
        ⟨[], [], Dict.empty⟩ := by
    unfold TraceChecker.initRaceOpList
    conv_lhs => rw [← List.zipIdx_map_fst 0 c.trace.opsApiRanges, List.foldlM_map]
  rw [hcount]
  refine Runs.rel_run (fun _ => Same) ⟨rfl, rfl, rfl⟩ ?_
  rintro done ⟨r, idx⟩ res res' ⟨v, hv⟩ h
  have hr : r ∈ c.trace.opsApiRanges := by
    have hmem : (r, idx) ∈ c.trace.opsApiRanges.zipIdx := by
      rw [← hv]
      simp
    exact List.fst_mem_of_mem_zipIdx hmem
  unfold Durinn.TraceChecker.initRaceOpListPerApi TraceChecker.initRaceOpListPerApi
  rw [selectStoresAt_eq hfree hbased]
  refine Runs.rel_bind (rel_raceOpsPerApi (hlocks r hr)) fun lists lists' hlists => .some ?_
  exact ⟨by simp [h.1, hlists.1], by simp [h.2.1, hlists.2], h.2.2⟩

/-- **The two detectors agree**, whatever the addresses are: if no lock is held at the end of a
call, they fail together or record the same pairs under the same keys, in the same order. -/
theorem racePairs_eq (c : Durinn.TraceChecker) (addrs : Finset Nat) (hfree : c.lockFree = 0)
    (hbased : c.lockBased = 4)
    (hlocks : ∀ r ∈ c.trace.opsApiRanges, NoLockAtEnd (c.trace.perApi r)) :
    (TraceChecker.mk c.trace c.window addrs).init.map (fun res => res.racePairs) =
      (c.initAt addrs).map fun res => res.racePairs := by
  have hrel : Option.Rel Same (c.initAt addrs) (TraceChecker.mk c.trace c.window addrs).init := by
    refine Runs.rel_bind (rel_initRaceOpList addrs hfree hbased hlocks) fun res res' h => ?_
    unfold Durinn.TraceChecker.initRacePairs TraceChecker.initRacePairs
    rw [h.1, h.2.1, List.length_map]
    simp only
    split
    · refine Runs.rel_run (fun _ => Same) h ?_
      intro done p res res' _ h
      exact h.initRacePairsPer2Apis p.1 p.2
    · exact .none
  exact (Runs.map_eq_of_rel hrel fun _ _ h => h.2.2).symm

theorem racePairs_eq_twoCalls :
    ∃ trace, Trace.extractOperations false Durinn.TraceChecker.twoCallEntries = some trace ∧
      (TraceChecker.mk trace 2 {0x100}).init.map (fun res => res.racePairs.keys) =
        some [(0, 1)] ∧
      (TraceChecker.mk trace 2 {0x100}).init.map (fun res => res.racePairs) =
        (Durinn.TraceChecker.mk trace 2 0 4 ["a.c:7".toList] []).init.map
          fun res => res.racePairs := by
  have hread : (Trace.extractOperations false Durinn.TraceChecker.twoCallEntries).isSome =
      true := by
    decide +kernel
  have hfacts : ∀ trace ∈ Trace.extractOperations false Durinn.TraceChecker.twoCallEntries,
      (TraceChecker.mk trace 2 {0x100}).init.map (fun res => res.racePairs.keys) = some [(0, 1)] ∧
        lpAddrs trace ["a.c:7".toList] = {0x100} ∧
        ∀ r ∈ trace.opsApiRanges, NoLockAtEnd (trace.perApi r) := by
    decide +kernel
  obtain ⟨trace, htrace⟩ := Option.isSome_iff_exists.1 hread
  obtain ⟨hkeys, haddrs, hlocks⟩ := hfacts trace htrace
  refine ⟨trace, htrace, hkeys, ?_⟩
  rw [Durinn.TraceChecker.init, haddrs]
  exact racePairs_eq ⟨trace, 2, 0, 4, ["a.c:7".toList], []⟩ {0x100} rfl rfl hlocks

end TwoOps

end Durinn
