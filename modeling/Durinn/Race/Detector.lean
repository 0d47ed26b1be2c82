import Durinn.Lib.Runs
import Durinn.Persist.ReplayOrder
import Durinn.Trace.LpStores
import Durinn.Trace.Ranges

/-!
# The race detector: one API call

The model of `TraceChecker.init_race_op_list_per_api` of `checker/st_trace_checker.py` and of
`lib/race.py`.  The detector walks through the operations of an API call with a cache of
stores, a cache of loads and two lists of locks.  It reports a group of stores at the fence
that makes them persistent, or at the end of the call, and a group of loads at the store that
may depend on them, or at the end of a call without stores.

`raceOpsPerApi_eq` says what is reported without any of that state: at each operation,
as a function of the operations before it.
-/

namespace Durinn

open MarkBuffer

/-! ## Reports -/

/-- `RaceOp`: the addresses of a group of stores or loads, and those of some locks. -/
structure RaceOp where
  op : Op
  deps : Finset Nat
  lockSet : Finset Nat
  deriving DecidableEq

/-- The set of addresses of a list of locks. -/
def lockAddrs (locks : List Lock) : Finset Nat := (locks.map fun l => l.address).toFinset

/-- `RaceOp.__init__`, given the addresses of the operations. -/
def RaceOp.new (op : Op) (deps : List Nat) (locks : List Lock) : RaceOp :=
  ⟨op, deps.toFinset, lockAddrs locks⟩

/-- `racing`. -/
def racing (raceSt raceLd : RaceOp) : Bool :=
  0 < (raceSt.deps ∩ raceLd.deps).card && (raceSt.lockSet ∩ raceLd.lockSet).card = 0

/-! ## The walk -/

/-- The variables of `init_race_op_list_per_api`. -/
structure RaceState where
  raceStList : List RaceOp
  raceLdList : List RaceOp
  locks : List Lock
  locksAll : List Lock
  cacheSt : Cache Store
  cacheLd : Cache Load
  noStores : Bool

/-- Remove the lock acquired last among those that overlap the unlocked one. -/
def removeLock (locks : List Lock) (op : UnLock) : List Lock :=
  (locks.reverse.eraseP fun lock => rangeCmp lock op = .eq).reverse

/-- The report of a group of stores, if the group is not empty. -/
def reportStores (op : Op) (stores : List Store) (locks : List Lock) : List RaceOp :=
  if 0 < stores.length then [RaceOp.new op (stores.map fun s => s.address) locks] else []

/-- The report of a group of loads. -/
def reportLoads (op : Op) (loads : List Load) (locks : List Lock) : RaceOp :=
  RaceOp.new op (loads.map fun l => l.address) locks

namespace RaceState

/-- Before the first operation. -/
def start : RaceState := ⟨[], [], [], [], Cache.empty, Cache.empty, true⟩

/-- The loop body of `init_race_op_list_per_api`; `none` is the failed assertion that a lock is
held when one is released. -/
def step (lpStores : List Store) (st : RaceState) (op : Op) : Option RaceState :=
  match op with
  | .store s => some { st with
      raceLdList := if st.cacheLd.isEmpty then st.raceLdList
        else st.raceLdList ++ [reportLoads op st.cacheLd.getAllOps st.locksAll]
      cacheSt := st.cacheSt.acceptOp s
      cacheLd := st.cacheLd.clear
      noStores := false }
  | .load l => some { st with cacheLd := st.cacheLd.acceptOp l }
  | .flush f => some { st with
      cacheSt := st.cacheSt.acceptFlush f
      cacheLd := st.cacheLd.acceptFlush f }
  | .fence _ => some { st with
      raceStList := st.raceStList ++
        reportStores op (st.cacheSt.getFlushingOps.filter lpStores.contains) st.locks
      cacheSt := st.cacheSt.acceptFence
      cacheLd := st.cacheLd.acceptFence }
  | .lock l => some { st with locks := st.locks ++ [l], locksAll := st.locksAll ++ [l] }
  | .unlock u =>
      if st.locks.length = 0 then none else some { st with locks := removeLock st.locks u }
  | .apiBegin _ => some st
  | .apiEnd _ =>
      if st.locks.length = 0 then some { st with
        raceStList := if st.cacheSt.isEmpty then st.raceStList
          else st.raceStList ++
            reportStores op (st.cacheSt.getAllOps.filter lpStores.contains) st.locks
        raceLdList := if st.noStores then
            st.raceLdList ++ [reportLoads op st.cacheLd.getAllOps st.locksAll]
          else st.raceLdList }
      else some st

end RaceState

/-- The walk of `init_race_op_list_per_api`, for the selected stores: the reports of stores and
of loads. -/
def raceOpsPerApi (lpStores : List Store) (tracePerApi : List Op) :
    Option (List RaceOp × List RaceOp) :=
  (tracePerApi.foldlM (RaceState.step lpStores) RaceState.start).map fun st =>
    (st.raceStList, st.raceLdList)

/-! ## What is reported, from the operations alone -/

/-- The lock list after some operations. -/
def heldLocks (ops : List Op) : List Lock :=
  ops.foldl (fun locks op =>
    match op with
    | .lock l => locks ++ [l]
    | .unlock u => removeLock locks u
    | _ => locks) []

/-- All locks acquired by some operations. -/
def acquiredLocks (ops : List Op) : List Lock :=
  ops.filterMap fun op =>
    match op with
    | .lock l => some l
    | _ => none

/-- What an operation means to the cache of loads: a load arrives, a flush marks, a fence
drains, and a store clears. -/
def Op.loadEvent : Op → Event Load
  | .load l => .put l
  | .flush f => .mark fun l => f.isInFlush l
  | .fence _ => .drain
  | .store _ => .drainAll
  | _ => .idle

/-- The events of a list of operations, to the cache of loads. -/
def loadEvents (ops : List Op) : List (Event Load) := ops.map Op.loadEvent

/-- The stores that wait in the cache after some operations, and those of them that are
marked. -/
def pendingStores (ops : List Op) : Cache Store :=
  Cache.ofBuffer (Buffer.empty.run (events ops))

/-- The loads that wait in the cache after some operations. -/
def pendingLoads (ops : List Op) : Cache Load :=
  Cache.ofBuffer (Buffer.empty.run (loadEvents ops))

/-- The reports of stores that an operation makes after the operations `done`. -/
def reportsSt (lpStores : List Store) (done : List Op) (op : Op) : List RaceOp :=
  match op with
  | .fence _ =>
      reportStores op ((pendingStores done).getFlushingOps.filter lpStores.contains)
        (heldLocks done)
  | .apiEnd _ =>
      if (heldLocks done).length = 0 then
        reportStores op ((pendingStores done).getAllOps.filter lpStores.contains) (heldLocks done)
      else []
  | _ => []

/-- The reports of loads that an operation makes after the operations `done`. -/
def reportsLd (done : List Op) (op : Op) : List RaceOp :=
  match op with
  | .store _ =>
      if (pendingLoads done).isEmpty then []
      else [reportLoads op (pendingLoads done).getAllOps (acquiredLocks done)]
  | .apiEnd _ =>
      if (heldLocks done).length = 0 ∧ storesOf done = [] then
        [reportLoads op (pendingLoads done).getAllOps (acquiredLocks done)]
      else []
  | _ => []

/-- What the variables hold after the operations `done`. -/
def RaceState.after (lpStores : List Store) (done : List Op) : RaceState where
  raceStList := Runs.outputs (reportsSt lpStores) done
  raceLdList := Runs.outputs reportsLd done
  locks := heldLocks done
  locksAll := acquiredLocks done
  cacheSt := pendingStores done
  cacheLd := pendingLoads done
  noStores := decide (storesOf done = [])

theorem pendingStores_append (done : List Op) (op : Op) :
    pendingStores (done ++ [op]) =
      match op with
      | .store s => (pendingStores done).acceptOp s
      | .flush f => (pendingStores done).acceptFlush f
      | .fence _ => (pendingStores done).acceptFence
      | _ => pendingStores done := by
  simp only [pendingStores, events_append, events_singleton, Buffer.run_append_singleton]
  cases op with
  | store s => exact Cache.ofBuffer_put _ s
  | flush f => exact Cache.ofBuffer_mark _ f
  | fence b => exact Cache.ofBuffer_drain _
  | _ => rfl

theorem pendingLoads_append (done : List Op) (op : Op) :
    pendingLoads (done ++ [op]) =
      match op with
      | .load l => (pendingLoads done).acceptOp l
      | .flush f => (pendingLoads done).acceptFlush f
      | .fence _ => (pendingLoads done).acceptFence
      | .store _ => (pendingLoads done).clear
      | _ => pendingLoads done := by
  simp only [pendingLoads, loadEvents, List.map_append, List.map_cons, List.map_nil,
    Buffer.run_append_singleton]
  cases op with
  | load l => exact Cache.ofBuffer_put _ l
  | flush f => exact Cache.ofBuffer_mark _ f
  | fence b => exact Cache.ofBuffer_drain _
  | _ => rfl

theorem heldLocks_append (done : List Op) (op : Op) :
    heldLocks (done ++ [op]) =
      match op with
      | .lock l => heldLocks done ++ [l]
      | .unlock u => removeLock (heldLocks done) u
      | _ => heldLocks done := by
  simp only [heldLocks, List.foldl_append, List.foldl_cons, List.foldl_nil]

theorem acquiredLocks_append (done : List Op) (op : Op) :
    acquiredLocks (done ++ [op]) =
      match op with
      | .lock l => acquiredLocks done ++ [l]
      | _ => acquiredLocks done := by
  rw [acquiredLocks, List.filterMap_append]
  cases op with
  | lock l => rfl
  | _ => exact List.append_nil _

theorem noStores_append (done : List Op) (op : Op) :
    decide (storesOf (done ++ [op]) = []) =
      match op with
      | .store _ => false
      | _ => decide (storesOf done = []) := by
  rw [storesOf_append]
  cases op <;> simp [storesOf, Op.store?]

/-- An empty cache has nothing to report. -/
theorem reportStores_of_isEmpty {op : Op} {cache : Cache Store} {q : Store → Bool}
    {locks : List Lock} (h : cache.isEmpty = true) :
    reportStores op (cache.getAllOps.filter q) locks = [] := by
  have hnil : cache.ops = [] := List.isEmpty_iff.1 h
  simp [Cache.getAllOps, hnil, reportStores]

/-- **One operation** reports what the operations before it say, and keeps the account. -/
theorem RaceState.step_after {lpStores : List Store} {done : List Op} {st : RaceState} {op : Op}
    (hstep : (RaceState.after lpStores done).step lpStores op = some st) :
    st = RaceState.after lpStores (done ++ [op]) := by
  simp only [RaceState.after, Runs.outputs_append_singleton, heldLocks_append,
    acquiredLocks_append, pendingStores_append, pendingLoads_append, noStores_append]
  cases op with
  | store s =>
    cases hstep
    by_cases he : (pendingLoads done).isEmpty = true
    · simp [RaceState.after, reportsSt, reportsLd, he]
    · simp [RaceState.after, reportsSt, reportsLd, he]
  | apiEnd b =>
    unfold RaceState.step at hstep
    by_cases hl : (heldLocks done).length = 0
    · replace hstep := (if_pos hl).symm.trans hstep
      cases hstep
      by_cases he : (pendingStores done).isEmpty = true <;> by_cases hn : storesOf done = []
      all_goals
        simp [RaceState.after, reportsSt, reportsLd, he, hn, hl, reportStores_of_isEmpty]
    · replace hstep := (if_neg hl).symm.trans hstep
      cases hstep
      simp [RaceState.after, reportsSt, reportsLd, hl]
  | unlock u =>
    unfold RaceState.step at hstep
    by_cases hl : (heldLocks done).length = 0
    · replace hstep := (if_pos hl).symm.trans hstep
      cases hstep
    · replace hstep := (if_neg hl).symm.trans hstep
      cases hstep
      simp [RaceState.after, reportsSt, reportsLd]
  | _ =>
    cases hstep
    simp [RaceState.after, reportsSt, reportsLd]

/-- A walk that does not fail keeps the account. -/
theorem RaceState.eq_after_of_run {lpStores : List Store} {ops : List Op} {st : RaceState}
    (h : ops.foldlM (RaceState.step lpStores) RaceState.start = some st) :
    st = RaceState.after lpStores ops := by
  apply Runs.invariant (fun done st => st = RaceState.after lpStores done) rfl _ h
  intro done op s s' _ hs hstep
  subst hs
  exact RaceState.step_after hstep

/-- **The walk** reports, at each operation, what the operations before it say. -/
theorem raceOpsPerApi_eq {lpStores : List Store} {tracePerApi : List Op}
    {res : List RaceOp × List RaceOp} (h : raceOpsPerApi lpStores tracePerApi = some res) :
    res = (Runs.outputs (reportsSt lpStores) tracePerApi, Runs.outputs reportsLd tracePerApi) := by
  obtain ⟨st, hst, rfl⟩ := Option.map_eq_some_iff.1 h
  rw [RaceState.eq_after_of_run hst]
  rfl

/-- The walk reports `r`, a group of stores, at the operation `op` after the operations `p`. -/
def ReportedAt (lpStores : List Store) (p : List Op) (op : Op) (r : RaceOp) : Prop :=
  ∃ st st' new, p.foldlM (RaceState.step lpStores) RaceState.start = some st ∧
    st.step lpStores op = some st' ∧ st'.raceStList = st.raceStList ++ new ∧ r ∈ new

theorem reportedAt_iff {lpStores : List Store} {p : List Op} {op : Op} {st : RaceState}
    (hrun : (p ++ [op]).foldlM (RaceState.step lpStores) RaceState.start = some st) {r : RaceOp} :
    ReportedAt lpStores p op r ↔ r ∈ reportsSt lpStores p op := by
  have hafter := RaceState.eq_after_of_run hrun
  rw [List.foldlM_append, Option.bind_eq_bind, Option.bind_eq_some_iff] at hrun
  obtain ⟨st₀, hp, hop⟩ := hrun
  replace hop : st₀.step lpStores op = some st := by simpa using hop
  have hnew : st.raceStList = st₀.raceStList ++ reportsSt lpStores p op := by
    rw [hafter, RaceState.eq_after_of_run hp]
    exact Runs.outputs_append_singleton _ p op
  constructor
  · rintro ⟨st₁, st₂, new, hst₁, hst₂, hlist, hr⟩
    cases hp.symm.trans hst₁
    cases hop.symm.trans hst₂
    rwa [List.append_cancel_left (hnew.symm.trans hlist)]
  · intro hr
    exact ⟨_, _, _, hp, hop, hnew, hr⟩

end Durinn
