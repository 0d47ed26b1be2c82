import Durinn.Race.Points

/-!
# The race detector: pairs of API calls

The model of `TraceChecker` of `checker/st_trace_checker.py`.  Every API call is walked through
once; then the reports of stores of each call are compared with the reports of loads of every
other call that is less than `window` calls away.

* `mem_racePairs_iff` — the exact meaning of `race_pairs`: the key `(a, b)` is there if and only
  if the calls `a` and `b` are different, less than the window apart, and a selected store of
  `a` races with a load of `b`, in terms of the operations of the two calls alone (`Races`).
-/

namespace Durinn

/-- `RacePair`. -/
structure RacePair where
  raceSt : RaceOp
  raceLd : RaceOp
  deriving DecidableEq

/-- `TraceChecker`: its arguments, and the two files it reads. -/
structure TraceChecker where
  trace : Trace
  window : Int
  lockFree : Nat
  lockBased : Nat
  lpSrcs : List Text
  lpTxt : Text

/-- What `TraceChecker` computes. -/
structure TraceResult where
  totalStores : Nat
  totalStoresInOp : Nat
  totalLps : Nat
  totalRacesSt : Nat
  raceStList : List (List RaceOp)
  raceLdList : List (List RaceOp)
  racePairs : Dict (Nat × Nat) (List RacePair)

/-- Record the pairs found for a key, if there are any. -/
def TraceResult.record (res : TraceResult) (key : Nat × Nat) (pairs : List RacePair) :
    TraceResult :=
  if 0 < pairs.length then
    { res with
      racePairs := res.racePairs.set key pairs
      totalRacesSt := res.totalRacesSt + pairs.length }
  else res

/-- `init_race_pairs_per_2_apis`; `none` is an `IndexError`. -/
def TraceResult.initRacePairsPer2Apis (res : TraceResult) (i j : Nat) : Option TraceResult := do
  let stsI ← res.raceStList[i]?
  let ldsJ ← res.raceLdList[j]?
  let pairs := stsI.flatMap fun st => (ldsJ.filter fun ld => racing st ld).map fun ld => ⟨st, ld⟩
  let res' := res.record (i, j) pairs
  let ldsI ← res.raceLdList[i]?
  let stsJ ← res.raceStList[j]?
  let pairs := ldsI.flatMap fun ld => (stsJ.filter fun st => racing st ld).map fun st => ⟨st, ld⟩
  return res'.record (j, i) pairs

/-- The pairs of API calls that the two loops of `init_race_pairs` go through, in order. -/
def apiPairs (numApis : Nat) (window : Int) : List (Nat × Nat) :=
  (List.range numApis).flatMap fun (i : Nat) =>
    let right := (min (numApis : Int) (i + window)).toNat
    (List.range' (i + 1) (right - (i + 1))).map fun j => (i, j)

namespace TraceChecker

/-- The stores of an API call that `init_race_op_list_per_api` selects, if `addrs` are the
`lp_addrs`. -/
def selectStoresAt (c : TraceChecker) (addrs : Finset Nat) (tracePerApi : List Op) (idx : Nat) :
    List Store :=
  let lpStores := casStores c.lockFree (storesOf tracePerApi)
  match c.lockBased with
  | 3 => storesNotInNew c.trace.allocs lpStores idx
  | 4 => storesUsedByLoadsBeforeBr addrs lpStores
  | 5 => storesMatchLps c.lpTxt lpStores
  | 6 => storesUsedByLoadsBeforeBr addrs (storesNotInNew c.trace.allocs lpStores idx)
  | _ => lpStores

/-- Those that it selects with the `lp_addrs` of the trace. -/
def selectStores (c : TraceChecker) (tracePerApi : List Op) (idx : Nat) : List Store :=
  c.selectStoresAt (lpAddrs c.trace c.lpSrcs) tracePerApi idx

/-- `init_race_op_list_per_api`. -/
def initRaceOpListPerApi (c : TraceChecker) (addrs : Finset Nat) (res : TraceResult)
    (tracePerApi : List Op) (idx : Nat) : Option TraceResult := do
  let lpStores := c.selectStoresAt addrs tracePerApi idx
  let (raceStList, raceLdList) ← raceOpsPerApi lpStores tracePerApi
  return { res with
    totalStoresInOp := res.totalStoresInOp + (storesOf tracePerApi).length
    totalLps := res.totalLps + lpStores.length
    raceStList := res.raceStList ++ [raceStList]
    raceLdList := res.raceLdList ++ [raceLdList] }

/-- The loop of `init_race_op_list`, after the compiler pass has run and `lp_addrs` are known. -/
def initRaceOpList (c : TraceChecker) (addrs : Finset Nat) : Option TraceResult :=
  c.trace.opsApiRanges.zipIdx.foldlM
    (fun res r => c.initRaceOpListPerApi addrs res (c.trace.perApi r.1) r.2)
    ⟨(storesOf c.trace.ops).length, 0, 0, 0, [], [], Dict.empty⟩

/-- `init_race_pairs`, with its two assertions. -/
def initRacePairs (c : TraceChecker) (res : TraceResult) : Option TraceResult :=
  let numApis := c.trace.opsApiRanges.length
  if res.raceStList.length = numApis ∧ res.raceLdList.length = numApis then
    (apiPairs numApis c.window).foldlM (fun res p => res.initRacePairsPer2Apis p.1 p.2) res
  else none

/-- `TraceChecker.__init__`, if `addrs` are the `lp_addrs`. -/
def initAt (c : TraceChecker) (addrs : Finset Nat) : Option TraceResult :=
  (c.initRaceOpList addrs).bind c.initRacePairs

/-- `TraceChecker.__init__`. -/
def init (c : TraceChecker) : Option TraceResult := c.initAt (lpAddrs c.trace c.lpSrcs)

end TraceChecker

/-! ## Races between two calls -/

theorem racing_iff {raceSt raceLd : RaceOp} :
    racing raceSt raceLd = true ↔
      (∃ a, a ∈ raceSt.deps ∧ a ∈ raceLd.deps) ∧ Disjoint raceSt.lockSet raceLd.lockSet := by
  simp only [racing, Bool.and_eq_true, decide_eq_true_eq, Finset.card_pos, Finset.card_eq_zero,
    Finset.disjoint_iff_inter_eq_empty]
  simp only [Finset.Nonempty, Finset.mem_inter]

/-- One of the stores `lpStores` of the first call races with a load of the second: they have
the same address, and no lock is held where the store is reported that was acquired before the
point that depends on the load. -/
def Races (lpStores : List Store) (opsSt opsLd : List Op) : Prop :=
  ∃ s l p q, s ∈ lpStores ∧ l.address = s.address ∧ ReportPoint opsSt s p ∧
    DependentPoint opsLd l q ∧ Disjoint (lockAddrs (heldLocks p)) (lockAddrs (acquiredLocks q))

theorem exists_racing_iff {lpStores : List Store} {opsSt opsLd : List Op} (hst : EndsCall opsSt)
    (hld : EndsCall opsLd) :
    (∃ st ∈ Runs.outputs (reportsSt lpStores) opsSt, ∃ ld ∈ Runs.outputs reportsLd opsLd,
      racing st ld = true) ↔ Races lpStores opsSt opsLd := by
  constructor
  · rintro ⟨st, hmemSt, ld, hmemLd, hrace⟩
    obtain ⟨⟨a, haSt, haLd⟩, hdisj⟩ := racing_iff.1 hrace
    obtain ⟨s, p, hlp, hs, hp, hlocks⟩ := (exists_report_store hst).1 ⟨st, hmemSt, haSt, rfl⟩
    obtain ⟨l, q, hl, hq, hall⟩ := (exists_report_load hld).1 ⟨ld, hmemLd, haLd, rfl⟩
    refine ⟨s, l, p, q, hlp, hl.trans hs.symm, hp, hq, ?_⟩
    rwa [hlocks, hall]
  · rintro ⟨s, l, p, q, hlp, haddr, hp, hq, hdisj⟩
    obtain ⟨st, hmemSt, haSt, hlocks⟩ := (exists_report_store hst).2 ⟨s, p, hlp, rfl, hp, rfl⟩
    obtain ⟨ld, hmemLd, haLd, hall⟩ := (exists_report_load hld).2 ⟨l, q, haddr, hq, rfl⟩
    refine ⟨st, hmemSt, ld, hmemLd, racing_iff.2 ⟨⟨s.address, haSt, haLd⟩, ?_⟩⟩
    rwa [hlocks, hall]

/-! ## The loop over the pairs -/

theorem mem_apiPairs {n i j : Nat} {window : Int} :
    (i, j) ∈ apiPairs n window ↔ i < j ∧ j < n ∧ (j : Int) - i < window := by
  simp only [apiPairs, List.mem_flatMap, List.mem_range, List.mem_map, List.mem_range'_1,
    Prod.mk.injEq]
  constructor
  · rintro ⟨k, hk, m, hm, rfl, rfl⟩
    omega
  · rintro ⟨hij, hjn, hwin⟩
    exact ⟨i, by omega, j, by omega, rfl, rfl⟩

namespace TraceResult

/-- The pair is recorded under the key. -/
def Recorded (res : TraceResult) (key : Nat × Nat) (pair : RacePair) : Prop :=
  ∃ pairs, res.racePairs.get? key = some pairs ∧ pair ∈ pairs

/-- The pair is one of reports of the calls `a` and `b` that race. -/
def RacingPair (res : TraceResult) (a b : Nat) (pair : RacePair) : Prop :=
  ∃ sts lds, res.raceStList[a]? = some sts ∧ res.raceLdList[b]? = some lds ∧
    pair.raceSt ∈ sts ∧ pair.raceLd ∈ lds ∧ racing pair.raceSt pair.raceLd = true

theorem recorded_record {res : TraceResult} {key x : Nat × Nat} {pairs : List RacePair}
    {pair : RacePair} (hold : x = key → res.Recorded x pair → pair ∈ pairs) :
    (res.record key pairs).Recorded x pair ↔ res.Recorded x pair ∨ x = key ∧ pair ∈ pairs := by
  unfold record
  split
  · by_cases hx : x = key
    · subst hx
      simp only [Recorded, Dict.get?_set_self, Option.some.injEq, exists_eq_left', true_and]
      exact ⟨Or.inr, fun h => h.elim (hold rfl) fun h => h⟩
    · simp [Recorded, Dict.get?_set_of_ne _ _ hx, hx]
  · rename_i hzero
    have hnil : pairs = [] := List.length_eq_zero_iff.1 (by omega)
    simp [hnil]

/-- A key is there if a pair is recorded under it, and only then. -/
def NoEmptyKeys (res : TraceResult) : Prop :=
  ∀ key, key ∈ res.racePairs.keys ↔ ∃ pair, res.Recorded key pair

theorem NoEmptyKeys.record {res : TraceResult} (h : res.NoEmptyKeys) (key : Nat × Nat)
    (pairs : List RacePair) : (res.record key pairs).NoEmptyKeys := by
  unfold TraceResult.record
  split
  · rename_i hpos
    intro x
    by_cases hx : x = key
    · subst hx
      have hne : ∃ pair, pair ∈ pairs := List.exists_mem_of_length_pos hpos
      simpa [Recorded, Dict.mem_keys_set, Dict.get?_set_self] using hne
    · simpa [Recorded, Dict.mem_keys_set, Dict.get?_set_of_ne _ _ hx, hx] using h x
  · exact h

theorem lists_record (res : TraceResult) (key : Nat × Nat) (pairs : List RacePair) :
    (res.record key pairs).raceStList = res.raceStList ∧
      (res.record key pairs).raceLdList = res.raceLdList := by
  unfold record
  split <;> exact ⟨rfl, rfl⟩

/-- What holds of the recorded pairs in the loops: after the pairs of calls `done`, those of the
races between them are recorded, in both directions. -/
structure Progress (res : TraceResult) (done : List (Nat × Nat)) (r : TraceResult) : Prop where
  stList : r.raceStList = res.raceStList
  ldList : r.raceLdList = res.raceLdList
  keys : r.NoEmptyKeys
  recorded : ∀ a b pair, r.Recorded (a, b) pair ↔
    ((a, b) ∈ done ∨ (b, a) ∈ done) ∧ res.RacingPair a b pair

/-- The pairs that the first loop over the reports finds. -/
theorem mem_storesFirst {res : TraceResult} {i j : Nat} {stsI ldsJ : List RaceOp}
    (hstI : res.raceStList[i]? = some stsI) (hldJ : res.raceLdList[j]? = some ldsJ)
    (pair : RacePair) :
    pair ∈ (stsI.flatMap fun st => (ldsJ.filter fun ld => racing st ld).map
      fun ld => RacePair.mk st ld) ↔ res.RacingPair i j pair := by
  obtain ⟨st, ld⟩ := pair
  simp only [RacingPair, hstI, hldJ, Option.some.injEq, List.mem_flatMap, List.mem_map,
    List.mem_filter, RacePair.mk.injEq]
  constructor
  · rintro ⟨_, hst, _, ⟨hld, hrace⟩, rfl, rfl⟩
    exact ⟨_, _, rfl, rfl, hst, hld, hrace⟩
  · rintro ⟨_, _, rfl, rfl, hst, hld, hrace⟩
    exact ⟨st, hst, ld, ⟨hld, hrace⟩, rfl, rfl⟩

/-- The pairs that the second one finds. -/
theorem mem_loadsFirst {res : TraceResult} {i j : Nat} {stsJ ldsI : List RaceOp}
    (hstJ : res.raceStList[j]? = some stsJ) (hldI : res.raceLdList[i]? = some ldsI)
    (pair : RacePair) :
    pair ∈ (ldsI.flatMap fun ld => (stsJ.filter fun st => racing st ld).map
      fun st => RacePair.mk st ld) ↔ res.RacingPair j i pair := by
  obtain ⟨st, ld⟩ := pair
  simp only [RacingPair, hstJ, hldI, Option.some.injEq, List.mem_flatMap, List.mem_map,
    List.mem_filter, RacePair.mk.injEq]
  constructor
  · rintro ⟨_, hld, _, ⟨hst, hrace⟩, rfl, rfl⟩
    exact ⟨_, _, rfl, rfl, hst, hld, hrace⟩
  · rintro ⟨_, _, rfl, rfl, hst, hld, hrace⟩
    exact ⟨ld, hld, st, ⟨hst, hrace⟩, rfl, rfl⟩

/-- **One pair of calls** adds the races between them, in both directions. -/
theorem Progress.next {res r r' : TraceResult} {done : List (Nat × Nat)} (h : res.Progress done r)
    {i j : Nat} (hstep : r.initRacePairsPer2Apis i j = some r') :
    res.Progress (done ++ [(i, j)]) r' := by
  simp only [initRacePairsPer2Apis, Option.bind_eq_bind, Option.bind_eq_some_iff, h.stList,
    h.ldList] at hstep
  obtain ⟨stsI, hstI, ldsJ, hldJ, ldsI, hldI, stsJ, hstJ, hstep⟩ := hstep
  cases hstep
  have hij := mem_storesFirst hstI hldJ
  have hji := mem_loadsFirst hstJ hldI
  refine ⟨?_, ?_, (h.keys.record _ _).record _ _, fun a b pair => ?_⟩
  · rw [(lists_record _ _ _).1, (lists_record _ _ _).1, h.stList]
  · rw [(lists_record _ _ _).2, (lists_record _ _ _).2, h.ldList]
  · have hfirst : (r.record (i, j) (stsI.flatMap fun st => (ldsJ.filter fun ld => racing st ld).map
        fun ld => ⟨st, ld⟩)).Recorded (a, b) pair ↔
          r.Recorded (a, b) pair ∨ (a, b) = (i, j) ∧ res.RacingPair a b pair := by
      rw [recorded_record, hij]
      · refine or_congr_right (and_congr_right fun hab => ?_)
        cases hab
        rfl
      · intro hab hold
        cases hab
        exact (hij pair).2 ((h.recorded _ _ _).1 hold).2
    rw [recorded_record, hji, hfirst, h.recorded]
    · simp only [List.mem_append, List.mem_singleton]
      constructor
      · rintro ((⟨hdone | hdone, hrace⟩ | ⟨hab, hrace⟩) | ⟨hab, hrace⟩)
        · exact ⟨Or.inl (Or.inl hdone), hrace⟩
        · exact ⟨Or.inr (Or.inl hdone), hrace⟩
        · exact ⟨Or.inl (Or.inr hab), hrace⟩
        · cases hab
          exact ⟨Or.inr (Or.inr rfl), hrace⟩
      · rintro ⟨(hdone | hab) | (hdone | hab), hrace⟩
        · exact Or.inl (Or.inl ⟨Or.inl hdone, hrace⟩)
        · exact Or.inl (Or.inr ⟨hab, hrace⟩)
        · exact Or.inl (Or.inl ⟨Or.inr hdone, hrace⟩)
        · cases hab
          exact Or.inr ⟨rfl, hrace⟩
    · intro hab hold
      cases hab
      rw [hji]
      rcases hfirst.1 hold with hold | ⟨-, hrace⟩
      · exact ((h.recorded _ _ _).1 hold).2
      · exact hrace

end TraceResult

namespace TraceChecker

/-- **The loops** record all races between two calls in the window. -/
theorem initRacePairs_spec {c : TraceChecker} {res res' : TraceResult}
    (h : c.initRacePairs res = some res') (hempty : res.racePairs = Dict.empty) :
    res.Progress (apiPairs c.trace.opsApiRanges.length c.window) res' := by
  simp only [initRacePairs] at h
  split at h
  · refine Runs.invariant (fun done r => res.Progress done r) ⟨rfl, rfl, ?_, ?_⟩ ?_ h
    · intro key
      simp [TraceResult.Recorded, hempty, Dict.mem_keys]
    · intro a b pair
      simp [TraceResult.Recorded, hempty]
    · rintro done ⟨i, j⟩ r r' - hr hstep
      exact hr.next hstep
  · cases h

/-- The reports of stores and of loads of the calls, in order. -/
theorem initRaceOpList_spec {c : TraceChecker} {res : TraceResult}
    (h : c.initRaceOpList (lpAddrs c.trace c.lpSrcs) = some res) :
    res.raceStList = (c.trace.opsApiRanges.zipIdx.map fun r => Runs.outputs
        (reportsSt (c.selectStores (c.trace.perApi r.1) r.2)) (c.trace.perApi r.1)) ∧
      res.raceLdList = (c.trace.opsApiRanges.zipIdx.map fun r =>
        Runs.outputs reportsLd (c.trace.perApi r.1)) ∧ res.racePairs = Dict.empty := by
  refine Runs.invariant
    (fun done r => r.raceStList = (done.map fun r => Runs.outputs
        (reportsSt (c.selectStores (c.trace.perApi r.1) r.2)) (c.trace.perApi r.1)) ∧
      r.raceLdList = (done.map fun r => Runs.outputs reportsLd (c.trace.perApi r.1)) ∧
      r.racePairs = Dict.empty) ⟨rfl, rfl, rfl⟩ ?_ h
  rintro done r res res' - ⟨hst, hld, hpairs⟩ hstep
  simp only [initRaceOpListPerApi, Option.bind_eq_bind, Option.bind_eq_some_iff] at hstep
  obtain ⟨reports, hreports, hstep⟩ := hstep
  rw [raceOpsPerApi_eq hreports] at hstep
  cases hstep
  exact ⟨by simp [hst, selectStores], by simp [hld], hpairs⟩

/-- **What is recorded**: the reports that race, of two calls in the window. -/
theorem recorded_iff {c : TraceChecker} {res : TraceResult} (hrun : c.init = some res) {a b : Nat}
    {pair : RacePair} :
    res.Recorded (a, b) pair ↔ a ≠ b ∧ |(a : Int) - b| < c.window ∧
      ∃ ra rb, c.trace.opsApiRanges[a]? = some ra ∧ c.trace.opsApiRanges[b]? = some rb ∧
        pair.raceSt ∈ Runs.outputs (reportsSt (c.selectStores (c.trace.perApi ra) a))
          (c.trace.perApi ra) ∧
        pair.raceLd ∈ Runs.outputs reportsLd (c.trace.perApi rb) ∧
        racing pair.raceSt pair.raceLd = true := by
  obtain ⟨res₀, hlists, hpairs⟩ := Option.bind_eq_some_iff.1 hrun
  obtain ⟨hst, hld, hempty⟩ := initRaceOpList_spec hlists
  have hrace : res₀.RacingPair a b pair ↔
      ∃ ra rb, c.trace.opsApiRanges[a]? = some ra ∧ c.trace.opsApiRanges[b]? = some rb ∧
        pair.raceSt ∈ Runs.outputs (reportsSt (c.selectStores (c.trace.perApi ra) a))
          (c.trace.perApi ra) ∧
        pair.raceLd ∈ Runs.outputs reportsLd (c.trace.perApi rb) ∧
        racing pair.raceSt pair.raceLd = true := by
    simp only [TraceResult.RacingPair, hst, hld, List.getElem?_map, List.getElem?_zipIdx,
      Option.map_map, Option.map_eq_some_iff]
    constructor
    · rintro ⟨_, _, ⟨ra, hra, rfl⟩, ⟨rb, hrb, rfl⟩, hpair⟩
      exact ⟨ra, rb, hra, hrb, by simpa using hpair⟩
    · rintro ⟨ra, rb, hra, hrb, hpair⟩
      exact ⟨_, _, ⟨ra, hra, rfl⟩, ⟨rb, hrb, rfl⟩, by simpa using hpair⟩
  rw [(initRacePairs_spec hpairs hempty).recorded, hrace]
  simp only [mem_apiPairs]
  constructor
  · rintro ⟨hwin, hpair⟩
    refine ⟨by omega, ?_, hpair⟩
    rw [abs_lt]
    omega
  · rintro ⟨hne, habs, ra, rb, hra, hrb, hpair⟩
    obtain ⟨ha, -⟩ := List.getElem?_eq_some_iff.1 hra
    obtain ⟨hb, -⟩ := List.getElem?_eq_some_iff.1 hrb
    rw [abs_lt] at habs
    exact ⟨by omega, ra, rb, hra, hrb, hpair⟩

theorem noEmptyKeys_init {c : TraceChecker} {res : TraceResult} (hrun : c.init = some res) :
    res.NoEmptyKeys := by
  obtain ⟨res₀, hlists, hpairs⟩ := Option.bind_eq_some_iff.1 hrun
  exact (initRacePairs_spec hpairs (initRaceOpList_spec hlists).2.2).keys

/-- The calls of a trace that was read in full end where they end. -/
theorem endsCall_of_getElem? {c : TraceChecker} {entries : List Text}
    (hread : Trace.extractOperations false entries = some c.trace) {k : Nat} {r : Nat × Nat}
    (hr : c.trace.opsApiRanges[k]? = some r) : EndsCall (c.trace.perApi r) :=
  (isApiCall_of_mem hread (List.mem_of_getElem? hr)).endsCall

/-- **What `race_pairs` means.**  On a trace that was read in full and on which no assertion
fails, `(a, b)` is a key if and only if `a` and `b` are different API calls less than `window`
apart, and a selected store of `a` races with a load of `b`. -/
theorem mem_racePairs_iff (c : TraceChecker) {entries : List Text}
    (hread : Trace.extractOperations false entries = some c.trace) {res : TraceResult}
    (hrun : c.init = some res) (a b : Nat) :
    (a, b) ∈ res.racePairs.keys ↔ a ≠ b ∧ |(a : Int) - b| < c.window ∧
      ∃ ra rb, c.trace.opsApiRanges[a]? = some ra ∧ c.trace.opsApiRanges[b]? = some rb ∧
        Races (c.selectStores (c.trace.perApi ra) a) (c.trace.perApi ra) (c.trace.perApi rb) := by
  rw [noEmptyKeys_init hrun]
  simp only [recorded_iff hrun]
  constructor
  · rintro ⟨pair, hne, hwin, ra, rb, hra, hrb, hst, hld, hrace⟩
    refine ⟨hne, hwin, ra, rb, hra, hrb, ?_⟩
    exact (exists_racing_iff (endsCall_of_getElem? hread hra) (endsCall_of_getElem? hread hrb)).1
      ⟨_, hst, _, hld, hrace⟩
  · rintro ⟨hne, hwin, ra, rb, hra, hrb, hrace⟩
    obtain ⟨st, hst, ld, hld, hracing⟩ := (exists_racing_iff (endsCall_of_getElem? hread hra)
      (endsCall_of_getElem? hread hrb)).2 hrace
    exact ⟨⟨st, ld⟩, hne, hwin, ra, rb, hra, hrb, hst, hld, hracing⟩

/-- Two calls: the first stores under a lock and flushes the store, the second
reads the same address under another lock and then stores. -/
def twoCallEntries : List Text :=
  ["APIBegin,1,put", "Lock,1,0x900,a.c:1", "Store,1,0x100,1,2a,a.c:2,0", "Flush,1,0x100,a.c:3",
    "Fence,1,a.c:4", "UnLock,1,0x900,a.c:5", "APIEnd,1,put",
    "APIBegin,1,get", "Lock,1,0x980,a.c:6", "Load,1,0x100,1,a.c:7", "Store,1,0x200,1,01,a.c:8,0",
    "UnLock,1,0x980,a.c:9", "APIEnd,1,get"].map String.toList

/-- The checker of `twoCallEntries`, with a window of two calls. -/
def twoCallChecker : Option TraceChecker :=
  (Trace.extractOperations false twoCallEntries).map fun trace => ⟨trace, 2, 0, 0, [], []⟩

theorem mem_racePairs_iff_twoCalls :
    ∃ c res, twoCallChecker = some c ∧ c.init = some res ∧ (0, 1) ∈ res.racePairs.keys ∧
      ((0, 1) ∈ res.racePairs.keys ↔ (0 : Nat) ≠ 1 ∧ |((0 : Nat) : Int) - (1 : Nat)| < c.window ∧
        ∃ ra rb, c.trace.opsApiRanges[0]? = some ra ∧ c.trace.opsApiRanges[1]? = some rb ∧
          Races (c.selectStores (c.trace.perApi ra) 0) (c.trace.perApi ra)
            (c.trace.perApi rb)) := by
  have hrun : (twoCallChecker.bind fun c => c.init.map fun res => (c, res)).isSome ∧
      ∀ x ∈ twoCallChecker.bind (fun c => c.init.map fun res => (c, res)),
        (0, 1) ∈ x.2.racePairs.keys := by decide +kernel
  obtain ⟨⟨c, res⟩, hx⟩ := Option.isSome_iff_exists.1 hrun.1
  have hkey := hrun.2 _ hx
  obtain ⟨c', hc, hres⟩ := Option.bind_eq_some_iff.1 hx
  obtain ⟨res', hinit, heq⟩ := Option.map_eq_some_iff.1 hres
  cases heq
  obtain ⟨trace, htrace, rfl⟩ := Option.map_eq_some_iff.1 hc
  exact ⟨_, res, hc, hinit, hkey, mem_racePairs_iff _ htrace hinit 0 1⟩

end TraceChecker

end Durinn
