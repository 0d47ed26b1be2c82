import Durinn.LastStore.Validator
import Durinn.Trace.LpStores

/-!
# Cutting the last-store work into jobs

The model of `checker/ls_trace_checker.py`.  For every API call `LSChecker` selects the
stores to test, cuts their list into batches of `Threshold`, writes the ids of each
batch to a file, and appends a job for it; a `LSValidator` is then started for each job.

* `initJobsPerApi_lossless_iff` — no selected store is lost or tested twice if and only if
  fewer than `Threshold` stores were selected.  The loop over the full batches ends
  one batch too early, and the last batch starts one batch too late
  (`initJobsPerApi_threshold`).
-/

namespace Durinn

/-- `Threshold`. -/
def threshold : Nat := 10000

/-- A job `[idx, id_start, id_end]`; the file with its ids is named after it. -/
structure Job where
  idx : Nat
  idStart : Nat
  idEnd : Nat
  deriving DecidableEq, Repr

/-- `LSChecker`: its arguments, and the two files it reads. -/
structure LSChecker where
  trace : Trace
  lockFree : Nat
  lockBased : Nat
  lpSrcs : List Text
  lpTxt : Text

/-- What `LSChecker` computes: its results, its jobs, and the files it writes, in order. -/
structure LSResult where
  totalStoresInOp : Nat
  totalLps : Nat
  storeList : List Nat
  jobs : List Job
  files : List (Job × List Nat)

namespace LSChecker

/-! ## Selecting stores -/

/-- The loop of `stores_after_fence`, where `lastFence` says that a fence was seen. -/
def storesAfterFence (lastFence : Bool) : List Op → List Store
  | [] => []
  | .store s :: ops =>
      if lastFence then s :: storesAfterFence false ops else storesAfterFence lastFence ops
  | .fence _ :: ops => storesAfterFence true ops
  | _ :: ops => storesAfterFence lastFence ops

/-- `stores_used_by_loads`. -/
def storesUsedByLoads (c : LSChecker) (stores : List Store) : List Store :=
  stores.filter fun s => s.address ∈ c.trace.loadAddrs

/-- The stores of an API call that `init_jobs_per_api` selects. -/
def selectStores (c : LSChecker) (tracePerApi : List Op) (idx : Nat) : List Store :=
  let stores := casStores c.lockFree (storesOf tracePerApi)
  let addrs := lpAddrs c.trace c.lpSrcs
  match c.lockBased with
  | 1 => storesAfterFence false tracePerApi
  | 2 => c.storesUsedByLoads stores
  | 3 => storesNotInNew c.trace.allocs stores idx
  | 4 => storesUsedByLoadsBeforeBr addrs stores
  | 5 => storesMatchLps c.lpTxt stores
  | 6 => storesUsedByLoadsBeforeBr addrs (storesNotInNew c.trace.allocs stores idx)
  | _ => stores

theorem storesAfterFence_sublist (lastFence : Bool) (ops : List Op) :
    (storesAfterFence lastFence ops).Sublist (storesOf ops) := by
  induction ops generalizing lastFence with
  | nil => exact List.Sublist.refl []
  | cons op ops ih =>
    cases op with
    | store s =>
      rw [storesAfterFence]
      split
      · exact (ih false).cons_cons s
      · exact (ih lastFence).cons s
    | fence b => exact ih true
    | _ => exact ih lastFence

/-- Whatever the mode, the selected stores are stores of the API call, in order. -/
theorem selectStores_sublist (c : LSChecker) (tracePerApi : List Op) (idx : Nat) :
    (c.selectStores tracePerApi idx).Sublist (storesOf tracePerApi) := by
  have hcas : (casStores c.lockFree (storesOf tracePerApi)).Sublist (storesOf tracePerApi) :=
    casStores_sublist c.lockFree
  unfold selectStores
  split
  · exact storesAfterFence_sublist false tracePerApi
  · exact List.filter_sublist.trans hcas
  · exact (storesNotInNew_sublist _ _).trans hcas
  · exact (storesUsedByLoadsBeforeBr_sublist _).trans hcas
  · exact (storesMatchLps_sublist _).trans hcas
  · exact (storesUsedByLoadsBeforeBr_sublist _).trans ((storesNotInNew_sublist _ _).trans hcas)
  · exact hcas

/-! ## Batches -/

/-- The body of the loop over the full batches; `none` is an `IndexError`. -/
def fullBatch (stores : List Store) (idx i : Nat) : Option (Job × List Nat) := do
  let first ← stores[(i - 1) * threshold]?
  let last ← stores[i * threshold - 1]?
  return (⟨idx, first.id, last.id⟩,
    ((stores.drop ((i - 1) * threshold)).take threshold).map fun s => s.id)

/-- The last batch. -/
def lastBatch (stores : List Store) (idx i : Nat) : Option (Job × List Nat) := do
  let first ← stores[i * threshold]?
  let last ← stores.getLast?
  return (⟨idx, first.id, last.id⟩, (stores.drop (i * threshold)).map fun s => s.id)

/-- The jobs of a non-empty list of stores, each with the ids written for it. -/
def batches (stores : List Store) (idx : Nat) : Option (List (Job × List Nat)) := do
  let n := FloatDiv.truncTrueDiv stores.length threshold
  let full ← (List.range' 1 (n - 1)).mapM (fullBatch stores idx)
  let last ← lastBatch stores idx n
  return full ++ [last]

/-- `LSChecker.init_jobs_per_api`. -/
def initJobsPerApi (c : LSChecker) (res : LSResult) (tracePerApi : List Op) (idx : Nat) :
    Option LSResult :=
  let stores := c.selectStores tracePerApi idx
  let res := { res with
    totalStoresInOp := res.totalStoresInOp + (storesOf tracePerApi).length
    storeList := res.storeList ++ [stores.length] }
  if stores.length = 0 then some res
  else (batches stores idx).map fun bs =>
    { res with
      totalLps := res.totalLps + stores.length
      jobs := res.jobs ++ bs.map Prod.fst
      files := res.files ++ bs }

/-- `LSChecker.init_jobs`, after the compiler pass has run. -/
def initJobs (c : LSChecker) : Option LSResult :=
  c.trace.opsApiRanges.zipIdx.foldlM
    (fun res r => c.initJobsPerApi res (c.trace.perApi r.1) r.2) ⟨0, 0, [], [], []⟩

end LSChecker

/-- The validator that is started for a job: it loads the ids last written for it. -/
def Job.validator (files : List (Job × List Nat)) (pmaddr pmsize : Nat) (job : Job) :
    Option LSValidator :=
  (files.reverse.lookup job).map fun crashes => ⟨job.idStart, job.idEnd, crashes, pmaddr, pmsize⟩

/-- Run the jobs, one after the other. -/
def runJobs (files : List (Job × List Nat)) (pmaddr pmsize : Nat) (ops : List Op)
    (jobs : List Job) : Option (List CrashTest) :=
  (jobs.mapM fun job : Job => (job.validator files pmaddr pmsize).bind fun v => v.run ops).map
    List.flatten

/-! ## When nothing is lost -/

namespace LSChecker

/-- Below the threshold there is one batch, with everything. -/
theorem batches_of_lt {stores : List Store} {idx : Nat} (hlt : stores.length < threshold)
    {first last : Store} (hfirst : stores[0]? = some first) (hlast : stores.getLast? = some last) :
    batches stores idx = some [(⟨idx, first.id, last.id⟩, stores.map fun s => s.id)] := by
  have hzero : FloatDiv.truncTrueDiv stores.length threshold = 0 :=
    (FloatDiv.truncTrueDiv_eq_zero_iff (by decide) (by decide)).2 hlt
  simp [batches, hzero, lastBatch, hfirst, hlast]

/-- At the threshold there is no store for the last batch to start with. -/
theorem batches_of_eq {stores : List Store} {idx : Nat} (hlen : stores.length = threshold)
    (hone : FloatDiv.truncTrueDiv stores.length threshold = 1) : batches stores idx = none := by
  have hnone : stores[1 * threshold]? = none := by
    rw [List.getElem?_eq_none_iff, hlen, Nat.one_mul]
  simp only [batches, hone, lastBatch, hnone]
  rfl

theorem length_fullBatches {stores : List Store} {idx : Nat} :
    ∀ {is : List Nat} {bs : List (Job × List Nat)}, (∀ i ∈ is, 1 ≤ i) →
      is.mapM (fullBatch stores idx) = some bs →
      (bs.flatMap Prod.snd).length = is.length * threshold := by
  intro is
  induction is with
  | nil =>
    intro bs _ h
    cases h
    rfl
  | cons i is ih =>
    intro bs hpos h
    simp only [List.mapM_cons, Option.bind_eq_bind, Option.bind_eq_some_iff] at h
    obtain ⟨b, hb, bs', hbs', h⟩ := h
    cases h
    have hrest := ih (fun j hj => hpos j (List.mem_cons_of_mem _ hj)) hbs'
    have hi := hpos i (by simp)
    simp only [fullBatch, Option.bind_eq_bind, Option.bind_eq_some_iff] at hb
    obtain ⟨first, -, last, hlast, hb⟩ := hb
    cases hb
    obtain ⟨hle, -⟩ := List.getElem?_eq_some_iff.1 hlast
    -- the last store of the batch exists, so the slice is full
    obtain ⟨j, rfl⟩ : ∃ j, i = j + 1 := ⟨i - 1, by omega⟩
    simp only [List.flatMap_cons, List.length_append, hrest, List.length_map, List.length_take,
      List.length_drop, List.length_cons, Nat.add_sub_cancel]
    have hpos : 0 < threshold := by decide
    generalize threshold = t at *
    rw [Nat.succ_mul] at hle ⊢
    omega

/-- From the threshold on, one batch is missing. -/
theorem length_batches_of_le {stores : List Store} {idx : Nat} {bs : List (Job × List Nat)}
    (hle : threshold ≤ stores.length) (h : batches stores idx = some bs) :
    (bs.flatMap Prod.snd).length + threshold = stores.length := by
  have hn : FloatDiv.truncTrueDiv stores.length threshold ≠ 0 := fun h0 =>
    absurd ((FloatDiv.truncTrueDiv_eq_zero_iff (by decide) (by decide)).1 h0) (not_lt.2 hle)
  simp only [batches, Option.bind_eq_bind, Option.bind_eq_some_iff] at h
  obtain ⟨full, hfull, b, hb, h⟩ := h
  cases h
  generalize FloatDiv.truncTrueDiv stores.length threshold = n at *
  have hlen := length_fullBatches (fun i hi => (List.mem_range'_1.1 hi).1) hfull
  simp only [lastBatch, Option.bind_eq_bind, Option.bind_eq_some_iff] at hb
  obtain ⟨first, hfirst, last, -, hb⟩ := hb
  cases hb
  obtain ⟨hlt, -⟩ := List.getElem?_eq_some_iff.1 hfirst
  obtain ⟨m, rfl⟩ : ∃ m, n = m + 1 := ⟨n - 1, by omega⟩
  simp only [List.flatMap_append, List.length_append, hlen, List.length_range', Nat.add_sub_cancel,
    List.flatMap_cons, List.flatMap_nil, List.append_nil, List.length_map, List.length_drop]
  generalize threshold = t at *
  rw [Nat.succ_mul] at hlt ⊢
  omega

end LSChecker

/-- Picking by id from a list with distinct ids gives back the sublist the ids came from. -/
theorem filter_id_mem {ss ts : List Store} (h : ss.Sublist ts)
    (hids : (ts.map fun s => s.id).Nodup) :
    (ts.filter fun s => (ss.map fun s => s.id).contains s.id) = ss := by
  induction h with
  | slnil => rfl
  | @cons ss ts t h ih =>
    rw [List.map_cons, List.nodup_cons] at hids
    have hnot : t.id ∉ ss.map fun s => s.id := fun hmem => hids.1 ((h.map _).subset hmem)
    rw [List.filter_cons_of_neg (by simpa using hnot)]
    exact ih hids.2
  | @cons_cons ss ts t h ih =>
    rw [List.map_cons, List.nodup_cons] at hids
    rw [List.filter_cons_of_pos (by simp)]
    congr 1
    rw [← ih hids.2]
    refine List.filter_congr fun s hs => ?_
    have hne : s.id ≠ t.id := fun hc => hids.1 (hc ▸ List.mem_map_of_mem hs)
    rw [ih hids.2]
    simp [hne]

namespace LSChecker

/-- What cutting the work of an API call into jobs is meant to do: it raises no exception, the
batches are the selected ids, in order, and running the jobs tests the selected stores, each
once in both cases, and nothing else. -/
def Lossless (c : LSChecker) (pmaddr pmsize : Nat) (res : LSResult) (tracePerApi : List Op)
    (idx : Nat) : Prop :=
  ∃ res' bs tests, c.initJobsPerApi res tracePerApi idx = some res' ∧
    res'.jobs = res.jobs ++ bs.map Prod.fst ∧ res'.files = res.files ++ bs ∧
    bs.flatMap Prod.snd = (c.selectStores tracePerApi idx).map (fun s => s.id) ∧
    runJobs res'.files pmaddr pmsize c.trace.ops (bs.map Prod.fst) = some tests ∧
    (tests.map fun t => (t.store, t.crashInfo)) =
      (c.selectStores tracePerApi idx).flatMap fun s => [(s, 0), (s, 1)]

/-- The ids of a sublist of increasing ids lie between its first and its last. -/
theorem id_mem_range {ss : List Store} (hids : (ss.map fun s => s.id).Pairwise (· < ·))
    {first last : Store} (hfirst : ss[0]? = some first) (hlast : ss.getLast? = some last) :
    ∀ s ∈ ss, first.id ≤ s.id ∧ s.id ≤ last.id := by
  intro s hs
  constructor
  · cases ss with
    | nil => cases hfirst
    | cons t ss =>
      cases hfirst
      rw [List.map_cons, List.pairwise_cons] at hids
      rcases List.mem_cons.1 hs with rfl | hs
      · exact le_rfl
      · exact (hids.1 _ (List.mem_map_of_mem hs)).le
  · obtain ⟨ts, rfl⟩ := List.getLast?_eq_some_iff.1 hlast
    rw [List.map_append, List.pairwise_append] at hids
    rcases List.mem_append.1 hs with hs | hs
    · exact (hids.2.2 _ (List.mem_map_of_mem hs) last.id (by simp)).le
    · rw [List.mem_singleton.1 hs]

/-- A job over all selected stores tests exactly these. -/
theorem filter_selects {ss ts : List Store} (hsub : ss.Sublist ts)
    (hids : (ts.map fun s => s.id).Pairwise (· < ·)) {first last : Store}
    (hfirst : ss[0]? = some first) (hlast : ss.getLast? = some last) (pmaddr pmsize : Nat) :
    ts.filter (LSValidator.mk first.id last.id (ss.map fun s => s.id) pmaddr pmsize).selects =
      ss := by
  have hnodup : (ts.map fun s => s.id).Nodup := hids.imp fun h => Nat.ne_of_lt h
  have hrange := id_mem_range (hids.sublist (hsub.map _)) hfirst hlast
  have hpick := filter_id_mem hsub hnodup
  rw [← hpick]
  refine List.filter_congr fun s hs => ?_
  rw [hpick]
  simp only [LSValidator.selects]
  by_cases hmem : s.id ∈ ss.map fun s => s.id
  · obtain ⟨r, hr, hid⟩ := List.mem_map.1 hmem
    have hr' := hrange r hr
    rw [hid] at hr'
    simp [hr']
  · have hc : (ss.map fun s => s.id).contains s.id = false := by simpa using hmem
    simp only [hc, Bool.and_false]

theorem map_id_storesOf (ops : List Op) :
    ((storesOf ops).map fun s => s.id).Sublist (ops.map Op.id) := by
  induction ops with
  | nil => exact List.Sublist.refl []
  | cons op ops ih =>
    cases op with
    | store s => exact ih.cons_cons s.id
    | _ => exact ih.cons _

/-- **When no store is lost.**  Cutting the work of an API call into jobs does what it is meant
to do if and only if fewer than `Threshold` stores were selected. -/
theorem initJobsPerApi_lossless_iff (c : LSChecker) (pmaddr pmsize : Nat) (res : LSResult)
    {before tracePerApi after : List Op} (idx : Nat)
    (hops : c.trace.ops = before ++ tracePerApi ++ after)
    (hids : (c.trace.ops.map Op.id).Pairwise (· < ·))
    (hline : ∀ s ∈ storesOf c.trace.ops, s.InLine)
    (hfile : ∀ s ∈ storesOf c.trace.ops, (BinaryFile.zero pmaddr pmsize).InFile s) :
    c.Lossless pmaddr pmsize res tracePerApi idx ↔
      (c.selectStores tracePerApi idx).length < threshold := by
  constructor
  · rintro ⟨res', bs, tests, hrun, -, hfiles, hbatches, -⟩
    by_contra hnot
    have hle := not_lt.1 hnot
    have hpos : 0 < threshold := by decide
    have hne : (c.selectStores tracePerApi idx).length ≠ 0 := by omega
    simp only [initJobsPerApi, if_neg hne, Option.map_eq_some_iff] at hrun
    obtain ⟨bs', hbs', rfl⟩ := hrun
    have hlen := length_batches_of_le hle hbs'
    rw [List.append_cancel_left hfiles, hbatches, List.length_map] at hlen
    omega
  · intro hlt
    have hsub : (c.selectStores tracePerApi idx).Sublist (storesOf c.trace.ops) := by
      refine (c.selectStores_sublist tracePerApi idx).trans ?_
      rw [hops, storesOf_append, storesOf_append]
      exact (List.sublist_append_right _ _).trans (List.sublist_append_left _ _)
    by_cases hzero : (c.selectStores tracePerApi idx).length = 0
    · have hnil := List.length_eq_zero_iff.1 hzero
      refine ⟨_, [], [], by rw [initJobsPerApi, if_pos hzero], ?_⟩
      simp [hnil, runJobs]
    · obtain ⟨first, hfirst⟩ : ∃ first, (c.selectStores tracePerApi idx)[0]? = some first :=
        ⟨_, List.getElem?_eq_getElem (Nat.pos_of_ne_zero hzero)⟩
      obtain ⟨last, hlast⟩ : ∃ last, (c.selectStores tracePerApi idx).getLast? = some last :=
        ⟨_, List.getLast?_eq_some_getLast (List.ne_nil_of_length_pos (Nat.pos_of_ne_zero hzero))⟩
      have hbs : batches (c.selectStores tracePerApi idx) idx = some [(⟨idx, first.id, last.id⟩,
          (c.selectStores tracePerApi idx).map fun s => s.id)] := batches_of_lt hlt hfirst hlast
      obtain ⟨tests, hrun, htests⟩ := LSValidator.run_tests
        ⟨first.id, last.id, (c.selectStores tracePerApi idx).map fun s => s.id, pmaddr, pmsize⟩
        hids fun s hs => ⟨hline s hs, hfile s hs⟩
      rw [filter_selects hsub (hids.sublist (map_id_storesOf _)) hfirst hlast] at htests
      refine ⟨_, _, tests, by rw [initJobsPerApi, if_neg hzero, hbs]; rfl, rfl, rfl, by simp, ?_,
        htests⟩
      simp [runJobs, Job.validator, hrun]

/-- A checker that selects all stores of a trace that is one API call. -/
def selectAll (ops : List Op) : LSChecker :=
  ⟨⟨ops, [(0, ops.length - 1)], ∅, Dict.empty, Dict.empty, ∅⟩, 0, 0, [], []⟩

theorem selectStores_selectAll (ops tracePerApi : List Op) (idx : Nat) :
    (selectAll ops).selectStores tracePerApi idx = storesOf tracePerApi := rfl

theorem initJobsPerApi_lossless_iff_apiCall :
    (selectAll LSValidator.apiCall).Lossless 0 1 ⟨0, 0, [], [], []⟩ LSValidator.apiCall 0 ↔
      ((selectAll LSValidator.apiCall).selectStores LSValidator.apiCall 0).length < threshold := by
  have hops : (selectAll LSValidator.apiCall).trace.ops = [] ++ LSValidator.apiCall ++ [] :=
    (List.append_nil _).symm
  refine initJobsPerApi_lossless_iff (selectAll LSValidator.apiCall) 0 1 ⟨0, 0, [], [], []⟩
    0 hops (by decide) (by decide +kernel) ?_
  intro s hs
  have hbounds : s.address + s.size ≤ 128 ∧ s.valueBytes.length = s.size := by
    revert s hs
    decide +kernel
  exact BinaryFile.inFile_zero (Nat.zero_le _) (by norm_num; omega) hbounds.2

/-- As many stores as the threshold, all to the same place. -/
def thresholdStores : List Op :=
  (List.range threshold).map fun i => .store ⟨⟨i, 1, ['1']⟩, 0, 1, [0], 0⟩

/-- With exactly `Threshold` stores the last batch is looked for behind the end of the list,
and an `IndexError` is raised. -/
theorem initJobsPerApi_threshold :
    (thresholdStores.map Op.id).Pairwise (· < ·) ∧
      (∀ s ∈ storesOf thresholdStores, s.InLine ∧ (BinaryFile.zero 0 1).InFile s) ∧
      (selectAll thresholdStores).initJobsPerApi ⟨0, 0, [], [], []⟩ thresholdStores 0 = none := by
  have hstores : storesOf thresholdStores = (List.range threshold).map fun i =>
      (⟨⟨i, 1, ['1']⟩, 0, 1, [0], 0⟩ : Store) := by
    simp [thresholdStores, storesOf, Op.store?, List.filterMap_map, Function.comp_def]
  refine ⟨?_, ?_, ?_⟩
  · rw [thresholdStores, List.map_map, List.pairwise_map]
    exact List.pairwise_lt_range.imp fun h => h
  · intro s hs
    rw [hstores] at hs
    obtain ⟨i, -, rfl⟩ := List.mem_map.1 hs
    have hline : Store.InLine ⟨⟨0, 1, ['1']⟩, 0, 1, [0], 0⟩ := by decide +kernel
    exact ⟨hline, BinaryFile.inFile_zero (Nat.zero_le _) (by norm_num) rfl⟩
  · have hlen : (storesOf thresholdStores).length = threshold := by simp [hstores]
    have hone : FloatDiv.truncTrueDiv threshold threshold = 1 := by decide +kernel
    have hbatches : batches (storesOf thresholdStores) 0 = none :=
      batches_of_eq hlen (by rw [hlen]; exact hone)
    have hne : (storesOf thresholdStores).length ≠ 0 := by
      rw [hlen]
      decide
    rw [← selectStores_selectAll thresholdStores thresholdStores 0] at hbatches hne
    rw [initJobsPerApi, if_neg hne, hbatches, Option.map_none]

end LSChecker

end Durinn
