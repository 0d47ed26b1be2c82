import Durinn.LastStore.Jobs
import Durinn.Trace.Indices

/-!
# The last-store phase as a whole

`main_last_store.py` lets `LSChecker` select the stores of all API calls of a trace and cut the work
into jobs, and starts a validator for each job.

* `initJobs_eq` — the results, the jobs and the files, if every API call has fewer than `Threshold`
  selected stores: each call with selected stores has one job.
* `run_job` — what the validator of a job tests.
* `initJobs_tests` — all jobs together test the selected stores of all calls, each in both cases,
  with the images that the trace up to the store gives.
-/

namespace Durinn

/-! ## What is to be tested -/

/-- The image of a crash at the store: with all stores before it, or with those that are certainly
persistent, those in its line, and itself. -/
def crashImage (pmaddr pmsize : Nat) (ops : List Op) (s : Store) (crashInfo : Nat) :
    Option BinaryFile :=
  if crashInfo = 0 then doStores (BinaryFile.zero pmaddr pmsize) (storesOf (ops.take s.id))
  else doStores (BinaryFile.zero pmaddr pmsize) (keptStores s (ops.take s.id) ++ [s])

/-- The test of a store in one of the two cases. -/
def crashTest (pmaddr pmsize : Nat) (ops : List Op) (x : Store × Nat) : Option CrashTest :=
  (crashImage pmaddr pmsize ops x.1 x.2).map fun img => ⟨img, x.1, x.2⟩

/-- The stores, each in both cases. -/
def bothCases (stores : List Store) : List (Store × Nat) :=
  stores.flatMap fun s => [(s, 0), (s, 1)]

namespace LSChecker

variable (c : LSChecker)

/-- The selected stores of an API call, which is given with its index. -/
def selected (x : (Nat × Nat) × Nat) : List Store := c.selectStores (c.trace.perApi x.1) x.2

/-- The selected stores of all API calls. -/
def lpStores : List Store := c.trace.opsApiRanges.zipIdx.flatMap c.selected

/-- The stores of all API calls. -/
def storesInOp : List Store := c.trace.opsApiRanges.flatMap fun r => storesOf (c.trace.perApi r)

/-- The job of an API call with fewer stores than the threshold, and the ids written for it. -/
def jobOf (x : (Nat × Nat) × Nat) : Option (Job × List Nat) := do
  let first ← (c.selected x)[0]?
  let last ← (c.selected x).getLast?
  return (⟨x.2, first.id, last.id⟩, (c.selected x).map fun s => s.id)

/-- The tests of an API call. -/
def testsOf (pmaddr pmsize : Nat) (x : (Nat × Nat) × Nat) : List CrashTest :=
  (bothCases (c.selected x)).filterMap (crashTest pmaddr pmsize c.trace.ops)

/-- Every API call has fewer selected stores than the threshold. -/
def BelowThreshold : Prop :=
  ∀ x ∈ c.trace.opsApiRanges.zipIdx, (c.selected x).length < threshold

/-- What `LSChecker` computes for some API calls, each with one job. -/
def resultOf (xs : List ((Nat × Nat) × Nat)) : LSResult where
  totalStoresInOp := (xs.map fun x => (storesOf (c.trace.perApi x.1)).length).sum
  totalLps := (xs.map fun x => (c.selected x).length).sum
  storeList := xs.map fun x => (c.selected x).length
  jobs := (xs.filterMap c.jobOf).map Prod.fst
  files := xs.filterMap c.jobOf

variable {c}

theorem jobOf_eq_none {x : (Nat × Nat) × Nat} (h : (c.selected x).length = 0) :
    c.jobOf x = none := by
  rw [List.length_eq_zero_iff] at h
  simp [jobOf, h]

theorem jobOf_eq_some {x : (Nat × Nat) × Nat} (h : (c.selected x).length ≠ 0) :
    ∃ first last, (c.selected x)[0]? = some first ∧ (c.selected x).getLast? = some last ∧
      c.jobOf x = some (⟨x.2, first.id, last.id⟩, (c.selected x).map fun s => s.id) := by
  obtain ⟨first, hfirst⟩ : ∃ first, (c.selected x)[0]? = some first :=
    ⟨_, List.getElem?_eq_getElem (Nat.pos_of_ne_zero h)⟩
  obtain ⟨last, hlast⟩ : ∃ last, (c.selected x).getLast? = some last :=
    ⟨_, List.getLast?_eq_some_getLast (List.ne_nil_of_length_pos (Nat.pos_of_ne_zero h))⟩
  exact ⟨first, last, hfirst, hlast, by simp [jobOf, hfirst, hlast]⟩

/-- **One API call.** -/
theorem initJobsPerApi_resultOf {xs : List ((Nat × Nat) × Nat)} {x : (Nat × Nat) × Nat}
    (hlt : (c.selected x).length < threshold) :
    c.initJobsPerApi (c.resultOf xs) (c.trace.perApi x.1) x.2 = some (c.resultOf (xs ++ [x])) := by
  unfold initJobsPerApi
  by_cases hzero : (c.selected x).length = 0
  · refine (if_pos hzero).trans ?_
    have hzero' : (c.selectStores (c.trace.perApi x.1) x.2).length = 0 := hzero
    simp [resultOf, jobOf_eq_none hzero, hzero, hzero']
  · obtain ⟨first, last, hfirst, hlast, hjob⟩ := jobOf_eq_some hzero
    have hbatches : batches (c.selectStores (c.trace.perApi x.1) x.2) x.2 = some
        [(⟨x.2, first.id, last.id⟩, (c.selected x).map fun s => s.id)] :=
      batches_of_lt hlt hfirst hlast
    refine (if_neg hzero).trans ?_
    rw [hbatches, Option.map_some]
    simp [resultOf, hjob, selected]

/-- **The jobs of a trace.** -/
theorem initJobs_eq (h : c.BelowThreshold) :
    c.initJobs = some (c.resultOf c.trace.opsApiRanges.zipIdx) := by
  unfold BelowThreshold at h
  have hrun : ∀ xs : List ((Nat × Nat) × Nat), (∀ x ∈ xs, (c.selected x).length < threshold) →
      xs.foldlM (fun res r => c.initJobsPerApi res (c.trace.perApi r.1) r.2) ⟨0, 0, [], [], []⟩ =
        some (c.resultOf xs) := by
    intro xs hxs
    induction xs using List.reverseRecOn with
    | nil => rfl
    | append_singleton xs x ih =>
      rw [List.foldlM_append, ih fun y hy => hxs y (List.mem_append_left _ hy)]
      simpa using initJobsPerApi_resultOf (hxs x (by simp))
  exact hrun _ h

/-! ## The validators -/

/-- The selected stores are stores of the trace, in order. -/
theorem selected_sublist (c : LSChecker) (x : (Nat × Nat) × Nat) :
    (c.selected x).Sublist (storesOf c.trace.ops) := by
  have hops : (c.trace.perApi x.1).Sublist c.trace.ops :=
    (List.take_sublist _ _).trans (List.drop_sublist _ _)
  exact (c.selectStores_sublist _ _).trans (hops.filterMap _)

theorem idx_of_jobOf {x : (Nat × Nat) × Nat} {b : Job × List Nat} (h : c.jobOf x = some b) :
    b.1.idx = x.2 := by
  simp only [jobOf, Option.bind_eq_bind, Option.bind_eq_some_iff, Option.pure_def,
    Option.some.injEq] at h
  obtain ⟨first, -, last, -, rfl⟩ := h
  rfl

/-- No two jobs are of the same API call. -/
theorem nodup_jobs (c : LSChecker) :
    ((c.trace.opsApiRanges.zipIdx.filterMap c.jobOf).map fun b => b.1.idx).Nodup := by
  have hidx : (c.trace.opsApiRanges.zipIdx.map Prod.snd).Nodup := by
    rw [List.zipIdx_map_snd]
    exact List.nodup_range'
  rw [List.Nodup, List.pairwise_map, List.pairwise_filterMap]
  refine (List.pairwise_map.1 hidx).imp fun hne b hb b' hb' => ?_
  rw [idx_of_jobOf hb, idx_of_jobOf hb']
  exact hne

end LSChecker

/-- A validator loads the ids that were written for its job. -/
theorem Job.validator_of_mem {files : List (Job × List Nat)} (hnodup : (files.map Prod.fst).Nodup)
    {job : Job} {ids : List Nat} (hmem : (job, ids) ∈ files) (pmaddr pmsize : Nat) :
    job.validator files pmaddr pmsize = some ⟨job.idStart, job.idEnd, ids, pmaddr, pmsize⟩ := by
  have hlookup : ∀ l : List (Job × List Nat), (l.map Prod.fst).Nodup → (job, ids) ∈ l →
      l.lookup job = some ids := by
    intro l hl hmem
    induction l with
    | nil => cases hmem
    | cons b l ih =>
      rw [List.map_cons, List.nodup_cons] at hl
      rcases List.mem_cons.1 hmem with rfl | hmem
      · exact List.lookup_cons_self
      · have hne : job ≠ b.1 := fun heq => hl.1 (heq ▸ List.mem_map_of_mem hmem)
        rw [List.lookup_cons, beq_eq_false_iff_ne.2 hne]
        exact ih hl.2 hmem
  rw [validator, hlookup _ (by rw [List.map_reverse]; exact List.nodup_reverse.2 hnodup)
    (List.mem_reverse.2 hmem)]
  rfl

/-- The ids of a trace that was read are positions. -/
theorem map_id_of_trace {onlyPersist : Bool} {entries : List Text} {trace : Trace}
    (h : Trace.extractOperations onlyPersist entries = some trace) :
    trace.ops.map Op.id = List.range trace.ops.length := by
  obtain ⟨st, hst, rfl⟩ := Option.map_eq_some_iff.1 h
  exact (Extraction.indexed_run hst).ids

/-- A trace whose ids are positions, with stores that can be replayed. -/
structure Replayable (pmaddr pmsize : Nat) (ops : List Op) : Prop where
  ids : ops.map Op.id = List.range ops.length
  line : ∀ s ∈ storesOf ops, s.InLine
  file : ∀ s ∈ storesOf ops, (BinaryFile.zero pmaddr pmsize).InFile s

namespace LSChecker

variable {c : LSChecker} {pmaddr pmsize : Nat}

/-- The test that a validator makes is the one to be made. -/
theorem crashTest_of_intended {ops u w : List Op} (hids : ops.map Op.id = List.range ops.length)
    {t : CrashTest} (hops : ops = u ++ .store t.store :: w)
    (ht : LSValidator.Intended (BinaryFile.zero pmaddr pmsize) u t)
    (hcase : t.crashInfo = 0 ∨ t.crashInfo = 1) :
    crashTest pmaddr pmsize ops (t.store, t.crashInfo) = some t := by
  have hid : t.store.id = u.length := by
    have hget : (ops.map Op.id)[u.length]? = some t.store.id := by
      rw [List.getElem?_map, hops]
      simp [Op.id, Op.base]
    have hlt : u.length < ops.length := by simp [hops]
    rw [hids, List.getElem?_range hlt] at hget
    exact (Option.some.inj hget).symm
  have htake : ops.take t.store.id = u := by rw [hid, hops, List.take_left]
  rcases hcase with hcase | hcase
  · rw [crashTest, crashImage, if_pos hcase, htake, ht.case0 hcase, Option.map_some]
  · rw [crashTest, crashImage, if_neg (by simp [hcase]), htake, ht.case1 hcase, Option.map_some]

/-- **One job.** -/
theorem run_job (hops : Replayable pmaddr pmsize c.trace.ops) {x : (Nat × Nat) × Nat} {job : Job}
    {ids : List Nat} (hjob : c.jobOf x = some (job, ids)) :
    LSValidator.run ⟨job.idStart, job.idEnd, ids, pmaddr, pmsize⟩ c.trace.ops =
        some (c.testsOf pmaddr pmsize x) ∧
      (c.testsOf pmaddr pmsize x).map some =
        (bothCases (c.selected x)).map (crashTest pmaddr pmsize c.trace.ops) := by
  have hzero : (c.selected x).length ≠ 0 := fun hzero => by
    rw [jobOf_eq_none hzero] at hjob
    cases hjob
  obtain ⟨first, last, hfirst, hlast, hjob'⟩ := jobOf_eq_some hzero
  cases hjob.symm.trans hjob'
  have hpair : (c.trace.ops.map Op.id).Pairwise (· < ·) := hops.ids ▸ List.pairwise_lt_range
  obtain ⟨tests, hrun, hstores, htests⟩ := LSValidator.runOps_spec
    ⟨first.id, last.id, (c.selected x).map fun s => s.id, pmaddr, pmsize⟩
    (LSValidator.refines_nil ⟨first.id, last.id, (c.selected x).map fun s => s.id, pmaddr, pmsize⟩)
    (fun s hs => ⟨hops.line s hs, hops.file s hs⟩) hpair
  rw [filter_selects (c.selected_sublist x) (hpair.sublist (map_id_storesOf _)) hfirst hlast]
    at hstores
  have hall : ∀ t ∈ tests, some t = crashTest pmaddr pmsize c.trace.ops (t.store, t.crashInfo) := by
    intro t ht
    obtain ⟨u, w, hu, hint⟩ := htests t ht
    have hmem : (t.store, t.crashInfo) ∈ (c.selected x).flatMap fun s => [(s, 0), (s, 1)] :=
      hstores ▸ List.mem_map_of_mem ht
    obtain ⟨s, -, hs⟩ := List.mem_flatMap.1 hmem
    refine (crashTest_of_intended hops.ids hu hint ?_).symm
    simp only [List.mem_cons, Prod.mk.injEq, List.not_mem_nil, or_false] at hs
    exact hs.imp And.right And.right
  have hmap : tests.map some =
      (bothCases (c.selected x)).map (crashTest pmaddr pmsize c.trace.ops) := by
    rw [bothCases, ← hstores, List.map_map]
    exact List.map_congr_left hall
  obtain rfl : tests = c.testsOf pmaddr pmsize x := by
    have hsome := congrArg (List.filterMap fun t => t) hmap
    simpa [List.filterMap_map, Function.comp_def, testsOf] using hsome
  exact ⟨hrun, hmap⟩

theorem selected_eq_nil {x : (Nat × Nat) × Nat} (hjob : c.jobOf x = none) : c.selected x = [] := by
  by_contra hne
  obtain ⟨_, _, -, -, hsome⟩ := jobOf_eq_some fun hzero => hne (List.length_eq_zero_iff.1 hzero)
  cases hjob.symm.trans hsome

/-- No test is left out. -/
theorem map_some_testsOf (hops : Replayable pmaddr pmsize c.trace.ops) (x : (Nat × Nat) × Nat) :
    (c.testsOf pmaddr pmsize x).map some =
      (bothCases (c.selected x)).map (crashTest pmaddr pmsize c.trace.ops) := by
  cases hjob : c.jobOf x with
  | none =>
    rw [testsOf, selected_eq_nil hjob]
    rfl
  | some b => exact (run_job hops hjob).2

/-! ## All jobs -/

/-- Something that is done for each job. -/
theorem mapM_jobs {β : Type} {f : Job → Option β} {g : (Nat × Nat) × Nat → β}
    {xs : List ((Nat × Nat) × Nat)}
    (h : ∀ x ∈ xs, ∀ b, c.jobOf x = some b → f b.1 = some (g x)) :
    ((xs.filterMap c.jobOf).map Prod.fst).mapM f =
      some (xs.filterMap fun x => (c.jobOf x).map fun _ => g x) := by
  induction xs with
  | nil => rfl
  | cons x xs ih =>
    rw [List.forall_mem_cons] at h
    cases hjob : c.jobOf x with
    | none =>
      rw [List.filterMap_cons_none hjob, List.filterMap_cons_none (by rw [hjob]; rfl), ih h.2]
    | some b =>
      rw [List.filterMap_cons_some hjob, List.filterMap_cons_some (by rw [hjob]; rfl),
        List.map_cons, List.mapM_cons, h.1 b hjob, ih h.2]
      rfl

/-- The validator that is started for the job of an API call. -/
theorem validator_of_jobOf {x : (Nat × Nat) × Nat} (hx : x ∈ c.trace.opsApiRanges.zipIdx)
    {b : Job × List Nat} (hjob : c.jobOf x = some b) :
    b.1.validator (c.resultOf c.trace.opsApiRanges.zipIdx).files pmaddr pmsize =
      some ⟨b.1.idStart, b.1.idEnd, b.2, pmaddr, pmsize⟩ := by
  refine Job.validator_of_mem ?_ (List.mem_filterMap.2 ⟨x, hx, hjob⟩) pmaddr pmsize
  refine List.Nodup.of_map Job.idx ?_
  rw [List.map_map]
  exact c.nodup_jobs

/-- The tests of all jobs, one after the other. -/
theorem runJobs_resultOf (hops : Replayable pmaddr pmsize c.trace.ops) :
    runJobs (c.resultOf c.trace.opsApiRanges.zipIdx).files pmaddr pmsize c.trace.ops
        (c.resultOf c.trace.opsApiRanges.zipIdx).jobs =
      some (c.trace.opsApiRanges.zipIdx.flatMap (c.testsOf pmaddr pmsize)) := by
  have hflatten : ∀ xs : List ((Nat × Nat) × Nat),
      (xs.filterMap fun x => (c.jobOf x).map fun _ => c.testsOf pmaddr pmsize x).flatten =
        xs.flatMap (c.testsOf pmaddr pmsize) := by
    intro xs
    induction xs with
    | nil => rfl
    | cons x xs ih =>
      rw [List.flatMap_cons]
      cases hjob : c.jobOf x with
      | none =>
        rw [List.filterMap_cons_none (by rw [hjob]; rfl), ih, testsOf, selected_eq_nil hjob]
        rfl
      | some b => rw [List.filterMap_cons_some (by rw [hjob]; rfl), List.flatten_cons, ih]
  rw [runJobs, resultOf, mapM_jobs fun x hx b hjob => ?_, Option.map_some, hflatten]
  rw [← resultOf, validator_of_jobOf hx hjob, Option.bind_some]
  exact (run_job hops hjob).1

/-- The stores of an API call, and those after it. -/
theorem storesOf_perApi_append {trace : Trace} {r : Nat × Nat} (h : IsApiCall trace.ops r) {n : Nat}
    (hn : n ≤ r.1) : (storesOf (trace.perApi r) ++ storesOf (trace.ops.drop r.2)).Sublist
      (storesOf (trace.ops.drop n)) := by
  obtain ⟨u, o, mid, last, w, hops, rfl, -, hlast⟩ := h
  have hperApi : storesOf (trace.perApi (u.length, u.length + mid.length + 1)) = storesOf mid := by
    have hlen : u.length + mid.length + 1 + 1 - u.length = mid.length + 2 := by omega
    have hmid : (Op.apiBegin o :: (mid ++ last :: w)).take (mid.length + 2) =
        [.apiBegin o] ++ mid ++ [last] := by
      simp [List.take_append]
    rw [Trace.perApi, hops, List.drop_left, hlen, hmid, storesOf_append, storesOf_append]
    cases last with
    | apiBegin | apiEnd => exact List.append_nil _
    | _ => cases hlast
  have hdrop : trace.ops.drop (u.length + mid.length + 1) = last :: w := by
    rw [hops, ← List.cons_append, ← List.append_assoc]
    exact List.drop_left' (by simp; omega)
  have hsplit : trace.ops.drop n = u.drop n ++ [.apiBegin o] ++ mid ++
      trace.ops.drop (u.length + mid.length + 1) := by
    rw [hdrop, hops, List.drop_append_of_le_length hn]
    simp
  rw [hsplit, storesOf_append, storesOf_append, hperApi]
  exact List.Sublist.append (List.sublist_append_right _ _) (List.Sublist.refl _)

/-- The stores of the API calls are stores of the trace, and none is in two calls. -/
theorem storesInOp_sublist {onlyPersist : Bool} {entries : List Text} {trace : Trace}
    (h : Trace.extractOperations onlyPersist entries = some trace) :
    (trace.opsApiRanges.flatMap fun r => storesOf (trace.perApi r)).Sublist
      (storesOf trace.ops) := by
  obtain ⟨st, hst, hst'⟩ := Option.map_eq_some_iff.1 h
  have hordered : trace.opsApiRanges.Pairwise fun r r' => r.2 ≤ r'.1 :=
    hst' ▸ (Extraction.indexed_run hst).ordered
  have hcalls : ∀ r ∈ trace.opsApiRanges, IsApiCall trace.ops r := fun r hr => isApiCall_of_mem h hr
  -- the calls that are left lie behind a position
  have hrest : ∀ (rs : List (Nat × Nat)) (n : Nat), (∀ r ∈ rs, IsApiCall trace.ops r) →
      (∀ r ∈ rs, n ≤ r.1) → rs.Pairwise (fun r r' => r.2 ≤ r'.1) →
      (rs.flatMap fun r => storesOf (trace.perApi r)).Sublist (storesOf (trace.ops.drop n)) := by
    intro rs
    induction rs with
    | nil => exact fun _ _ _ _ => List.nil_sublist _
    | cons r rs ih =>
      intro n hcalls hn hordered
      rw [List.pairwise_cons] at hordered
      rw [List.forall_mem_cons] at hcalls hn
      rw [List.flatMap_cons]
      exact ((List.Sublist.refl _).append (ih r.2 hcalls.2 hordered.1 hordered.2)).trans
        (storesOf_perApi_append hcalls.1 hn.1)
  exact hrest trace.opsApiRanges 0 hcalls (fun _ _ => Nat.zero_le _) hordered

theorem storesInOp_eq (c : LSChecker) :
    c.storesInOp = c.trace.opsApiRanges.zipIdx.flatMap fun x => storesOf (c.trace.perApi x.1) := by
  rw [storesInOp]
  conv_lhs => rw [← List.zipIdx_map_fst 0 c.trace.opsApiRanges, List.flatMap_map]

/-- What is selected is selected from the stores of the API calls. -/
theorem lpStores_sublist (c : LSChecker) : c.lpStores.Sublist c.storesInOp := by
  rw [storesInOp_eq]
  exact List.Sublist.flatMap_right _ fun x _ => c.selectStores_sublist _ _

/-- **The whole phase.**  If every API call has fewer selected stores than the threshold, no
exception is raised, and the jobs test exactly the selected stores of all calls, each in both cases,
in the order of the trace, with the images of crashes at the stores.  No store of the trace is in
two calls, so none is tested twice.  The numbers that are printed are those of the selected stores
and of the stores in API calls. -/
theorem initJobs_tests {onlyPersist : Bool} {entries : List Text}
    (htrace : Trace.extractOperations onlyPersist entries = some c.trace)
    (hsmall : c.BelowThreshold) (hline : ∀ s ∈ storesOf c.trace.ops, s.InLine)
    (hfile : ∀ s ∈ storesOf c.trace.ops, (BinaryFile.zero pmaddr pmsize).InFile s) :
    ∃ res tests, c.initJobs = some res ∧
      runJobs res.files pmaddr pmsize c.trace.ops res.jobs = some tests ∧
      tests.map some = (bothCases c.lpStores).map (crashTest pmaddr pmsize c.trace.ops) ∧
      c.lpStores.Sublist c.storesInOp ∧ c.storesInOp.Sublist (storesOf c.trace.ops) ∧
      res.totalLps = c.lpStores.length ∧ res.totalStoresInOp = c.storesInOp.length ∧
      tests.length = 2 * res.totalLps := by
  have hops : Replayable pmaddr pmsize c.trace.ops := ⟨map_id_of_trace htrace, hline, hfile⟩
  have htests : (c.trace.opsApiRanges.zipIdx.flatMap (c.testsOf pmaddr pmsize)).map some =
      (bothCases c.lpStores).map (crashTest pmaddr pmsize c.trace.ops) := by
    rw [bothCases, lpStores, List.flatMap_assoc, List.map_flatMap, List.map_flatMap]
    exact List.flatMap_congr fun x _ => map_some_testsOf hops x
  have hlps : (c.resultOf c.trace.opsApiRanges.zipIdx).totalLps = c.lpStores.length :=
    List.length_flatMap.symm
  refine ⟨_, _, initJobs_eq hsmall, runJobs_resultOf hops, htests, c.lpStores_sublist,
    storesInOp_sublist htrace, hlps, ?_, ?_⟩
  · rw [storesInOp_eq]
    exact List.length_flatMap.symm
  · have hlen := congrArg List.length htests
    rw [List.length_map, List.length_map] at hlen
    rw [hlen, hlps]
    simp [bothCases, List.length_flatMap, Nat.mul_comm]

/-- Two API calls, each with a store. -/
def twoCallsStores : List Text :=
  ["APIBegin,1,NA", "Store,1,0x40,2,01 02,3,0", "Flush,1,0x40,4", "Fence,1,5", "APIEnd,1,NA",
    "APIBegin,1,NA", "Store,1,0x48,1,2a,6,0", "APIEnd,1,NA"].map String.toList

/-- They are read as a trace that the phase can work with. -/
theorem exists_twoCallsStores : ∃ trace, Trace.extractOperations true twoCallsStores = some trace ∧
    (LSChecker.mk trace 0 0 [] []).BelowThreshold ∧ (∀ s ∈ storesOf trace.ops, s.InLine) ∧
    (∀ s ∈ storesOf trace.ops, (BinaryFile.zero 0 1).InFile s) ∧ (storesOf trace.ops).length = 2 ∧
    trace.opsApiRanges.length = 2 ∧
    ∀ s ∈ storesOf trace.ops, s.srcInfo = Nat.toDigits 10 3 ∨ s.srcInfo = Nat.toDigits 10 6 := by
  have hany : (Trace.extractOperations true twoCallsStores).any (fun trace => decide
      ((∀ x ∈ trace.opsApiRanges.zipIdx, ((LSChecker.mk trace 0 0 [] []).selected x).length <
        threshold) ∧ (∀ s ∈ storesOf trace.ops, s.InLine) ∧ (∀ s ∈ storesOf trace.ops,
        s.address + s.size ≤ 128 ∧ s.valueBytes.length = s.size) ∧
        (storesOf trace.ops).length = 2 ∧ trace.opsApiRanges.length = 2 ∧
        ∀ s ∈ storesOf trace.ops, s.srcInfo = Nat.toDigits 10 3 ∨ s.srcInfo = Nat.toDigits 10 6)) =
        true := by
    decide +kernel
  obtain ⟨trace, htrace, hall⟩ := (Option.any_eq_true _ _).1 hany
  obtain ⟨hsmall, hline, hbounds, hrest⟩ := of_decide_eq_true hall
  exact ⟨trace, htrace, hsmall, hline, fun s hs => BinaryFile.inFile_zero (Nat.zero_le _)
    ((hbounds s hs).1.trans (by norm_num)) (hbounds s hs).2, hrest⟩

theorem initJobs_tests_twoCallsStores :
    ∃ trace res tests, Trace.extractOperations true twoCallsStores = some trace ∧
      (LSChecker.mk trace 0 0 [] []).initJobs = some res ∧
      runJobs res.files 0 1 trace.ops res.jobs = some tests ∧ res.totalLps = 2 ∧
      res.totalStoresInOp = 2 ∧ tests.length = 4 := by
  have hfacts : (Trace.extractOperations true twoCallsStores).map (fun trace =>
      ((LSChecker.mk trace 0 0 [] []).lpStores.length,
        (LSChecker.mk trace 0 0 [] []).storesInOp.length)) = some (2, 2) := by decide +kernel
  obtain ⟨trace, htrace, hsmall, hline, hfile, -⟩ := exists_twoCallsStores
  obtain ⟨res, tests, hres, hrun, -, -, -, hlps, htotal, htests⟩ :=
    initJobs_tests (c := LSChecker.mk trace 0 0 [] []) htrace hsmall hline hfile
  rw [htrace, Option.map_some, ← hlps, ← htotal] at hfacts
  obtain ⟨hlps, htotal⟩ := Prod.mk.inj (Option.some.inj hfacts)
  exact ⟨trace, res, tests, htrace, hres, hrun, hlps, htotal, by rw [htests, hlps]⟩

end LSChecker

end Durinn
