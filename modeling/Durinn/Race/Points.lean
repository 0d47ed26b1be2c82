import Durinn.Race.Detector

/-!
# Report points and dependent points

Where the race detector reports a store, and where it reports a load, said about the
operations of the API call alone.

* A store is reported at its `ReportPoint`: the first fence after a flush that reaches it, or
  the end of the call (`exists_report_store_at`).
* A load is reported at its `DependentPoint`: the next store, or the end of a call without
  stores, unless the load was flushed and fenced before (`exists_report_load_at`).
-/

namespace Durinn

open MarkBuffer

/-! ## What waits in the two caches -/

/-- A store waits, marked, from the flush to the fence. -/
theorem mem_flushing_pendingStores {s : Store} {p : List Op} :
    s ∈ (pendingStores p).getFlushingOps ↔ ∃ u v, p = u ++ .store s :: v ∧
      (∃ f, Op.flush f ∈ v ∧ f.isInFlush s = true) ∧ ¬PersistedIn s v := by
  have hmem : s ∈ (pendingStores p).getFlushingOps ↔
      (s, true) ∈ (Buffer.empty.run (events p)).pending := by
    simp [pendingStores]
  rw [hmem, mem_pending_run]
  constructor
  · rintro ⟨w, hw, hgone, hmark⟩
    obtain ⟨u, v, rfl, rfl⟩ := mem_arrivals_events.1 hw
    refine ⟨u, v, rfl, (marked_events s v).1 hmark, ?_⟩
    rw [← gone_events, hgone]
    exact Bool.false_ne_true
  · rintro ⟨u, v, rfl, hmark, hgone⟩
    refine ⟨events v, mem_arrivals_events.2 ⟨u, v, rfl, rfl⟩, ?_, (marked_events s v).2 hmark⟩
    exact Bool.eq_false_iff.2 fun h => hgone ((gone_events s v).1 h)

/-- A store waits until it is flushed and fenced. -/
theorem mem_pendingStores {s : Store} {p : List Op} :
    s ∈ (pendingStores p).getAllOps ↔ ∃ u v, p = u ++ .store s :: v ∧ ¬PersistedIn s v := by
  have hmem : s ∈ (pendingStores p).getAllOps ↔
      ∃ m, (s, m) ∈ (Buffer.empty.run (events p)).pending := by
    rw [pendingStores, Cache.getAllOps_ofBuffer, List.mem_map]
    refine ⟨?_, ?_⟩
    · rintro ⟨x, hx, rfl⟩
      exact ⟨x.2, hx⟩
    · rintro ⟨m, hm⟩
      exact ⟨_, hm, rfl⟩
  rw [hmem]
  simp only [mem_pending_run, mem_arrivals_events]
  constructor
  · rintro ⟨m, w, ⟨u, v, rfl, rfl⟩, hgone, -⟩
    refine ⟨u, v, rfl, ?_⟩
    rw [← gone_events, hgone]
    exact Bool.false_ne_true
  · rintro ⟨u, v, rfl, hgone⟩
    refine ⟨_, events v, ⟨u, v, rfl, rfl⟩, ?_, rfl⟩
    exact Bool.eq_false_iff.2 fun h => hgone ((gone_events s v).1 h)

theorem loadEvent_eq_put {op : Op} {l : Load} : op.loadEvent = .put l ↔ op = .load l := by
  cases op <;> simp [Op.loadEvent]

theorem hasDrain_loadEvents (v : List Op) :
    hasDrain (loadEvents v) = true ↔ ∃ b, Op.fence b ∈ v := by
  induction v with
  | nil => simp [loadEvents, hasDrain]
  | cons op v ih =>
    rw [loadEvents, List.map_cons, ← loadEvents]
    cases op <;> simp [Op.loadEvent, hasDrain, ih]

theorem gone_loadEvents (l : Load) (v : List Op) :
    gone l (loadEvents v) = true ↔ PersistedIn l v ∨ ∃ s, Op.store s ∈ v := by
  induction v with
  | nil => simp [loadEvents, gone, PersistedIn, FlushedAndFenced]
  | cons op v ih =>
    rw [loadEvents, List.map_cons, ← loadEvents, PersistedIn, flushedAndFenced_cons, ← PersistedIn]
    cases op with
    | flush f => simp [Op.loadEvent, gone, hasDrain_loadEvents, ih, or_assoc]
    | store s => simp [Op.loadEvent, gone]
    | _ => simp [Op.loadEvent, gone, ih]

/-- A load waits until the next store, unless it is flushed and fenced before. -/
theorem mem_pendingLoads {l : Load} {q : List Op} :
    l ∈ (pendingLoads q).getAllOps ↔
      ∃ u v, q = u ++ .load l :: v ∧ storesOf v = [] ∧ ¬PersistedIn l v := by
  have hmem : l ∈ (pendingLoads q).getAllOps ↔
      ∃ m, (l, m) ∈ (Buffer.empty.run (loadEvents q)).pending := by
    rw [pendingLoads, Cache.getAllOps_ofBuffer, List.mem_map]
    refine ⟨?_, ?_⟩
    · rintro ⟨x, hx, rfl⟩
      exact ⟨x.2, hx⟩
    · rintro ⟨m, hm⟩
      exact ⟨_, hm, rfl⟩
  have harr : ∀ w, (l, w) ∈ arrivals (loadEvents q) ↔
      ∃ u v, q = u ++ .load l :: v ∧ w = loadEvents v := fun w =>
    mem_arrivals_map fun _ _ => loadEvent_eq_put
  have hgone : ∀ v, gone l (loadEvents v) = false ↔ storesOf v = [] ∧ ¬PersistedIn l v := by
    intro v
    rw [← Bool.not_eq_true, gone_loadEvents, not_or, and_comm, List.eq_nil_iff_forall_not_mem]
    simp only [mem_storesOf, not_exists]
  rw [hmem]
  simp only [mem_pending_run, harr]
  constructor
  · rintro ⟨m, w, ⟨u, v, rfl, rfl⟩, h, -⟩
    exact ⟨u, v, rfl, (hgone v).1 h⟩
  · rintro ⟨u, v, rfl, h⟩
    exact ⟨_, loadEvents v, ⟨u, v, rfl, rfl⟩, (hgone v).2 h, rfl⟩

/-! ## The points -/

/-- `p` are the operations of the call before the point at which the store `s` is reported:
the first fence after a flush that reaches it or, if there is no such fence, the `APIEnd`,
provided that no lock is held there. -/
inductive ReportPoint (ops : List Op) (s : Store) : List Op → Prop
  | fence {u v w : List Op} {b : BaseOperation} (hops : ops = u ++ .store s :: (v ++ .fence b :: w))
      (hflush : ∃ f, Op.flush f ∈ v ∧ f.isInFlush s = true) (hfirst : ¬PersistedIn s v) :
      ReportPoint ops s (u ++ .store s :: v)
  | apiEnd {u v : List Op} {b : BaseOperation} (hops : ops = u ++ .store s :: (v ++ [.apiEnd b]))
      (hnone : ¬PersistedIn s v) (hlocks : heldLocks (u ++ .store s :: v) = []) :
      ReportPoint ops s (u ++ .store s :: v)

/-- `q` are the operations of the call before the point that may depend on the load `l`: the
next store or, if the call has no stores, its `APIEnd`, provided that no lock is held there; in
both cases provided that the load is not flushed and fenced before. -/
inductive DependentPoint (ops : List Op) (l : Load) : List Op → Prop
  | store {u v w : List Op} {s : Store} (hops : ops = u ++ .load l :: (v ++ .store s :: w))
      (hnext : storesOf v = []) (hclean : ¬PersistedIn l v) :
      DependentPoint ops l (u ++ .load l :: v)
  | apiEnd {u v : List Op} {b : BaseOperation} (hops : ops = u ++ .load l :: (v ++ [.apiEnd b]))
      (hnone : storesOf ops = []) (hclean : ¬PersistedIn l v)
      (hlocks : heldLocks (u ++ .load l :: v) = []) :
      DependentPoint ops l (u ++ .load l :: v)

/-- Nothing follows the end of the call. -/
def EndsCall (ops : List Op) : Prop := ∀ p b w, ops = p ++ Op.apiEnd b :: w → w = []

theorem IsApiCall.endsCall {trace : Trace} {r : Nat × Nat} (h : IsApiCall trace.ops r) :
    EndsCall (trace.perApi r) := by
  obtain ⟨o, mid, last, hops, hmid⟩ := h.perApi
  intro p b w hsplit
  rw [hops] at hsplit
  rcases List.eq_nil_or_concat' w with rfl | ⟨w, x, rfl⟩
  · rfl
  · have hcut : .apiBegin o :: mid = p ++ .apiEnd b :: w := by
      have hsnoc : (.apiBegin o :: mid) ++ [last] = (p ++ .apiEnd b :: w) ++ [x] := by
        simpa using hsplit
      exact List.append_inj_left' hsnoc rfl
    have hin : Op.apiEnd b ∈ Op.apiBegin o :: mid := by simp [hcut]
    rcases List.mem_cons.1 hin with h | h
    · cases h
    · exact absurd (hmid _ h) (by simp [Op.isBoundary])

/-! ## What is reported -/

/-- The report of a group of stores, by address and locks. -/
theorem exists_mem_reportStores (op : Op) {stores : List Store} {locks : List Lock} {a : Nat}
    {ls : Finset Nat} :
    (∃ r ∈ reportStores op stores locks, a ∈ r.deps ∧ r.lockSet = ls) ↔
      (∃ s ∈ stores, s.address = a) ∧ lockAddrs locks = ls := by
  unfold reportStores
  split
  · simp [RaceOp.new]
  · have hnil : stores = [] := List.length_eq_zero_iff.1 (by omega)
    simp [hnil]

theorem exists_mem_reportLoads (op : Op) {loads : List Load} {locks : List Lock} {a : Nat}
    {ls : Finset Nat} :
    (a ∈ (reportLoads op loads locks).deps ∧ (reportLoads op loads locks).lockSet = ls) ↔
      (∃ l ∈ loads, l.address = a) ∧ lockAddrs locks = ls := by
  simp [reportLoads, RaceOp.new]

/-- A report names the operation at which it is made and the locks held there. -/
theorem reportsSt_spec {lpStores : List Store} {p : List Op} {op : Op} {r : RaceOp}
    (hr : r ∈ reportsSt lpStores p op) :
    r.op = op ∧ r.lockSet = lockAddrs (heldLocks p) ∧
      (op.isFence = true ∨ ∃ b, op = .apiEnd b) := by
  have hreport : ∀ stores, r ∈ reportStores op stores (heldLocks p) →
      r.op = op ∧ r.lockSet = lockAddrs (heldLocks p) := by
    intro stores hr
    unfold reportStores at hr
    split at hr
    · rw [List.mem_singleton.1 hr]
      exact ⟨rfl, rfl⟩
    · cases hr
  cases op with
  | fence b => exact ⟨(hreport _ hr).1, (hreport _ hr).2, Or.inl rfl⟩
  | apiEnd b =>
    simp only [reportsSt] at hr
    split at hr
    · exact ⟨(hreport _ hr).1, (hreport _ hr).2, Or.inr ⟨b, rfl⟩⟩
    · cases hr
  | _ => cases hr

theorem op_of_mem_reportsLd {q : List Op} {op : Op} {r : RaceOp} (hr : r ∈ reportsLd q op) :
    r.op = op := by
  cases op with
  | store s =>
    simp only [reportsLd] at hr
    split at hr
    · cases hr
    · rw [List.mem_singleton.1 hr]
      rfl
  | apiEnd b =>
    simp only [reportsLd] at hr
    split at hr
    · rw [List.mem_singleton.1 hr]
      rfl
    · cases hr
  | _ => cases hr

section AtPoints

variable {lpStores : List Store} {ops : List Op} {a : Nat} {ls : Finset Nat}

/-- What follows the same part of a call is the same. -/
theorem next_of_split {u v w w' : List Op} {x op op' : Op}
    (hops : ops = u ++ x :: (v ++ op' :: w')) (hsplit : ops = (u ++ x :: v) ++ op :: w) :
    op = op' ∧ w = w' := by
  rw [hops, List.append_assoc, List.cons_append] at hsplit
  exact (List.cons.inj (List.append_cancel_left
    (List.cons.inj (List.append_cancel_left hsplit)).2)).imp Eq.symm Eq.symm

theorem ReportPoint.split {s : Store} {p : List Op} (h : ReportPoint ops s p) :
    ∃ op w, ops = p ++ op :: w := by
  cases h with
  | @fence u v w b hops => exact ⟨.fence b, w, by simp [hops]⟩
  | @apiEnd u v b hops => exact ⟨.apiEnd b, [], by simp [hops]⟩

theorem DependentPoint.split {l : Load} {q : List Op} (h : DependentPoint ops l q) :
    ∃ op w, ops = q ++ op :: w := by
  cases h with
  | @store u v w s hops => exact ⟨.store s, w, by simp [hops]⟩
  | @apiEnd u v b hops => exact ⟨.apiEnd b, [], by simp [hops]⟩

/-- **Stores are reported at their report points.** -/
theorem exists_report_store_at (hend : EndsCall ops) {p w : List Op} {op : Op}
    (hsplit : ops = p ++ op :: w) :
    (∃ r ∈ reportsSt lpStores p op, a ∈ r.deps ∧ r.lockSet = ls) ↔
      ∃ s ∈ lpStores, s.address = a ∧ ReportPoint ops s p ∧ lockAddrs (heldLocks p) = ls := by
  constructor
  · rintro ⟨r, hr, ha, hls⟩
    cases op with
    | fence b =>
      obtain ⟨⟨s, hs, rfl⟩, hls⟩ := (exists_mem_reportStores _).1 ⟨r, hr, ha, hls⟩
      rw [List.mem_filter, mem_flushing_pendingStores] at hs
      obtain ⟨⟨u, v, rfl, hflush, hfirst⟩, hlp⟩ := hs
      exact ⟨s, List.contains_iff_mem.1 hlp, rfl,
        .fence (hsplit.trans (List.append_assoc _ _ _)) hflush hfirst, hls⟩
    | apiEnd b =>
      obtain rfl : w = [] := hend p b w hsplit
      simp only [reportsSt] at hr
      split at hr
      · rename_i hlocks
        obtain ⟨⟨s, hs, rfl⟩, hls⟩ := (exists_mem_reportStores _).1 ⟨r, hr, ha, hls⟩
        rw [List.mem_filter, mem_pendingStores] at hs
        obtain ⟨⟨u, v, rfl, hnone⟩, hlp⟩ := hs
        exact ⟨s, List.contains_iff_mem.1 hlp, rfl,
          .apiEnd (hsplit.trans (List.append_assoc _ _ _)) hnone (List.length_eq_zero_iff.1 hlocks),
          hls⟩
      · cases hr
    | _ => cases hr
  · rintro ⟨s, hlp, rfl, hpoint, hls⟩
    have hcontains : lpStores.contains s = true := List.contains_iff_mem.2 hlp
    cases hpoint with
    | @fence u v w' b hops hflush hfirst =>
      obtain ⟨rfl, -⟩ := next_of_split hops hsplit
      exact (exists_mem_reportStores _).2 ⟨⟨s, List.mem_filter.2
        ⟨mem_flushing_pendingStores.2 ⟨u, v, rfl, hflush, hfirst⟩, hcontains⟩, rfl⟩, hls⟩
    | @apiEnd u v b hops hnone hlocks =>
      obtain ⟨rfl, -⟩ := next_of_split hops hsplit
      simp only [reportsSt]
      rw [if_pos (by rw [hlocks]; rfl)]
      exact (exists_mem_reportStores _).2 ⟨⟨s, List.mem_filter.2
        ⟨mem_pendingStores.2 ⟨u, v, rfl, hnone⟩, hcontains⟩, rfl⟩, hls⟩

theorem exists_report_store (hend : EndsCall ops) :
    (∃ r ∈ Runs.outputs (reportsSt lpStores) ops, a ∈ r.deps ∧ r.lockSet = ls) ↔
      ∃ s p, s ∈ lpStores ∧ s.address = a ∧ ReportPoint ops s p ∧ lockAddrs (heldLocks p) = ls := by
  constructor
  · rintro ⟨r, hout, hdeps⟩
    obtain ⟨p, op, w, hsplit, hr⟩ := Runs.mem_outputs.1 hout
    obtain ⟨s, hs⟩ := (exists_report_store_at hend hsplit).1 ⟨r, hr, hdeps⟩
    exact ⟨s, p, hs⟩
  · rintro ⟨s, p, hlp, ha, hpoint, hls⟩
    obtain ⟨op, w, hsplit⟩ := hpoint.split
    obtain ⟨r, hr, hdeps⟩ := (exists_report_store_at hend hsplit).2 ⟨s, hlp, ha, hpoint, hls⟩
    exact ⟨r, Runs.mem_outputs.2 ⟨p, op, w, hsplit, hr⟩, hdeps⟩

/-- **Loads are reported at their dependent points.** -/
theorem exists_report_load_at (hend : EndsCall ops) {q w : List Op} {op : Op}
    (hsplit : ops = q ++ op :: w) :
    (∃ r ∈ reportsLd q op, a ∈ r.deps ∧ r.lockSet = ls) ↔
      ∃ l, l.address = a ∧ DependentPoint ops l q ∧ lockAddrs (acquiredLocks q) = ls := by
  constructor
  · rintro ⟨r, hr, hdeps⟩
    cases op with
    | store s =>
      simp only [reportsLd] at hr
      split at hr
      · cases hr
      · rw [List.mem_singleton.1 hr] at hdeps
        obtain ⟨⟨l, hl, rfl⟩, hls⟩ := (exists_mem_reportLoads _).1 hdeps
        obtain ⟨u, v, rfl, hnext, hclean⟩ := mem_pendingLoads.1 hl
        exact ⟨l, rfl, .store (hsplit.trans (List.append_assoc _ _ _)) hnext hclean, hls⟩
    | apiEnd b =>
      obtain rfl : w = [] := hend q b w hsplit
      simp only [reportsLd] at hr
      split at hr
      · rename_i hquiet
        rw [List.mem_singleton.1 hr] at hdeps
        obtain ⟨⟨l, hl, rfl⟩, hls⟩ := (exists_mem_reportLoads _).1 hdeps
        obtain ⟨u, v, rfl, -, hclean⟩ := mem_pendingLoads.1 hl
        have hnone : storesOf ops = [] := by
          rw [hsplit, storesOf_append, hquiet.2]
          rfl
        exact ⟨l, rfl, .apiEnd (hsplit.trans (List.append_assoc _ _ _)) hnone hclean
          (List.length_eq_zero_iff.1 hquiet.1), hls⟩
      · cases hr
    | _ => cases hr
  · rintro ⟨l, rfl, hpoint, hls⟩
    cases hpoint with
    | @store u v w' s hops hnext hclean =>
      obtain ⟨rfl, -⟩ := next_of_split hops hsplit
      have hl := mem_pendingLoads.2 ⟨u, v, rfl, hnext, hclean⟩
      refine ⟨_, ?_, (exists_mem_reportLoads (.store s)).2 ⟨⟨l, hl, rfl⟩, hls⟩⟩
      simp only [reportsLd]
      rw [if_neg]
      · exact List.mem_singleton.2 rfl
      · intro hempty
        have hnil : (pendingLoads (u ++ .load l :: v)).ops = [] := List.isEmpty_iff.1 hempty
        simp [Cache.getAllOps, hnil] at hl
    | @apiEnd u v b hops hnone hclean hlocks =>
      obtain ⟨rfl, rfl⟩ := next_of_split hops hsplit
      rw [hsplit, storesOf_append] at hnone
      have hquiet := (List.append_eq_nil_iff.1 hnone).1
      have hv : storesOf v = [] := by
        rw [List.append_cons, storesOf_append] at hquiet
        exact (List.append_eq_nil_iff.1 hquiet).2
      have hl := mem_pendingLoads.2 ⟨u, v, rfl, hv, hclean⟩
      refine ⟨_, ?_, (exists_mem_reportLoads (.apiEnd b)).2 ⟨⟨l, hl, rfl⟩, hls⟩⟩
      simp only [reportsLd]
      rw [if_pos ⟨by rw [hlocks]; rfl, hquiet⟩]
      exact List.mem_singleton.2 rfl

theorem exists_report_load (hend : EndsCall ops) :
    (∃ r ∈ Runs.outputs reportsLd ops, a ∈ r.deps ∧ r.lockSet = ls) ↔
      ∃ l q, l.address = a ∧ DependentPoint ops l q ∧ lockAddrs (acquiredLocks q) = ls := by
  constructor
  · rintro ⟨r, hout, hdeps⟩
    obtain ⟨q, op, w, hsplit, hr⟩ := Runs.mem_outputs.1 hout
    obtain ⟨l, hl⟩ := (exists_report_load_at hend hsplit).1 ⟨r, hr, hdeps⟩
    exact ⟨l, q, hl⟩
  · rintro ⟨l, q, ha, hpoint, hls⟩
    obtain ⟨op, w, hsplit⟩ := hpoint.split
    obtain ⟨r, hr, hdeps⟩ := (exists_report_load_at hend hsplit).2 ⟨l, ha, hpoint, hls⟩
    exact ⟨r, Runs.mem_outputs.2 ⟨q, op, w, hsplit, hr⟩, hdeps⟩

end AtPoints

end Durinn
