import Durinn.Race.HeldLocks
import Durinn.Race.Pairs
import Durinn.Trace.Indices

/-!
# Stores and loads that overlap only in part

The race detector follows a store as a whole, with one mark, and knows a report by the addresses
at which its stores or loads start.  Here both are held against the bytes that a store writes.

* `reportedAtEnd_iff` — if the detector's list of locks is empty, a store is reported at the end of
  the call unless *some* line of it was flushed and fenced, however many lines it has.  The stores
  with an unflushed byte are therefore all reported there exactly under the condition of
  `unflushed_reported_iff`.
* `recordedAt_iff` — a report of stores and a report of loads are recorded as a race if a store
  and a load of them start at the same address.  Overlapping ones are therefore all
  recorded exactly under the condition of `overlaps_recorded_iff`.
-/

namespace Durinn

/-! ## Stores that are flushed in part -/

/-- A byte of the store is in a line that `v`, the operations after the store, do not flush and
then fence. -/
def Store.UnflushedIn (s : Store) (v : List Op) : Prop :=
  ∃ x, s.covers x = true ∧ ¬LineFlushedIn (x / cachelineBytes * cachelineBytes) v

section AtEnd

variable {lpStores : List Store} {body : List Op} {b : BaseOperation}

/-- What is reported at the end of a call. -/
theorem reportedAtEnd_iff (hbal : Balanced body) {a : Nat} :
    (∃ r, ReportedAt lpStores body (.apiEnd b) r ∧ a ∈ r.deps) ↔
      heldLocks body = [] ∧ ∃ s ∈ lpStores, s.address = a ∧
        ∃ u v, body = u ++ .store s :: v ∧ ¬PersistedIn s v := by
  have hend : Balanced (body ++ [.apiEnd b]) := hbal.append_singleton fun u hu => by cases hu
  simp only [reportedAt_iff (run_after_of_balanced lpStores hend), reportsSt,
    List.length_eq_zero_iff]
  constructor
  · rintro ⟨r, hr, ha⟩
    split_ifs at hr with hlocks
    · obtain ⟨⟨s, hs, hsa⟩, -⟩ := (exists_mem_reportStores _).1 ⟨r, hr, ha, rfl⟩
      rw [List.mem_filter, mem_pendingStores] at hs
      exact ⟨hlocks, s, List.contains_iff_mem.1 hs.2, hsa, hs.1⟩
    · cases hr
  · rintro ⟨hlocks, s, hlp, hsa, hpending⟩
    rw [if_pos hlocks]
    have hmem := List.mem_filter.2 ⟨mem_pendingStores.2 hpending, List.contains_iff_mem.2 hlp⟩
    obtain ⟨r, hr, ha, -⟩ := (exists_mem_reportStores (.apiEnd b)).2 ⟨⟨s, hmem, hsa⟩, rfl⟩
    exact ⟨r, hr, ha⟩

/-- **Stores that are not flushed in full** are all reported at the end of a call in which every
lock was released, if and only if the detector's list of locks is empty there, and each of them of
which a line is flushed and fenced shares its address with a store that has no such line. -/
theorem unflushed_reported_iff (hbal : Balanced body) (hheld : reallyHeld body = []) :
    (∀ s ∈ lpStores, ∀ u v, body = u ++ .store s :: v → s.UnflushedIn v →
        ∃ r, ReportedAt lpStores body (.apiEnd b) r ∧ s.address ∈ r.deps) ↔
      ∀ s ∈ lpStores, ∀ u v, body = u ++ .store s :: v → s.UnflushedIn v →
        heldLocks body = reallyHeld body ∧
          (PersistedIn s v → ∃ s' ∈ lpStores, s'.address = s.address ∧
            ∃ u' v', body = u' ++ .store s' :: v' ∧ ¬PersistedIn s' v') := by
  simp only [reportedAtEnd_iff hbal, hheld]
  constructor
  · intro h s hs u v hsplit hbyte
    obtain ⟨hlocks, hsame⟩ := h s hs u v hsplit hbyte
    exact ⟨hlocks, fun _ => hsame⟩
  · intro h s hs u v hsplit hbyte
    obtain ⟨hlocks, hsame⟩ := h s hs u v hsplit hbyte
    refine ⟨hlocks, ?_⟩
    by_cases hpart : PersistedIn s v
    · exact hsame hpart
    · exact ⟨s, hs, rfl, u, v, hsplit, hpart⟩

end AtEnd

/-- Three locks that overlap, released in another order: one stays in the detector's list. -/
example : (fun ops => (reallyHeld ops, (heldLocks ops).map Lock.address))
    [.lock ⟨⟨0, 1, []⟩, 0x900⟩, .lock ⟨⟨1, 1, []⟩, 0x904⟩, .lock ⟨⟨2, 1, []⟩, 0x908⟩,
      .unlock ⟨⟨3, 1, []⟩, 0x904⟩, .unlock ⟨⟨4, 1, []⟩, 0x900⟩, .unlock ⟨⟨5, 1, []⟩, 0x908⟩] =
    ([], [0x900]) := by
  decide

/-- A store of sixteen bytes, eight in each of two lines. -/
def wideStore : Store := ⟨⟨1, 1, []⟩, 0x78, 16, List.replicate 16 0, 0⟩

/-- A call with `wideStore` and a flush, without its end. -/
def flushedAt (a : Nat) : List Op :=
  [.apiBegin ⟨0, 1, []⟩, .store wideStore, .flush ⟨⟨2, 1, []⟩, a⟩, .fence ⟨3, 1, []⟩]

theorem flushedAt_split {a : Nat} {s : Store} {u v : List Op}
    (h : flushedAt a = u ++ .store s :: v) : s = wideStore ∧ v = (flushedAt a).drop 2 := by
  simp only [flushedAt, List.cons_eq_append_iff] at h
  simp at h
  exact ⟨h.2.1, h.2.2⟩

theorem balanced_flushedAt (a : Nat) : Balanced (flushedAt a) := by
  intro p u w h
  have hmem : Op.unlock u ∈ flushedAt a := by simp [h]
  simp [flushedAt] at hmem

theorem flushedAndFenced_flushedAt {q : Flush → Prop} {a : Nat} :
    FlushedAndFenced q ((flushedAt a).drop 2) ↔ q ⟨⟨2, 1, []⟩, a⟩ := by
  simp [flushedAt, flushedAndFenced_cons]

/-- No line of the store is flushed, and it is reported at the end. -/
theorem unflushed_reported_iff_elsewhere :
    ∃ r, ReportedAt [wideStore] (flushedAt 0x100) (.apiEnd ⟨4, 1, []⟩) r ∧ 0x78 ∈ r.deps := by
  refine (unflushed_reported_iff (balanced_flushedAt 0x100) rfl).2 ?_ wideStore (by simp)
    [.apiBegin ⟨0, 1, []⟩] _ rfl ?_
  · intro s _ u v hsplit _
    refine ⟨rfl, fun hpart => ?_⟩
    obtain ⟨rfl, rfl⟩ := flushedAt_split hsplit
    have htouch := flushedAndFenced_flushedAt.1 hpart
    exact absurd htouch (by decide +kernel)
  · refine ⟨0x78, by decide, fun hline => ?_⟩
    have haddr := flushedAndFenced_flushedAt.1 hline
    exact absurd haddr (by decide +kernel)

/-- The first of the two lines is flushed: the store is reported at the fence, not at the end,
where its last eight bytes are not persistent. -/
theorem halfFlushed_not_reported :
    wideStore.UnflushedIn ((flushedAt 0x78).drop 2) ∧ Balanced (flushedAt 0x78) ∧
      reallyHeld (flushedAt 0x78) = [] ∧ heldLocks (flushedAt 0x78) = [] ∧
      raceOpsPerApi [wideStore] (flushedAt 0x78 ++ [.apiEnd ⟨4, 1, []⟩]) =
        some ([⟨.fence ⟨3, 1, []⟩, {0x78}, ∅⟩], []) := by
  refine ⟨⟨0x80, by decide, fun hline => ?_⟩, balanced_flushedAt _, rfl, rfl, by decide +kernel⟩
  have haddr := flushedAndFenced_flushedAt.1 hline
  exact absurd haddr (by decide +kernel)

/-! ## Accesses that overlap in part -/

namespace TraceChecker

/-- A store and a load that overlap are reported at `p` and `q`, with no lock in common. -/
def OverlapAt (lpStores : List Store) (opsSt opsLd p q : List Op) : Prop :=
  ∃ s l, s ∈ lpStores ∧ ReportPoint opsSt s p ∧ DependentPoint opsLd l q ∧ rangeCmp s l = .eq ∧
    Disjoint (lockAddrs (heldLocks p)) (lockAddrs (acquiredLocks q))

/-- A store and a load with the same address are reported at `p` and `q`. -/
def SameAddressAt (lpStores : List Store) (opsSt opsLd p q : List Op) : Prop :=
  ∃ s l, s ∈ lpStores ∧ ReportPoint opsSt s p ∧ DependentPoint opsLd l q ∧ l.address = s.address

/-- The reports that are made after `p` in the one call and after `q` in the other are recorded
under the key. -/
def RecordedAt (res : TraceResult) (key : Nat × Nat) (opsSt opsLd p q : List Op) : Prop :=
  ∃ pair, res.Recorded key pair ∧ opsSt[p.length]? = some pair.raceSt.op ∧
    opsLd[q.length]? = some pair.raceLd.op

/-- In a list without duplicates, the operation at a place determines what comes before. -/
theorem eq_of_getElem?_length {ops p p' w w' : List Op} {op op' : Op} (hnodup : ops.Nodup)
    (hp : ops = p ++ op :: w) (hp' : ops = p' ++ op' :: w') (hop : ops[p.length]? = some op') :
    p = p' := by
  have hat : ops[p.length]? = some op := by simp [hp]
  cases hat.symm.trans hop
  exact (split_unique hnodup hp hp').1

/-- **What is recorded at two points** where a store and a load are reported without a common
lock. -/
theorem recordedAt_iff {c : TraceChecker} {entries : List Text}
    (hread : Trace.extractOperations false entries = some c.trace) {res : TraceResult}
    (hrun : c.init = some res) {a b : Nat} {ra rb : Nat × Nat}
    (hra : c.trace.opsApiRanges[a]? = some ra) (hrb : c.trace.opsApiRanges[b]? = some rb)
    (hne : a ≠ b) (hwin : |(a : Int) - b| < c.window) {p q : List Op}
    (hover : OverlapAt (c.selectStores (c.trace.perApi ra) a) (c.trace.perApi ra)
      (c.trace.perApi rb) p q) :
    RecordedAt res (a, b) (c.trace.perApi ra) (c.trace.perApi rb) p q ↔
      SameAddressAt (c.selectStores (c.trace.perApi ra) a) (c.trace.perApi ra)
        (c.trace.perApi rb) p q := by
  obtain ⟨s₀, l₀, hs₀, hp, hq, -, hdisj⟩ := hover
  obtain ⟨x, w, hsplit⟩ := hp.split
  obtain ⟨y, z, hsplit'⟩ := hq.split
  have hendSt := endsCall_of_getElem? hread hra
  have hendLd := endsCall_of_getElem? hread hrb
  constructor
  · rintro ⟨pair, hrec, hst, hld⟩
    obtain ⟨-, -, ra', rb', hra', hrb', hmemSt, hmemLd, hrace⟩ := (recorded_iff hrun).1 hrec
    cases hra.symm.trans hra'
    cases hrb.symm.trans hrb'
    obtain ⟨p', x', w', hp', hx'⟩ := Runs.mem_outputs.1 hmemSt
    obtain ⟨q', y', z', hq', hy'⟩ := Runs.mem_outputs.1 hmemLd
    rw [(reportsSt_spec hx').1] at hst
    rw [op_of_mem_reportsLd hy'] at hld
    obtain rfl := eq_of_getElem?_length (nodup_perApi hread ra) hsplit hp' hst
    obtain rfl := eq_of_getElem?_length (nodup_perApi hread rb) hsplit' hq' hld
    obtain ⟨⟨addr, haSt, haLd⟩, -⟩ := racing_iff.1 hrace
    obtain ⟨s, hs, hsa, hsp, -⟩ := (exists_report_store_at hendSt hp').1 ⟨_, hx', haSt, rfl⟩
    obtain ⟨l, hla, hlq, -⟩ := (exists_report_load_at hendLd hq').1 ⟨_, hy', haLd, rfl⟩
    exact ⟨s, l, hs, hsp, hlq, hla.trans hsa.symm⟩
  · rintro ⟨s, l, hs, hsp, hlq, haddr⟩
    obtain ⟨st, hst, haSt, hlocks⟩ := (exists_report_store_at hendSt hsplit).2
      ⟨s, hs, rfl, hsp, rfl⟩
    obtain ⟨ld, hld, haLd, hall⟩ := (exists_report_load_at hendLd hsplit').2 ⟨l, haddr, hlq, rfl⟩
    refine ⟨⟨st, ld⟩, (recorded_iff hrun).2 ⟨hne, hwin, ra, rb, hra, hrb, ?_, ?_, ?_⟩, ?_, ?_⟩
    · exact Runs.mem_outputs.2 ⟨p, x, w, hsplit, hst⟩
    · exact Runs.mem_outputs.2 ⟨q, y, z, hsplit', hld⟩
    · refine racing_iff.2 ⟨⟨s.address, haSt, haLd⟩, ?_⟩
      rwa [hlocks, hall]
    · rw [(reportsSt_spec hst).1, hsplit]
      simp
    · rw [op_of_mem_reportsLd hld, hsplit']
      simp

/-- **Overlapping accesses race** if and only if, wherever a store and a load that overlap are
reported, a store and a load that start at the same address are reported too. -/
theorem overlaps_recorded_iff {c : TraceChecker} {entries : List Text}
    (hread : Trace.extractOperations false entries = some c.trace) {res : TraceResult}
    (hrun : c.init = some res) {a b : Nat} {ra rb : Nat × Nat}
    (hra : c.trace.opsApiRanges[a]? = some ra) (hrb : c.trace.opsApiRanges[b]? = some rb)
    (hne : a ≠ b) (hwin : |(a : Int) - b| < c.window) :
    (∀ p q, OverlapAt (c.selectStores (c.trace.perApi ra) a) (c.trace.perApi ra)
        (c.trace.perApi rb) p q →
      RecordedAt res (a, b) (c.trace.perApi ra) (c.trace.perApi rb) p q) ↔
    ∀ p q, OverlapAt (c.selectStores (c.trace.perApi ra) a) (c.trace.perApi ra)
        (c.trace.perApi rb) p q →
      SameAddressAt (c.selectStores (c.trace.perApi ra) a) (c.trace.perApi ra)
        (c.trace.perApi rb) p q :=
  forall_congr' fun _ => forall_congr' fun _ => forall_congr' fun hover =>
    recordedAt_iff hread hrun hra hrb hne hwin hover

/-- Two calls: the first stores eight bytes at `0x100`, the second has a load. -/
def accessEntries (load : String) : List Text :=
  ["APIBegin,1,0", "Store,1,0x100,8,2a00000000000000,1,0", "Flush,1,0x100,2", "Fence,1,3",
    "APIEnd,1,4", "APIBegin,1,5", load, "Store,1,0x200,1,01,7,0", "APIEnd,1,8"].map String.toList

/-- The store of the first call. -/
def accessStore : Store := ⟨⟨1, 1, ['1']⟩, 0x100, 8, [0x2a, 0, 0, 0, 0, 0, 0, 0], 0⟩

/-- The first call. -/
def storeCall : List Op :=
  [.apiBegin ⟨0, 1, ['0']⟩, .store accessStore, .flush ⟨⟨2, 1, ['2']⟩, 0x100⟩, .fence ⟨3, 1, ['3']⟩,
    .apiEnd ⟨4, 1, ['4']⟩]

/-- The second call, with a load of four bytes at `a`. -/
def loadCall (a : Nat) : List Op :=
  [.apiBegin ⟨5, 1, ['5']⟩, .load ⟨⟨6, 1, ['6']⟩, a, 4⟩, .store ⟨⟨7, 1, ['7']⟩, 0x200, 1, [1], 0⟩,
    .apiEnd ⟨8, 1, ['8']⟩]

/-- The store is reported at the fence, and the load at the store after it. -/
theorem overlapAt_calls {a : Nat} (h₁ : 0x100 ≤ a) (h₂ : a < 0x108) :
    OverlapAt [accessStore] storeCall (loadCall a) (storeCall.take 3) ((loadCall a).take 2) := by
  refine ⟨accessStore, ⟨⟨6, 1, ['6']⟩, a, 4⟩, by simp,
    .fence (u := [.apiBegin ⟨0, 1, ['0']⟩]) (v := [.flush ⟨⟨2, 1, ['2']⟩, 0x100⟩]) rfl ?_ ?_,
    .store (u := [.apiBegin ⟨5, 1, ['5']⟩]) (v := []) rfl rfl ?_, ?_, ?_⟩
  · exact ⟨_, List.mem_singleton.2 rfl, by decide +kernel⟩
  · simp [PersistedIn, flushedAndFenced_cons]
  · exact not_flushedAndFenced_nil
  · rw [rangeCmp_eq_iff]
    simp only [getBaseAddress, getMaxAddress, accessStore]
    omega
  · exact Finset.disjoint_empty_left _

/-- What the checker makes of the two calls. -/
theorem exists_access_run (load : String) (a : Nat) (keys : List (Nat × Nat))
    (h : ((Trace.extractOperations false (accessEntries load)).bind fun trace =>
      (TraceChecker.init ⟨trace, 2, 0, 0, [], []⟩).map fun res =>
        (trace.perApi (0, 4), trace.perApi (5, 8), trace.opsApiRanges, res.racePairs.keys)) =
      some (storeCall, loadCall a, [(0, 4), (5, 8)], keys)) :
    ∃ trace res, Trace.extractOperations false (accessEntries load) = some trace ∧
      TraceChecker.init ⟨trace, 2, 0, 0, [], []⟩ = some res ∧ trace.perApi (0, 4) = storeCall ∧
      trace.perApi (5, 8) = loadCall a ∧ trace.opsApiRanges = [(0, 4), (5, 8)] ∧
      res.racePairs.keys = keys ∧
      TraceChecker.selectStores ⟨trace, 2, 0, 0, [], []⟩ storeCall 0 = [accessStore] := by
  obtain ⟨trace, htrace, hres⟩ := Option.bind_eq_some_iff.1 h
  obtain ⟨res, hres, heq⟩ := Option.map_eq_some_iff.1 hres
  simp only [Prod.mk.injEq] at heq
  exact ⟨trace, res, htrace, hres, heq.1, heq.2.1, heq.2.2.1, heq.2.2.2, rfl⟩

/-- The store and the load start at the same address: a race is recorded. -/
theorem overlaps_recorded_iff_sameStart :
    ∃ trace res, Trace.extractOperations false (accessEntries "Load,1,0x100,4,6") = some trace ∧
      TraceChecker.init ⟨trace, 2, 0, 0, [], []⟩ = some res ∧
      RecordedAt res (0, 1) storeCall (loadCall 0x100) (storeCall.take 3)
        ((loadCall 0x100).take 2) := by
  obtain ⟨trace, res, hread, hrun, hst, hld, hranges, -, hselect⟩ :=
    exists_access_run "Load,1,0x100,4,6" 0x100 [(0, 1)] (by decide +kernel)
  refine ⟨trace, res, hread, hrun, ?_⟩
  have hra : trace.opsApiRanges[0]? = some (0, 4) := by simp [hranges]
  have hrb : trace.opsApiRanges[1]? = some (5, 8) := by simp [hranges]
  have hwin : |((0 : Nat) : Int) - (1 : Nat)| < 2 := by decide
  have hiff := overlaps_recorded_iff (c := ⟨trace, 2, 0, 0, [], []⟩) hread hrun hra hrb
    (by decide) hwin
  simp only [hst, hld, hselect] at hiff
  refine hiff.2 ?_ _ _ (overlapAt_calls (by decide) (by decide))
  rintro p q ⟨s, l, hs, hp, hq, -⟩
  refine ⟨s, l, hs, hp, hq, ?_⟩
  have hl : Op.load l ∈ loadCall 0x100 := by
    cases hq with
    | store hops | apiEnd hops => simp [hops]
  simp [loadCall] at hl
  rw [List.mem_singleton.1 hs, hl]
  rfl

/-- The load starts in the middle of the store: they overlap, and no race is recorded. -/
theorem halfWord_not_recorded :
    ∃ trace res, Trace.extractOperations false (accessEntries "Load,1,0x104,4,6") = some trace ∧
      TraceChecker.init ⟨trace, 2, 0, 0, [], []⟩ = some res ∧ res.racePairs.keys = [] ∧
      ∃ p q, OverlapAt (TraceChecker.selectStores ⟨trace, 2, 0, 0, [], []⟩ (trace.perApi (0, 4)) 0)
        (trace.perApi (0, 4)) (trace.perApi (5, 8)) p q := by
  obtain ⟨trace, res, hread, hrun, hst, hld, -, hkeys, hselect⟩ :=
    exists_access_run "Load,1,0x104,4,6" 0x104 [] (by decide +kernel)
  refine ⟨trace, res, hread, hrun, hkeys, storeCall.take 3, (loadCall 0x104).take 2, ?_⟩
  rw [hst, hld, hselect]
  exact overlapAt_calls (by decide) (by decide)

end TraceChecker

end Durinn
