import Durinn.Lib.TextJoin
import Durinn.Race.StopPoint

/-!
# From the first phase to the second

The first phase finds races between the API calls of one long trace.  For each pair of calls with
races, `main.py` starts `mt_trace_main.py` with the addresses of the racing stores on the command
line; the second phase runs the two operations again, on their own, and looks for races in the trace
that it gets then, among the stores to these addresses.

* `readLps_lpsText` — the addresses arrive: those of the pair of calls, no more and no fewer, as one
  word of the command line that is not empty.
* `Follows.next`, `raceOpsPerApi_follows` — the detector of the second phase follows that of the
  first through a call that has the same shape: the instructions, threads, ids and values may
  differ.
* `checkRace_handOff` — no race is lost on the way: if the two calls do the same again, then the
  second phase finds each race of the pair, at the operation at the same place of the call.
-/

namespace Durinn

open PyText

/-! ## The command line -/

/-- `lp_addrs` of `main.py`: the addresses of the stores of all races of a pair of calls, each with
a comma after it. -/
def lpsText (order : SetOrder Nat) (racePairs : List RacePair) : Text :=
  racePairs.flatMap fun racePair =>
    (order.toList racePair.raceSt.deps).flatMap fun addr => Nat.toDigits 10 addr ++ [',']

/-- The argument `-lps` of `mt_trace_main.py`; `none` is a `ValueError`. -/
def readLps (arg : Text) : Option (Finset Nat) :=
  ((terminated ',' arg).mapM (natOfText 10)).map List.toFinset

/-- The addresses of the stores of all races of a pair of calls. -/
def raceAddrs (racePairs : List RacePair) : Finset Nat :=
  racePairs.toFinset.biUnion fun racePair => racePair.raceSt.deps

theorem mem_raceAddrs {racePairs : List RacePair} {addr : Nat} :
    addr ∈ raceAddrs racePairs ↔ ∃ racePair ∈ racePairs, addr ∈ racePair.raceSt.deps := by
  simp [raceAddrs]

theorem isDigit_of_mem_digits {n : Nat} {ch : Char} (h : ch ∈ Nat.toDigits 10 n) :
    ch.isDigit = true :=
  Nat.isDigit_of_mem_toDigits (by decide) (by decide) h

/-- Numbers with a comma after each are read back. -/
theorem readLps_numbers (addrs : List Nat) :
    readLps (addrs.flatMap fun addr => Nat.toDigits 10 addr ++ [',']) = some addrs.toFinset := by
  have hsplit : terminated ',' (addrs.flatMap fun addr => Nat.toDigits 10 addr ++ [',']) =
      addrs.map (Nat.toDigits 10) := by
    induction addrs with
    | nil => rfl
    | cons addr addrs ih =>
      have hcomma : ',' ∉ Nat.toDigits 10 addr := fun h =>
        absurd (isDigit_of_mem_digits h) (by decide)
      rw [List.flatMap_cons, List.append_assoc, List.map_cons, ← ih]
      exact terminated_append_cons hcomma _
  rw [readLps, hsplit, Runs.mapM_eq_some_iff.2, Option.map_some]
  rw [List.forall₂_map_left_iff, List.forall₂_same]
  exact fun addr _ => natOfText_toDigits (Or.inl rfl) addr

/-- **The addresses arrive.** -/
theorem readLps_lpsText (order : SetOrder Nat) (racePairs : List RacePair) :
    readLps (lpsText order racePairs) = some (raceAddrs racePairs) := by
  have hflat : lpsText order racePairs =
      (racePairs.flatMap fun racePair => order.toList racePair.raceSt.deps).flatMap fun addr =>
        Nat.toDigits 10 addr ++ [','] := by
    rw [lpsText, List.flatMap_assoc]
  rw [hflat, readLps_numbers]
  congr 1
  ext addr
  simp [mem_raceAddrs, order.mem_toList]

/-- The shell takes the addresses for one word. -/
def OneWord (arg : Text) : Prop := arg ≠ [] ∧ ∀ ch ∈ arg, ch.isDigit = true ∨ ch = ','

theorem oneWord_lpsText (order : SetOrder Nat) {racePairs : List RacePair}
    (hne : (raceAddrs racePairs).Nonempty) : OneWord (lpsText order racePairs) := by
  obtain ⟨addr, haddr⟩ := hne
  obtain ⟨racePair, hpair, haddr⟩ := mem_raceAddrs.1 haddr
  refine ⟨List.ne_nil_of_mem (a := ',') ?_, fun ch hch => ?_⟩
  · exact List.mem_flatMap.2 ⟨_, hpair, List.mem_flatMap.2
      ⟨addr, (order.mem_toList _ _).2 haddr, List.mem_append_right _ (List.mem_singleton_self _)⟩⟩
  · obtain ⟨_, -, hch⟩ := List.mem_flatMap.1 hch
    obtain ⟨_, -, hch⟩ := List.mem_flatMap.1 hch
    exact (List.mem_append.1 hch).imp isDigit_of_mem_digits List.mem_singleton.1

/-! ## Calls of the same shape -/

/-- What the detectors look at in an operation: its kind, and the addresses that it is about. -/
inductive Shape where
  | store (address size : Nat)
  | load (address size : Nat)
  | flush (address : Nat)
  | fence
  | lock (address : Nat)
  | unlock (address : Nat)
  | apiBegin
  | apiEnd
  deriving DecidableEq

/-- The shape of an operation, without its instruction, thread, id and value. -/
def Op.shape : Op → Shape
  | .store s => .store s.address s.size
  | .load l => .load l.address l.size
  | .flush f => .flush f.address
  | .fence _ => .fence
  | .lock l => .lock l.address
  | .unlock u => .unlock u.address
  | .apiBegin _ => .apiBegin
  | .apiEnd _ => .apiEnd

/-- What a flush and the detectors see of a cache: where its operations begin and end, and their
marks. -/
def Cache.extents {α : Type} [Rangeable α] (c : Cache α) : List (Nat × Nat × FlushMark) :=
  c.ops.map fun e => (getBaseAddress e.op, getMaxAddress e.op, e.flushing)

namespace Cache

variable {α : Type} [Rangeable α] {c c' : Cache α}

theorem extents_acceptOp (h : c.extents = c'.extents) {x x' : α}
    (hbase : getBaseAddress x = getBaseAddress x') (hmax : getMaxAddress x = getMaxAddress x') :
    (c.acceptOp x).extents = (c'.acceptOp x').extents := by
  unfold extents at h ⊢
  simp only [acceptOp, List.map_append, h, List.map_cons, List.map_nil, hbase, hmax]

/-- A flush only looks at extents. -/
theorem extents_acceptFlush (h : c.extents = c'.extents) {f f' : Flush}
    (haddr : f.address = f'.address) : (c.acceptFlush f).extents = (c'.acceptFlush f').extents := by
  have hmap : ∀ (d : Cache α) (g : Flush), (d.acceptFlush g).extents = d.extents.map fun e =>
      if g.address < e.2.1 ∧ e.1 < g.address + cachelineBytes then (e.1, e.2.1, .flushing)
      else e := by
    intro d g
    simp only [extents, acceptFlush, List.map_map]
    refine List.map_congr_left fun e _ => ?_
    have hin : g.isInFlush e.op = true ↔ g.address < getMaxAddress e.op ∧
        getBaseAddress e.op < g.address + cachelineBytes := by
      rw [Flush.isInFlush, decide_eq_true_eq, rangeCmp_eq_iff]
      rfl
    simp only [Function.comp_apply, hin]
    split <;> rfl
  rw [hmap, hmap, h, haddr]

theorem extents_acceptFence (h : c.extents = c'.extents) :
    c.acceptFence.extents = c'.acceptFence.extents := by
  have hfilter : ∀ d : Cache α,
      d.acceptFence.extents = d.extents.filter fun e => e.2.2 = .clear := by
    intro d
    rw [extents, extents, List.filter_map]
    rfl
  rw [hfilter, hfilter, h]

theorem isEmpty_of_extents (h : c.extents = c'.extents) : c.isEmpty = c'.isEmpty := by
  have hempty : ∀ d : Cache α, d.isEmpty = d.extents.isEmpty := by
    intro d
    rw [extents, List.isEmpty_map]
    rfl
  rw [hempty, hempty, h]

theorem map_getAllOps (h : c.extents = c'.extents) :
    c.getAllOps.map getBaseAddress = c'.getAllOps.map getBaseAddress := by
  have hmap : ∀ d : Cache α, d.getAllOps.map getBaseAddress = d.extents.map Prod.fst := by
    intro d
    rw [getAllOps, extents, List.map_map, List.map_map]
    rfl
  rw [hmap, hmap, h]

theorem map_getFlushingOps (h : c.extents = c'.extents) :
    c.getFlushingOps.map getBaseAddress = c'.getFlushingOps.map getBaseAddress := by
  have hmap : ∀ d : Cache α, d.getFlushingOps.map getBaseAddress =
      (d.extents.filter fun e => e.2.2 = .flushing).map Prod.fst := by
    intro d
    rw [getFlushingOps, extents, List.filter_map, List.map_map, List.map_map]
    rfl
  rw [hmap, hmap, h]

end Cache

/-- Unlocking only looks at addresses. -/
theorem map_removeLock {locks locks' : List Lock} {u u' : UnLock}
    (h : locks.map (fun l => l.address) = locks'.map fun l => l.address)
    (haddr : u.address = u'.address) :
    (removeLock locks u).map (fun l => l.address) =
      (removeLock locks' u').map fun l => l.address := by
  have hmap : ∀ (ls : List Lock) (v : UnLock), (removeLock ls v).map (fun l => l.address) =
      ((ls.map fun l => l.address).reverse.eraseP fun a =>
        v.address < a + 8 ∧ a < v.address + 8).reverse := by
    intro ls v
    have hcmp : (fun lock : Lock => decide (rangeCmp lock v = .eq)) =
        (fun a => decide (v.address < a + 8 ∧ a < v.address + 8)) ∘ fun l : Lock => l.address := by
      funext lock
      rw [Function.comp_apply, decide_eq_decide, rangeCmp_eq_iff]
      rfl
    rw [removeLock, hcmp, ← List.map_reverse, List.eraseP_map, List.map_reverse]
  rw [hmap, hmap, h, haddr]

theorem lockAddrs_eq {locks locks' : List Lock}
    (h : locks.map (fun l => l.address) = locks'.map fun l => l.address) :
    lockAddrs locks = lockAddrs locks' := by
  rw [lockAddrs, h, lockAddrs]

/-! ## One detector follows the other -/

/-- The sets of a report. -/
def RaceOp.sets (r : RaceOp) : Finset Nat × Finset Nat := (r.deps, r.lockSet)

/-- A report of the stores of one call is found again in another: at the operation at the same
place, with the same locks, and with no store fewer. -/
def Refound (ops ops' : List Op) (r r' : RaceOp) : Prop :=
  r.deps ⊆ r'.deps ∧ r.lockSet = r'.lockSet ∧ ∃ k : Nat, ops[k]? = some r.op ∧ ops'[k]? = some r'.op

theorem Refound.append {done done' : List Op} {r r' : RaceOp} (h : Refound done done' r r')
    (op op' : Op) :
    Refound (done ++ [op]) (done' ++ [op']) r r' := by
  obtain ⟨hdeps, hlocks, k, hk, hk'⟩ := h
  have hlast : ∀ {ops : List Op} {o : Op} (x : Op),
      ops[k]? = some o → (ops ++ [x])[k]? = some o := by
    intro ops o x ho
    rwa [List.getElem?_append_left (List.getElem?_eq_some_iff.1 ho).1]
  exact ⟨hdeps, hlocks, k, hlast op hk, hlast op' hk'⟩

namespace TwoOps

/-- The second detector after the operations `done'`, if the first one is in the state `st` after
`done`: it holds the same locks and caches the same extents, has the same reports of loads, and has
found again the reports of stores to addresses in `lps`. -/
structure Follows (lps : Finset Nat) (done done' : List Op) (st st' : RaceState) : Prop where
  length : done.length = done'.length
  held : st.locks = heldLocks done
  locks : st.locks.map (fun l => l.address) = st'.locks.map fun l => l.address
  locksAll : st.locksAll.map (fun l => l.address) = st'.locksAll.map fun l => l.address
  cacheSt : st.cacheSt.extents = st'.cacheSt.extents
  cacheLd : st.cacheLd.extents = st'.cacheLd.extents
  noStores : st.noStores = st'.noStores
  loads : st.raceLdList.map RaceOp.sets = st'.raceLdList.map RaceOp.sets
  stores : ∀ r ∈ st.raceStList, r.deps ⊆ lps → ∃ r' ∈ st'.raceStList, Refound done done' r r'

theorem sets_reportLoads {loads loads' : List Load} {locks locks' : List Lock}
    (hloads : loads.map getBaseAddress = loads'.map getBaseAddress)
    (hlocks : locks.map (fun l => l.address) = locks'.map fun l => l.address) (op op' : Op) :
    (reportLoads op loads locks).sets = (reportLoads op' loads' locks').sets := by
  show ((loads.map getBaseAddress).toFinset, lockAddrs locks) =
    ((loads'.map getBaseAddress).toFinset, lockAddrs locks')
  rw [hloads, lockAddrs_eq hlocks]

variable {lps : Finset Nat} {lpStores : List Store} {done done' : List Op} {st st' : RaceState}

/-- The report of a group of stores is found again in the report of those to addresses in `lps`. -/
theorem refound_reportStores {stores stores' : List Store} {locks locks' : List Lock} {op op' : Op}
    (hlen : done.length = done'.length)
    (hstores : stores.map getBaseAddress = stores'.map getBaseAddress)
    (hlocks : locks.map (fun l => l.address) = locks'.map fun l => l.address) {r : RaceOp}
    (hr : r ∈ Durinn.reportStores op (stores.filter lpStores.contains) locks)
    (hlps : r.deps ⊆ lps) :
    Refound (done ++ [op]) (done' ++ [op']) r (reportStores lps op' stores' locks') := by
  obtain rfl :
      r = RaceOp.new op ((stores.filter lpStores.contains).map fun s => s.address) locks := by
    unfold Durinn.reportStores at hr
    split at hr
    · exact List.mem_singleton.1 hr
    · cases hr
  refine ⟨fun addr haddr => ?_, lockAddrs_eq hlocks, done.length, by simp [RaceOp.new],
    by simp [hlen, reportStores, RaceOp.new]⟩
  have hlp := hlps haddr
  obtain ⟨s, hs, rfl⟩ := List.mem_map.1 (List.mem_toFinset.1 haddr)
  have hmem : s.address ∈ stores'.map getBaseAddress :=
    hstores ▸ List.mem_map_of_mem (List.mem_filter.1 hs).1
  obtain ⟨s', hs', haddr'⟩ := List.mem_map.1 hmem
  replace haddr' : s'.address = s.address := haddr'
  rw [← haddr'] at hlp ⊢
  exact List.mem_toFinset.2 (List.mem_map_of_mem (List.mem_filter.2 ⟨hs', decide_eq_true hlp⟩))

/-- The reports of stores so far stay found. -/
theorem Follows.stores_append (h : Follows lps done done' st st') (op op' : Op) :
    ∀ r ∈ st.raceStList, r.deps ⊆ lps →
      ∃ r' ∈ st'.raceStList, Refound (done ++ [op]) (done' ++ [op']) r r' := by
  intro r hr hlps
  obtain ⟨r', hr', hfound⟩ := h.stores r hr hlps
  exact ⟨r', hr', hfound.append op op'⟩

/-- A group of stores is reported by both. -/
theorem Follows.stores_report (h : Follows lps done done' st st') {stores stores' : List Store}
    (hstores : stores.map getBaseAddress = stores'.map getBaseAddress) (op op' : Op) :
    ∀ r ∈ st.raceStList ++ Durinn.reportStores op (stores.filter lpStores.contains) st.locks,
      r.deps ⊆ lps → ∃ r' ∈ st'.raceStList ++ [reportStores lps op' stores' st'.locks],
        Refound (done ++ [op]) (done' ++ [op']) r r' := by
  intro r hr hlps
  rcases List.mem_append.1 hr with hr | hr
  · obtain ⟨r', hr', hfound⟩ := h.stores_append op op' r hr hlps
    exact ⟨r', List.mem_append_left _ hr', hfound⟩
  · exact ⟨_, List.mem_append_right _ (List.mem_singleton_self _),
      refound_reportStores h.length hstores h.locks hr hlps⟩

/-- **One operation** of the first walk is followed by the second, if the operation is of the same
shape and no lock is held at the end of the call. -/
theorem Follows.next {op op' : Op} {st₁ : RaceState} (h : Follows lps done done' st st')
    (hshape : op.shape = op'.shape) (hlocks : ∀ b, op = .apiEnd b → heldLocks done = [])
    (hstep : st.step lpStores op = some st₁) :
    ∃ st₁', step lps st' op' = some st₁' ∧
      Follows lps (done ++ [op]) (done' ++ [op']) st₁ st₁' := by
  have hlen : (done ++ [op]).length = (done' ++ [op']).length := by simp [h.length]
  have hheld := heldLocks_append done op
  have hold := h.stores_append op op'
  have hloads := sets_reportLoads (Cache.map_getAllOps h.cacheLd) h.locksAll op op'
  cases op with
  | store s =>
    cases op' with
    | store s' =>
      injection hshape with haddr hsize
      cases hstep
      have hmax : s.address + s.size = s'.address + s'.size := by rw [haddr, hsize]
      refine ⟨_, rfl, hlen, h.held.trans hheld.symm, h.locks, h.locksAll,
        Cache.extents_acceptOp h.cacheSt haddr hmax, rfl, rfl, ?_, hold⟩
      simp only [Cache.isEmpty_of_extents h.cacheLd]
      split
      · exact h.loads
      · simp only [List.map_append, List.map_cons, List.map_nil, h.loads, hloads]
    | _ => cases hshape
  | load l =>
    cases op' with
    | load l' =>
      injection hshape with haddr hsize
      cases hstep
      have hmax : l.address + l.size = l'.address + l'.size := by rw [haddr, hsize]
      exact ⟨_, rfl, hlen, h.held.trans hheld.symm, h.locks, h.locksAll, h.cacheSt,
        Cache.extents_acceptOp h.cacheLd haddr hmax, h.noStores, h.loads, hold⟩
    | _ => cases hshape
  | flush f =>
    cases op' with
    | flush f' =>
      injection hshape with haddr
      cases hstep
      exact ⟨_, rfl, hlen, h.held.trans hheld.symm, h.locks, h.locksAll,
        Cache.extents_acceptFlush h.cacheSt haddr, Cache.extents_acceptFlush h.cacheLd haddr,
        h.noStores, h.loads, hold⟩
    | _ => cases hshape
  | fence b =>
    cases op' with
    | fence b' =>
      cases hstep
      exact ⟨_, rfl, hlen, h.held.trans hheld.symm, h.locks, h.locksAll,
        Cache.extents_acceptFence h.cacheSt, Cache.extents_acceptFence h.cacheLd, h.noStores,
        h.loads, h.stores_report (Cache.map_getFlushingOps h.cacheSt) _ _⟩
    | _ => cases hshape
  | lock l =>
    cases op' with
    | lock l' =>
      injection hshape with haddr
      cases hstep
      refine ⟨_, rfl, hlen, ?_, ?_, ?_, h.cacheSt, h.cacheLd, h.noStores, h.loads, hold⟩
      · rw [hheld, h.held]
      · simp only [List.map_append, List.map_cons, List.map_nil, h.locks, haddr]
      · simp only [List.map_append, List.map_cons, List.map_nil, h.locksAll, haddr]
    | _ => cases hshape
  | unlock u =>
    cases op' with
    | unlock u' =>
      injection hshape with haddr
      simp only [RaceState.step, Option.ite_none_left_eq_some, Option.some.injEq] at hstep
      obtain ⟨hne, rfl⟩ := hstep
      have hne' : ¬st'.locks.length = 0 := by
        rwa [← List.length_map (f := fun l : Lock => l.address), ← h.locks, List.length_map]
      refine ⟨_, if_neg hne', hlen, ?_, map_removeLock h.locks haddr, h.locksAll, h.cacheSt,
        h.cacheLd, h.noStores, h.loads, hold⟩
      rw [hheld, h.held]
    | _ => cases hshape
  | apiBegin b =>
    cases op' with
    | apiBegin b' =>
      cases hstep
      exact ⟨_, rfl, hlen, h.held.trans hheld.symm, h.locks, h.locksAll, h.cacheSt, h.cacheLd,
        h.noStores, h.loads, hold⟩
    | _ => cases hshape
  | apiEnd b =>
    cases op' with
    | apiEnd b' =>
      have hnil : st.locks.length = 0 := by rw [h.held, hlocks b rfl]; rfl
      have hnil' : st'.locks.length = 0 := by
        rwa [← List.length_map (f := fun l : Lock => l.address), ← h.locks, List.length_map]
      replace hstep := (if_pos hnil).symm.trans hstep
      cases hstep
      refine ⟨_, if_pos hnil', hlen, h.held.trans hheld.symm, h.locks, h.locksAll, h.cacheSt,
        h.cacheLd, h.noStores, ?_, ?_⟩
      · simp only [h.noStores]
        split
        · simp only [List.map_append, List.map_cons, List.map_nil, h.loads, hloads]
        · exact h.loads
      · simp only [Cache.isEmpty_of_extents h.cacheSt]
        split
        · exact hold
        · exact h.stores_report (Cache.map_getAllOps h.cacheSt) _ _
    | _ => cases hshape

/-- **The walk through a call** is followed by the walk through a call of the same shape. -/
theorem raceOpsPerApi_follows (lps : Finset Nat) {ops ops' : List Op}
    (hshape : ops.map Op.shape = ops'.map Op.shape) (hlocks : NoLockAtEnd ops)
    {lists : List RaceOp × List RaceOp}
    (hrun : Durinn.raceOpsPerApi lpStores ops = some lists) :
    ∃ lists', raceOpsPerApi lps ops' = some lists' ∧
      lists.2.map RaceOp.sets = lists'.2.map RaceOp.sets ∧
      ∀ r ∈ lists.1, r.deps ⊆ lps → ∃ r' ∈ lists'.1, Refound ops ops' r r' := by
  obtain ⟨st, hst, rfl⟩ := Option.map_eq_some_iff.1 hrun
  have hwalk : ∃ st', ops'.foldlM (step lps) RaceState.start = some st' ∧
      Follows lps ops ops' st st' := by
    refine Runs.simulate hshape (Follows lps)
      ⟨rfl, rfl, rfl, rfl, rfl, rfl, rfl, rfl, fun r hr => absurd hr List.not_mem_nil⟩ ?_ hst
    rintro done done' op op' s s' t ⟨v, hv⟩ hshape h hstep
    refine h.next hshape ?_ hstep
    rintro b rfl
    have hend := hlocks done.length (by simp [← hv]) (by simp [← hv, Op.isApiEnd])
    rwa [← hv, List.append_assoc, List.take_left] at hend
  obtain ⟨st', hst', h⟩ := hwalk
  exact ⟨_, Option.map_eq_some_iff.2 ⟨st', hst', rfl⟩, h.loads, h.stores⟩

theorem TraceResult.get?_record (res : TraceResult) (key key' : Nat × Nat) (pairs : List RacePair) :
    (res.record key pairs).racePairs.get? key' =
      if key' = key ∧ 0 < pairs.length then some pairs else res.racePairs.get? key' := by
  unfold record
  split
  · simp [Dict.get?_set, *]
  · simp [*]

end TwoOps

/-- The races that the second phase finds in a trace of two calls. -/
theorem MTChecker.checkRace_eq {trace : Trace} {lps : Finset Nat} {r₀ r₁ : Nat × Nat}
    (hcalls : trace.opsApiRanges = [r₀, r₁]) {lists₀ lists₁ : List RaceOp × List RaceOp}
    (h₀ : TwoOps.raceOpsPerApi lps (trace.perApi r₀) = some lists₀)
    (h₁ : TwoOps.raceOpsPerApi lps (trace.perApi r₁) = some lists₁) :
    checkRace trace lps = some (lists₀.1.flatMap fun st =>
      (lists₁.2.filter fun ld => racing st ld).map fun ld => ⟨st, ld⟩) := by
  have hlists : (TwoOps.TraceChecker.mk trace 2 lps).initRaceOpList =
      some ⟨[lists₀.1, lists₁.1], [lists₀.2, lists₁.2], Dict.empty⟩ := by
    simp [TwoOps.TraceChecker.initRaceOpList, TwoOps.TraceChecker.initRaceOpListPerApi, hcalls, h₀,
      h₁]
  have hpairs : apiPairs 2 2 = [(0, 1)] := by decide
  have hlen : trace.opsApiRanges.length = 2 := by rw [hcalls]; rfl
  rw [checkRace, if_neg (not_not.2 hlen), TwoOps.TraceChecker.init, hlists, Option.bind_some]
  simp only [TwoOps.TraceChecker.initRacePairs, hlen, List.length_cons, List.length_nil, and_self,
    if_true, hpairs, List.foldlM_cons, List.foldlM_nil]
  simp only [TwoOps.TraceResult.initRacePairsPer2Apis, List.getElem?_cons_zero,
    List.getElem?_cons_succ, Option.bind_eq_bind, Option.bind_some, Option.pure_def,
    Option.map_some, TwoOps.TraceResult.get?_record, Dict.get?_empty]
  rw [if_neg fun h => absurd h.1 (by decide)]
  generalize lists₀.1.flatMap _ = races
  by_cases hpos : 0 < races.length
  · rw [if_pos ⟨trivial, hpos⟩]
    rfl
  · rw [if_neg fun h => hpos h.2, List.length_eq_zero_iff.1 (Nat.eq_zero_of_not_pos hpos)]
    rfl

/-! ## The hand-off -/

namespace TraceChecker

variable {c : TraceChecker} {res : TraceResult}

/-- A checker that finishes has walked through every call. -/
theorem raceOpsPerApi_of_init (hrun : c.init = some res) {a : Nat} {r : Nat × Nat}
    (hr : c.trace.opsApiRanges[a]? = some r) :
    raceOpsPerApi (c.selectStores (c.trace.perApi r) a) (c.trace.perApi r) =
      some (Runs.outputs (reportsSt (c.selectStores (c.trace.perApi r) a)) (c.trace.perApi r),
        Runs.outputs reportsLd (c.trace.perApi r)) := by
  obtain ⟨res₀, hlists, -⟩ := Option.bind_eq_some_iff.1 hrun
  have hmem : (r, a) ∈ c.trace.opsApiRanges.zipIdx := List.mem_iff_getElem?.2 ⟨a, by simp [hr]⟩
  obtain ⟨res₁, res₂, hstep⟩ := Runs.exists_step hlists hmem
  obtain ⟨lists, hlists, -⟩ := Option.bind_eq_some_iff.1 hstep
  exact hlists.trans (congrArg some (raceOpsPerApi_eq hlists))

/-- **No race is lost on the way to the second phase.**  The first phase has recorded races for the
calls `i` and `j`, at the end of which its list of held locks is empty.  If the second phase gets a
trace of two calls that have the shapes of these, then the command line that it is started with is
in order, and among the stores to the addresses on it, it finds every one of these races: at the
operation at the same place of the first call, with no racing store missing, and with an access of
the second call to the same addresses under the same locks. -/
theorem checkRace_handOff (hrun : c.init = some res) {i j : Nat} {pairs : List RacePair}
    (hpairs : res.racePairs.get? (i, j) = some pairs) {ri rj : Nat × Nat}
    (hri : c.trace.opsApiRanges[i]? = some ri) (hrj : c.trace.opsApiRanges[j]? = some rj)
    (hlocki : TwoOps.NoLockAtEnd (c.trace.perApi ri))
    (hlockj : TwoOps.NoLockAtEnd (c.trace.perApi rj)) (order : SetOrder Nat) {trace : Trace}
    {r₀ r₁ : Nat × Nat} (hcalls : trace.opsApiRanges = [r₀, r₁])
    (h₀ : (c.trace.perApi ri).map Op.shape = (trace.perApi r₀).map Op.shape)
    (h₁ : (c.trace.perApi rj).map Op.shape = (trace.perApi r₁).map Op.shape) :
    OneWord (lpsText order pairs) ∧ ∃ lps races, readLps (lpsText order pairs) = some lps ∧
      MTChecker.checkRace trace lps = some races ∧
      ∀ pair ∈ pairs, ∃ race ∈ races,
        Refound (c.trace.perApi ri) (trace.perApi r₀) pair.raceSt race.raceSt ∧
          race.raceLd.sets = pair.raceLd.sets := by
  have hrecorded : ∀ pair ∈ pairs,
      pair.raceSt ∈ Runs.outputs (reportsSt (c.selectStores (c.trace.perApi ri) i))
          (c.trace.perApi ri) ∧
        pair.raceLd ∈ Runs.outputs reportsLd (c.trace.perApi rj) ∧
        racing pair.raceSt pair.raceLd = true := by
    intro pair hpair
    obtain ⟨-, -, ra, rb, hra, hrb, hraces⟩ := (recorded_iff hrun).1 ⟨pairs, hpairs, hpair⟩
    cases hri.symm.trans hra
    cases hrj.symm.trans hrb
    exact hraces
  obtain ⟨lists₀, hlists₀, -, hsts⟩ := TwoOps.raceOpsPerApi_follows (raceAddrs pairs) h₀ hlocki
    (raceOpsPerApi_of_init hrun hri)
  obtain ⟨lists₁, hlists₁, hlds, -⟩ := TwoOps.raceOpsPerApi_follows (raceAddrs pairs) h₁ hlockj
    (raceOpsPerApi_of_init hrun hrj)
  refine ⟨oneWord_lpsText order ?_, _, _, readLps_lpsText order pairs,
    MTChecker.checkRace_eq hcalls hlists₀ hlists₁, fun pair hpair => ?_⟩
  · -- there is a pair for each key, and a pair that races has an address
    have hkey : (i, j) ∈ res.racePairs.keys := by simp [Dict.mem_keys, hpairs]
    obtain ⟨pair, pairs', hpairs', hpair⟩ := (noEmptyKeys_init hrun (i, j)).1 hkey
    cases hpairs.symm.trans hpairs'
    obtain ⟨⟨addr, haddr, -⟩, -⟩ := racing_iff.1 (hrecorded pair hpair).2.2
    exact ⟨addr, mem_raceAddrs.2 ⟨pair, hpair, haddr⟩⟩
  · obtain ⟨hst, hld, hrace⟩ := hrecorded pair hpair
    obtain ⟨st, hst', hfound⟩ := hsts _ hst fun addr haddr => mem_raceAddrs.2 ⟨pair, hpair, haddr⟩
    have hmem : pair.raceLd.sets ∈ lists₁.2.map RaceOp.sets := hlds ▸ List.mem_map_of_mem hld
    obtain ⟨ld, hld', hsets⟩ := List.mem_map.1 hmem
    have hdeps : ld.deps = pair.raceLd.deps := congrArg Prod.fst hsets
    have hlockSet : ld.lockSet = pair.raceLd.lockSet := congrArg Prod.snd hsets
    obtain ⟨⟨addr, haddr, haddr'⟩, hdisj⟩ := racing_iff.1 hrace
    have hracing : racing st ld = true := racing_iff.2
      ⟨⟨addr, hfound.1 haddr, hdeps ▸ haddr'⟩, by rwa [hlockSet, ← hfound.2.1]⟩
    refine ⟨⟨st, ld⟩, List.mem_flatMap.2 ⟨st, hst', List.mem_map.2 ⟨ld, ?_, rfl⟩⟩, hfound, hsets⟩
    exact List.mem_filter.2 ⟨hld', hracing⟩

/-- The operations of `twoCallEntries` once more, on another thread and with another value. -/
def twoCallEntriesAgain : List Text :=
  ["APIBegin,7,put", "Lock,7,0x900,a.c:1", "Store,7,0x100,1,2b,a.c:2,0", "Flush,7,0x108,a.c:3",
    "Fence,7,a.c:4", "UnLock,7,0x900,a.c:5", "APIEnd,7,put",
    "APIBegin,7,get", "Lock,7,0x980,a.c:6", "Load,7,0x100,1,a.c:7", "Store,7,0x200,1,02,a.c:8,0",
    "UnLock,7,0x980,a.c:9", "APIEnd,7,get"].map String.toList

theorem checkRace_handOff_twoCalls :
    ∃ c res pairs trace ri r₀, twoCallChecker = some c ∧ c.init = some res ∧
      res.racePairs.get? (0, 1) = some pairs ∧
      Trace.extractOperations false twoCallEntriesAgain = some trace ∧
      OneWord (lpsText default pairs) ∧ ∃ lps races, readLps (lpsText default pairs) = some lps ∧
        MTChecker.checkRace trace lps = some races ∧
        ∀ pair ∈ pairs, ∃ race ∈ races,
          Refound (c.trace.perApi ri) (trace.perApi r₀) pair.raceSt race.raceSt ∧
            race.raceLd.sets = pair.raceLd.sets := by
  have hfacts : (twoCallChecker.bind fun c => c.init.bind fun res =>
      (res.racePairs.get? (0, 1)).bind fun pairs =>
      (Trace.extractOperations false twoCallEntriesAgain).map fun trace =>
        (c, res, pairs, trace)).any
        (fun x => decide (x.1.trace.opsApiRanges = [(0, 6), (7, 12)] ∧
          x.2.2.2.opsApiRanges = [(0, 6), (7, 12)] ∧
          TwoOps.NoLockAtEnd (x.1.trace.perApi (0, 6)) ∧
          TwoOps.NoLockAtEnd (x.1.trace.perApi (7, 12)) ∧
          (x.1.trace.perApi (0, 6)).map Op.shape = (x.2.2.2.perApi (0, 6)).map Op.shape ∧
          (x.1.trace.perApi (7, 12)).map Op.shape = (x.2.2.2.perApi (7, 12)).map Op.shape)) =
      true := by decide +kernel
  obtain ⟨⟨c, res, pairs, trace⟩, hx, hfacts⟩ := (Option.any_eq_true _ _).1 hfacts
  obtain ⟨c', hc, hx⟩ := Option.bind_eq_some_iff.1 hx
  obtain ⟨res', hres, hx⟩ := Option.bind_eq_some_iff.1 hx
  obtain ⟨pairs', hpairs, hx⟩ := Option.bind_eq_some_iff.1 hx
  obtain ⟨trace', htrace, heq⟩ := Option.map_eq_some_iff.1 hx
  cases heq
  obtain ⟨hcalls, hcalls', hlocki, hlockj, h₀, h₁⟩ := of_decide_eq_true hfacts
  exact ⟨c, res, pairs, trace, (0, 6), (0, 6), hc, hres, hpairs, htrace,
    checkRace_handOff hres hpairs (by rw [hcalls]; rfl) (by rw [hcalls]; rfl) hlocki hlockj
      default hcalls' h₀ h₁⟩

end TraceChecker

end Durinn
