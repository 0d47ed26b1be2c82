import Durinn.Race.TwoOps
import Durinn.Trace.Indices

/-!
# Where the debugger stops

The two-thread phase stops the first of two operations at the fence that a race was reported at,
and lets the other one run.  The debugger is given the source line of the fence and how often the
line is passed before: `MTChecker.get_hit_count` counts, by position, the fences of the first API
call that the map of source lines puts on this line, up to the fence in question, which it knows by
its id.

* `op_mem_of_mem_raceStList`, `raceSt_mem` — the stores of a race are reported at an operation of
  the call that the race is recorded under.
* `fence_position` — the id of a fence is its position, and lies strictly inside the range of its
  call.
* `hitLoop_spec`, `getHitCount_eq` — the count is the number of fences on the line so far.
* `getHitCount_spec` — the fence of a race is the one at which the line is passed for that time, and
  no other fence of the call has its count.
-/

namespace Durinn

namespace TwoOps

/-! ## The operation of a report -/

/-- Stores are reported at an operation of the call. -/
theorem op_mem_of_mem_raceStList {lps : Finset Nat} {tracePerApi : List Op}
    {lists : List RaceOp × List RaceOp} (h : raceOpsPerApi lps tracePerApi = some lists) :
    ∀ x ∈ lists.1, x.op ∈ tracePerApi := by
  obtain ⟨st, hst, rfl⟩ := Option.map_eq_some_iff.1 h
  refine Runs.invariant (fun done st => ∀ x ∈ st.raceStList, x.op ∈ done)
    (by simp [RaceState.start]) ?_ hst
  intro done op st st' _ ih hstep x hx
  rw [List.mem_append, List.mem_singleton]
  -- only fences and the end of the call add a report
  cases op with
  | store s | load l | flush f | lock l | apiBegin b =>
    cases hstep
    exact Or.inl (ih x hx)
  | unlock u =>
    simp only [step, Option.ite_none_left_eq_some, Option.some.injEq] at hstep
    rw [← hstep.2] at hx
    exact Or.inl (ih x hx)
  | fence b =>
    cases hstep
    rcases List.mem_append.1 hx with hx | hx
    · exact Or.inl (ih x hx)
    · rw [List.mem_singleton.1 hx]
      exact Or.inr rfl
  | apiEnd b =>
    simp only [step, Option.ite_none_right_eq_some, Option.some.injEq] at hstep
    rw [← hstep.2] at hx
    simp only at hx
    split at hx
    · exact Or.inl (ih x hx)
    · rcases List.mem_append.1 hx with hx | hx
      · exact Or.inl (ih x hx)
      · rw [List.mem_singleton.1 hx]
        exact Or.inr rfl

/-- The store side of each recorded pair is a report of the call that its key names first. -/
def TraceResult.Filed (res : TraceResult) : Prop :=
  ∀ key pairs, res.racePairs.get? key = some pairs → ∀ pair ∈ pairs,
    ∃ sts, res.raceStList[key.1]? = some sts ∧ pair.raceSt ∈ sts

theorem TraceResult.Filed.record {res : TraceResult} (h : res.Filed) {key : Nat × Nat}
    {pairs : List RacePair} (hpairs : ∀ pair ∈ pairs,
      ∃ sts, res.raceStList[key.1]? = some sts ∧ pair.raceSt ∈ sts) :
    (res.record key pairs).Filed := by
  unfold TraceResult.record
  split
  · intro key' pairs' hget
    rw [Dict.get?_set] at hget
    split at hget
    · next hkey =>
      cases hget
      rw [hkey]
      exact hpairs
    · exact h key' pairs' hget
  · exact h

theorem TraceResult.raceStList_record (res : TraceResult) (key : Nat × Nat)
    (pairs : List RacePair) : (res.record key pairs).raceStList = res.raceStList := by
  unfold record
  split <;> rfl

theorem TraceResult.Filed.initRacePairsPer2Apis {res res' : TraceResult} {i j : Nat}
    (h : res.Filed) (hstep : res.initRacePairsPer2Apis i j = some res') :
    res'.Filed ∧ res'.raceStList = res.raceStList := by
  simp only [TraceResult.initRacePairsPer2Apis, Option.bind_eq_bind, Option.bind_eq_some_iff]
    at hstep
  obtain ⟨stsI, hstsI, ldsJ, -, ldsI, -, stsJ, hstsJ, hstep⟩ := hstep
  cases hstep
  refine ⟨(h.record ?_).record ?_, by rw [raceStList_record, raceStList_record]⟩
  · intro pair hpair
    obtain ⟨st, hst, hpair⟩ := List.mem_flatMap.1 hpair
    obtain ⟨ld, -, rfl⟩ := List.mem_map.1 hpair
    exact ⟨stsI, hstsI, hst⟩
  · intro pair hpair
    obtain ⟨ld, -, hpair⟩ := List.mem_flatMap.1 hpair
    obtain ⟨st, hst, rfl⟩ := List.mem_map.1 hpair
    rw [raceStList_record]
    exact ⟨stsJ, hstsJ, (List.mem_filter.1 hst).1⟩

namespace TraceChecker

variable {c : TraceChecker} {res : TraceResult}

/-- The reports of the calls, in order, are at operations of their ranges. -/
theorem initRaceOpList_spec (h : c.initRaceOpList = some res) :
    res.racePairs = Dict.empty ∧
      List.Forall₂ (fun r (sts : List RaceOp) => ∀ x ∈ sts, x.op ∈ c.trace.perApi r)
        c.trace.opsApiRanges res.raceStList := by
  refine Runs.invariant (fun done res => res.racePairs = Dict.empty ∧
    List.Forall₂ (fun r (sts : List RaceOp) => ∀ x ∈ sts, x.op ∈ c.trace.perApi r) done
      res.raceStList) ⟨rfl, .nil⟩ ?_ h
  intro done r res res' _ ih hstep
  obtain ⟨lists, hlists, heq⟩ := Option.bind_eq_some_iff.1 hstep
  cases heq
  exact ⟨ih.1, List.rel_append ih.2 (.cons (op_mem_of_mem_raceStList hlists) .nil)⟩

/-- **The stores of a race are reported at an operation of the call that its key names first.** -/
theorem raceSt_mem (h : c.init = some res) {key : Nat × Nat} {pairs : List RacePair}
    (hpairs : res.racePairs.get? key = some pairs) {pair : RacePair} (hpair : pair ∈ pairs) :
    ∃ r, c.trace.opsApiRanges[key.1]? = some r ∧ pair.raceSt.op ∈ c.trace.perApi r := by
  obtain ⟨res₀, hlist, hinit⟩ := Option.bind_eq_some_iff.1 h
  obtain ⟨hempty, hall⟩ := initRaceOpList_spec hlist
  simp only [initRacePairs, Option.ite_none_right_eq_some] at hinit
  have hfiled : res.Filed ∧ res.raceStList = res₀.raceStList := by
    refine Runs.invariant (fun _ res => res.Filed ∧ res.raceStList = res₀.raceStList) ?_ ?_ hinit.2
    · refine ⟨fun key pairs hget => ?_, rfl⟩
      rw [hempty] at hget
      cases hget
    · rintro _ ⟨i, j⟩ r r' _ ⟨hr, hsts⟩ hstep
      obtain ⟨hr', hsts'⟩ := hr.initRacePairsPer2Apis hstep
      exact ⟨hr', hsts'.trans hsts⟩
  obtain ⟨sts, hsts, hmem⟩ := hfiled.1 key pairs hpairs pair hpair
  rw [hfiled.2] at hsts
  obtain ⟨hk, rfl⟩ := List.getElem?_eq_some_iff.1 hsts
  obtain ⟨hlen, hget⟩ := List.forall₂_iff_get.1 hall
  exact ⟨_, List.getElem?_eq_getElem (hlen ▸ hk), hget key.1 (hlen ▸ hk) hk _ hmem⟩

end TraceChecker

end TwoOps

/-! ## The checker -/

namespace MTChecker

/-- The races that `check_race` finds: none unless the trace has two API calls. -/
def checkRace (trace : Trace) (lps : Finset Nat) : Option (List RacePair) :=
  if trace.opsApiRanges.length ≠ 2 then some []
  else (TwoOps.TraceChecker.mk trace 2 lps).init.map fun res =>
    (res.racePairs.get? (0, 1)).getD []

/-- The loop of `get_hit_count`, over positions.  At the end of the range the last assertion
fails. -/
def hitLoop (ops : List Op) (d : Dict Text Text) (srcLine : Text) (opId : Nat) :
    List Nat → Nat → Option Nat
  | [], _ => none
  | i :: positions, hitCount => do
      let op ← ops[i]?
      let hitCount ← match op with
        | .fence b => (d.get? b.srcInfo).map fun line =>
            if line = srcLine then hitCount + 1 else hitCount
        | _ => some hitCount
      if i = opId then some hitCount else hitLoop ops d srcLine opId positions hitCount

/-- `get_hit_count`; `none` is a failed assertion, an `IndexError` or a `KeyError`. -/
def getHitCount (trace : Trace) (fenceOp : BaseOperation) (d : Dict Text Text) (srcLine : Text) :
    Option Nat := do
  let opsApiRange ← trace.opsApiRanges[0]?
  if fenceOp.id > opsApiRange.1 ∧ fenceOp.id < opsApiRange.2 then
    hitLoop trace.ops d srcLine fenceOp.id
      (List.range' opsApiRange.1 (opsApiRange.2 + 1 - opsApiRange.1)) 0
  else none

/-- What `validate_race` hands to the debugger for an operation: its id, where to stop and at which
time. -/
def stopPoint (trace : Trace) (d : Dict Text Text) (gdbOp : Op) : Option (Nat × Text × Nat) :=
  if gdbOp.base.srcInfo = "NA".toList then
    if gdbOp.isApiEnd then some (gdbOp.id, "api_end".toList, 1) else none
  else match gdbOp with
    | .fence b => do
        let srcLine ← d.get? b.srcInfo
        let hitCount ← getHitCount trace b d srcLine
        return (b.id, srcLine, hitCount)
    | _ => none

/-! ## Counting -/

/-- The fences on a source line, in order. -/
def fencesOn (d : Dict Text Text) (line : Text) (ops : List Op) : List BaseOperation :=
  ops.filterMap fun
    | .fence b => if d.get? b.srcInfo = some line then some b else none
    | _ => none

/-- The map has the source line of every fence. -/
def Mapped (d : Dict Text Text) (ops : List Op) : Prop :=
  ∀ b, .fence b ∈ ops → (d.get? b.srcInfo).isSome = true

instance (d : Dict Text Text) (ops : List Op) : Decidable (Mapped d ops) :=
  decidable_of_iff (∀ op ∈ ops, op.isFence = true → (d.get? op.base.srcInfo).isSome = true) <| by
    refine ⟨fun h b hb => h _ hb rfl, fun h op hop hfence => ?_⟩
    cases op with
    | fence b => exact h b hop
    | _ => cases hfence

variable {ops : List Op} {d : Dict Text Text} {line : Text} {a n : Nat}

theorem drop_take_cons {op : Op} {rest : List Op} (h : (ops.drop a).take n = op :: rest) :
    ∃ m, n = m + 1 ∧ ops[a]? = some op ∧ (ops.drop (a + 1)).take m = rest := by
  cases n with
  | zero => cases h
  | succ m =>
    cases hdrop : ops.drop a with
    | nil =>
      rw [hdrop] at h
      cases h
    | cons op' rest' =>
      rw [hdrop, List.take_succ_cons, List.cons.injEq] at h
      have hget : ops[a]? = some op' := by rw [← List.head?_drop, hdrop]; rfl
      have htail : ops.drop (a + 1) = rest' := by rw [← List.tail_drop, hdrop]; rfl
      exact ⟨m, rfl, h.1 ▸ hget, by rw [htail, h.2]⟩

theorem fencesOn_append (d : Dict Text Text) (line : Text) (u v : List Op) :
    fencesOn d line (u ++ v) = fencesOn d line u ++ fencesOn d line v :=
  List.filterMap_append

/-- One turn of the loop. -/
theorem hitLoop_cons {i opId hitCount : Nat} {positions : List Nat} {op : Op}
    (hget : ops[i]? = some op) (hd : Mapped d [op]) :
    hitLoop ops d line opId (i :: positions) hitCount =
      if i = opId then some (hitCount + (fencesOn d line [op]).length)
      else hitLoop ops d line opId positions (hitCount + (fencesOn d line [op]).length) := by
  rw [hitLoop, hget]
  cases op with
  | fence b =>
    obtain ⟨line', hline⟩ := Option.isSome_iff_exists.1 (hd b List.mem_cons_self)
    by_cases heq : line' = line
    · simp [fencesOn, hline, heq]
    · simp [fencesOn, hline, heq]
  | _ => rfl

/-- **The loop counts the fences on the line**, up to the operation it looks for. -/
theorem hitLoop_spec {pre post : List Op} {op : Op} {hitCount : Nat}
    (h : (ops.drop a).take n = pre ++ op :: post) (hd : Mapped d (pre ++ [op])) :
    hitLoop ops d line (a + pre.length) (List.range' a n) hitCount =
      some (hitCount + (fencesOn d line (pre ++ [op])).length) := by
  induction pre generalizing a n hitCount with
  | nil =>
    obtain ⟨m, rfl, hget, -⟩ := drop_take_cons h
    rw [List.range'_succ, hitLoop_cons hget hd, if_pos (by simp)]
    rfl
  | cons op' pre ih =>
    obtain ⟨m, rfl, hget, hrest⟩ := drop_take_cons h
    have hfirst : Mapped d [op'] := fun b hb => hd b (List.mem_append_left _
      (List.mem_cons.2 (Or.inl (List.mem_singleton.1 hb))))
    have hlast : Mapped d (pre ++ [op]) := fun b hb => hd b (List.mem_cons_of_mem op' hb)
    have hpos : a + (op' :: pre).length = a + 1 + pre.length := by
      rw [List.length_cons]
      omega
    have hsplit : fencesOn d line (op' :: pre ++ [op]) =
        fencesOn d line [op'] ++ fencesOn d line (pre ++ [op]) := fencesOn_append d line [op'] _
    rw [List.range'_succ, hitLoop_cons hget hfirst, if_neg (by simp), hpos, ih hrest hlast, hsplit,
      List.length_append, Nat.add_assoc]

/-! ## The fence of a race -/

variable {onlyPersist : Bool} {entries : List Text} {trace : Trace} {r : Nat × Nat}
  {b : BaseOperation}

/-- The id of a fence of a call is its position, and lies strictly inside the range. -/
theorem fence_position (htrace : Trace.extractOperations onlyPersist entries = some trace)
    (hr : r ∈ trace.opsApiRanges) {pre post : List Op}
    (h : trace.perApi r = pre ++ .fence b :: post) :
    b.id = r.1 + pre.length ∧ r.1 < b.id ∧ b.id < r.2 := by
  obtain ⟨hlt, ⟨o, hfirst⟩, ⟨last, hlast, hboundary⟩, -⟩ :=
    (isApiCall_of_mem htrace hr).at_positions
  have hget : trace.ops[r.1 + pre.length]? = some (.fence b) ∧ pre.length < r.2 + 1 - r.1 := by
    have hmem : (trace.perApi r)[pre.length]? = some (.fence b) := by rw [h]; simp
    rw [Trace.perApi, List.getElem?_take] at hmem
    split at hmem
    · exact ⟨by rwa [List.getElem?_drop] at hmem, ‹_›⟩
    · cases hmem
  have hid : b.id = r.1 + pre.length := id_of_getElem? htrace hget.1
  -- the operations at both ends delimit calls
  have hne₁ : b.id ≠ r.1 := by
    intro heq
    rw [← hid, heq, hfirst] at hget
    cases hget.1
  have hne₂ : b.id ≠ r.2 := by
    intro heq
    rw [← hid, heq, hlast] at hget
    cases hget.1
    cases hboundary
  exact ⟨hid, by omega, by omega⟩

/-- **The count of a fence**: one more than the fences on its line before it. -/
theorem getHitCount_eq (htrace : Trace.extractOperations onlyPersist entries = some trace)
    (hr : trace.opsApiRanges[0]? = some r) (hd : Mapped d (trace.perApi r))
    {pre post : List Op} (h : trace.perApi r = pre ++ .fence b :: post)
    (hline : d.get? b.srcInfo = some line) :
    getHitCount trace b d line = some ((fencesOn d line pre).length + 1) := by
  obtain ⟨hid, hlo, hhi⟩ := fence_position htrace (List.mem_of_getElem? hr) h
  have hmapped : Mapped d (pre ++ [.fence b]) := by
    intro b' hb'
    refine hd b' (h ▸ ?_)
    rw [List.mem_append, List.mem_singleton] at hb'
    rw [List.mem_append, List.mem_cons]
    exact hb'.imp_right Or.inl
  rw [getHitCount, hr, Option.bind_eq_bind, Option.bind_some, if_pos ⟨hlo, hhi⟩, hid,
    hitLoop_spec h hmapped, fencesOn_append]
  simp [fencesOn, hline]

/-- The fence with this count. -/
theorem fencesOn_getElem? {tracePerApi pre post : List Op}
    (h : tracePerApi = pre ++ .fence b :: post) (hline : d.get? b.srcInfo = some line) :
    (fencesOn d line tracePerApi)[(fencesOn d line pre).length]? = some b := by
  have hcons : fencesOn d line (.fence b :: post) = b :: fencesOn d line post := by
    simp [fencesOn, hline]
  rw [h, fencesOn_append, hcons]
  simp

/-- The operation of a race is one of the first call. -/
theorem mem_perApi_of_checkRace {lps : Finset Nat} {races : List RacePair} {race : RacePair}
    (hraces : checkRace trace lps = some races) (hrace : race ∈ races) :
    ∃ r, trace.opsApiRanges[0]? = some r ∧ race.raceSt.op ∈ trace.perApi r := by
  unfold checkRace at hraces
  split at hraces
  · cases hraces
    cases hrace
  · obtain ⟨res, hres, rfl⟩ := Option.map_eq_some_iff.1 hraces
    cases hget : res.racePairs.get? (0, 1) with
    | none =>
      rw [hget] at hrace
      cases hrace
    | some pairs =>
      rw [hget] at hrace
      exact TwoOps.TraceChecker.raceSt_mem hres hget hrace

/-- **The debugger stops at the fence of the race.**  If the map has the source line of every fence
of the first call, then for the fence of a race the assertions of `get_hit_count` hold, and the
count that it returns is the number of the fence among those of the call on its source line; every
other fence on the line has another count. -/
theorem getHitCount_spec {lps : Finset Nat} {races : List RacePair} {race : RacePair}
    (htrace : Trace.extractOperations onlyPersist entries = some trace)
    (hraces : checkRace trace lps = some races) (hrace : race ∈ races)
    (hfence : race.raceSt.op = .fence b)
    (hd : ∀ r, trace.opsApiRanges[0]? = some r → Mapped d (trace.perApi r)) :
    ∃ r line h, trace.opsApiRanges[0]? = some r ∧ d.get? b.srcInfo = some line ∧
      (r.1 < b.id ∧ b.id < r.2) ∧ getHitCount trace b d line = some h ∧ 1 ≤ h ∧
      (fencesOn d line (trace.perApi r))[h - 1]? = some b ∧
      (b.srcInfo ≠ "NA".toList → stopPoint trace d race.raceSt.op = some (b.id, line, h)) ∧
      ∀ b', .fence b' ∈ trace.perApi r → d.get? b'.srcInfo = some line → b' ≠ b →
        ∃ h', getHitCount trace b' d line = some h' ∧ h' ≠ h := by
  obtain ⟨r, hr, hmem⟩ := mem_perApi_of_checkRace hraces hrace
  rw [hfence] at hmem
  obtain ⟨line, hline⟩ := Option.isSome_iff_exists.1 (hd r hr b hmem)
  obtain ⟨pre, post, hsplit⟩ := List.append_of_mem hmem
  obtain ⟨-, hrange⟩ := fence_position htrace (List.mem_of_getElem? hr) hsplit
  have hcount := getHitCount_eq htrace hr (hd r hr) hsplit hline
  have hfirst := fencesOn_getElem? hsplit hline
  refine ⟨r, line, (fencesOn d line pre).length + 1, hr, hline, hrange, hcount, by omega,
    hfirst, ?_, ?_⟩
  · intro hne
    have hbase : (Op.fence b).base.srcInfo ≠ "NA".toList := hne
    simp only [hfence, stopPoint, if_neg hbase, hline, hcount, Option.bind_eq_bind,
      Option.bind_some, Option.pure_def]
  · intro b' hmem' hline' hne
    obtain ⟨pre', post', hsplit'⟩ := List.append_of_mem hmem'
    refine ⟨_, getHitCount_eq htrace hr (hd r hr) hsplit' hline', fun heq => hne ?_⟩
    -- the two fences would be at the same place among those on the line
    have hsecond := fencesOn_getElem? hsplit' hline'
    rw [Nat.succ.inj heq, hfirst] at hsecond
    exact (Option.some.inj hsecond).symm

/-- Two fences on one line, of which the second one makes a store persistent that the other call
loads. -/
def twoFences : List Text :=
  ["APIBegin,1,put", "Fence,1,3", "Store,1,0x100,1,2a,4,0", "Flush,1,0x100,5", "Fence,1,6",
    "APIEnd,1,put", "APIBegin,1,get", "Load,1,0x100,1,7", "APIEnd,1,get"].map String.toList

/-- The source lines of the fences. -/
def twoFencesLines : Dict Text Text :=
  (Dict.empty.set ['3'] "a.c:9".toList).set ['6'] "a.c:9".toList

/-- The second fence is the one of the race, and is given the count 2. -/
theorem getHitCount_spec_twoFences :
    ∃ trace races race, Trace.extractOperations false twoFences = some trace ∧
      checkRace trace {0x100} = some races ∧ race ∈ races ∧
      race.raceSt.op = .fence ⟨4, 1, ['6']⟩ ∧
      getHitCount trace ⟨4, 1, ['6']⟩ twoFencesLines "a.c:9".toList = some 2 ∧
      ∃ r line h, trace.opsApiRanges[0]? = some r ∧ twoFencesLines.get? ['6'] = some line ∧
        (r.1 < 4 ∧ 4 < r.2) ∧ getHitCount trace ⟨4, 1, ['6']⟩ twoFencesLines line = some h ∧
        1 ≤ h ∧ (fencesOn twoFencesLines line (trace.perApi r))[h - 1]? = some ⟨4, 1, ['6']⟩ ∧
        (['6'] ≠ "NA".toList → stopPoint trace twoFencesLines race.raceSt.op = some (4, line, h)) ∧
        ∀ b', .fence b' ∈ trace.perApi r → twoFencesLines.get? b'.srcInfo = some line →
          b' ≠ ⟨4, 1, ['6']⟩ →
            ∃ h', getHitCount trace b' twoFencesLines line = some h' ∧ h' ≠ h := by
  have hread : (Trace.extractOperations false twoFences).isSome = true := by decide +kernel
  have hfacts : ∀ trace ∈ Trace.extractOperations false twoFences,
      (checkRace trace {0x100}).map (List.map fun race => race.raceSt.op) =
          some [.fence ⟨4, 1, ['6']⟩] ∧
        getHitCount trace ⟨4, 1, ['6']⟩ twoFencesLines "a.c:9".toList = some 2 ∧
        ∀ r ∈ trace.opsApiRanges[0]?, Mapped twoFencesLines (trace.perApi r) := by
    decide +kernel
  obtain ⟨trace, htrace⟩ := Option.isSome_iff_exists.1 hread
  obtain ⟨hops, hcount, hmapped⟩ := hfacts trace htrace
  obtain ⟨races, hraces, hops⟩ := Option.map_eq_some_iff.1 hops
  obtain ⟨race, hrace, hfence⟩ := List.mem_map.1 (hops ▸ List.mem_singleton_self _ :
    Op.fence ⟨4, 1, ['6']⟩ ∈ races.map fun race => race.raceSt.op)
  exact ⟨trace, races, race, htrace, hraces, hrace, hfence, hcount,
    getHitCount_spec htrace hraces hrace hfence hmapped⟩

end MTChecker

end Durinn
