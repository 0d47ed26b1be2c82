import Durinn.Trace.LockModeling

/-!
# Allocations and modelled lock functions

The allocations of an API call are to be listed under its number, but for those inside a modelled
lock function.  The reader decides by its flag which these are, so that it also lists allocations of
a section that is open, after the end of a nested one.

* `openDepth` — the number of sections that are open, also where the brackets do not match; `Inside`
  says of entries that do match whether it is positive (`inside_iff`).
* `readAllocs_eq_iff` — the reader takes the allocations outside all sections if and only if there
  are none at those places.
* `trace_indices` — the counters of an accepted trace agree, and when its allocations are right;
  `nestedAlloc_listed` is a trace with an allocation that should not be listed.
-/

namespace Durinn

/-! ## The number of open sections -/

/-- The number of open sections after one more bracket. -/
def Bracket.depth (n : Nat) : Bracket → Nat
  | .begins _ => n + 1
  | .ends _ => n - 1

/-- The number of sections that are open after some entries; an end without a beginning is passed
over. -/
def openDepth (entries : List Text) : Nat := (brackets entries).foldl Bracket.depth 0

variable {done rest entries : List Text} {entry : Text}

theorem openDepth_append_singleton : openDepth (done ++ [entry]) =
    (bracket? entry).elim (openDepth done) (Bracket.depth (openDepth done)) := by
  rw [openDepth, brackets_append_singleton, List.foldl_append]
  cases bracket? entry <;> rfl

/-- The number is that of the open sections. -/
theorem openDepth_eq_length {stack : List LockFunction} (h : openSections done = some stack) :
    openDepth done = stack.length := by
  induction done using List.reverseRecOn generalizing stack with
  | nil =>
    cases h
    rfl
  | append_singleton done entry ih =>
    rw [openSections_append_singleton, Option.bind_eq_some_iff] at h
    obtain ⟨before, hbefore, hnest⟩ := h
    rw [openDepth_append_singleton, ih hbefore]
    cases hb : bracket? entry with
    | none =>
      rw [hb] at hnest
      cases hnest
      rfl
    | some b =>
      rw [hb] at hnest
      cases b with
      | begins f =>
        cases hnest
        rfl
      | ends f =>
        cases before with
        | nil => cases hnest
        | cons g before =>
          simp only [Option.elim, nest, Option.ite_none_right_eq_some, Option.some.injEq] at hnest
          rw [← hnest.2]
          rfl

theorem inside_iff (h : (openSections done).isSome = true) : Inside done ↔ 0 < openDepth done := by
  obtain ⟨stack, hstack⟩ := Option.isSome_iff_exists.1 h
  rw [Inside, openDepth_eq_length hstack, hstack]
  cases stack <;> simp

theorem openDepth_pos_of_lastBegins (h : LastBegins done) : 0 < openDepth done := by
  induction done using List.reverseRecOn with
  | nil =>
    obtain ⟨f, hf⟩ := h
    cases hf
  | append_singleton done entry ih =>
    rw [openDepth_append_singleton]
    rw [LastBegins, brackets_append_singleton] at h
    cases hb : bracket? entry with
    | none =>
      rw [hb, Option.toList_none, List.append_nil] at h
      exact ih h
    | some b =>
      obtain ⟨f, hf⟩ := h
      rw [hb, Option.toList_some, List.getLast?_concat, Option.some.injEq] at hf
      rw [hf]
      exact Nat.succ_pos _

/-- A section is open, and the last bracket is the end of one. -/
def LeftOpen (done : List Text) : Prop :=
  0 < openDepth done ∧ ∃ f, (brackets done).getLast? = some (.ends f)

/-- Then the reader does not skip. -/
theorem leftOpen_iff : LeftOpen done ↔ 0 < openDepth done ∧ ¬skipsAfter done = true := by
  refine and_congr_right fun hpos => ?_
  rw [skipsAfter_iff, LastBegins]
  cases hlast : (brackets done).getLast? with
  | none =>
    rw [List.getLast?_eq_none_iff] at hlast
    rw [openDepth, hlast] at hpos
    exact absurd hpos (lt_irrefl 0)
  | some b => cases b <;> simp

instance (done : List Text) : Decidable (LeftOpen done) := decidable_of_iff _ leftOpen_iff.symm

theorem Flat.not_leftOpen (h : Flat entries) : ¬LeftOpen entries := by
  rintro ⟨hpos, hends⟩
  have hopen := h entries ((List.mem_inits _ _).2 List.prefix_rfl)
  exact h.not_afterNested ⟨(inside_iff (Option.isSome_of_any hopen)).2 hpos, hends⟩

/-! ## The allocations of a call -/

/-- The allocations among the entries after `done` that are outside all sections. -/
def allocsOutside (done entries : List Text) : List Load :=
  Runs.outputsFrom (fun done entry => if openDepth done = 0 then entryAllocs false entry else [])
    done entries

/-- These are the allocations outside all sections of the call with this range. -/
def AllocsOfCall (onlyPersist : Bool) (entries : List Text) (r : Nat × Nat) (allocs : List Load) :
    Prop :=
  ∃ done mid, CallEntries onlyPersist entries r done mid ∧ allocs = allocsOutside done mid

theorem entryAllocs_skipsAfter (done : List Text) (entry : Text) :
    entryAllocs (skipsAfter done) entry =
      (if openDepth done = 0 then entryAllocs false entry else []) ++
        if LeftOpen done then entryAllocs false entry else [] := by
  cases hskip : skipsAfter done with
  | true =>
    have hbegins := (skipsAfter_iff done).1 hskip
    have hpos := openDepth_pos_of_lastBegins hbegins
    have hnot : ¬LeftOpen done := fun hopen => (leftOpen_iff.1 hopen).2 hskip
    rw [if_neg hpos.ne', if_neg hnot]
    simp [entryAllocs]
  | false =>
    by_cases hdepth : openDepth done = 0
    · have hnot : ¬LeftOpen done := fun hopen => hopen.1.ne' hdepth
      rw [if_pos hdepth, if_neg hnot, List.append_nil]
    · have hopen : LeftOpen done := by
        rw [leftOpen_iff, hskip]
        exact ⟨Nat.pos_of_ne_zero hdepth, Bool.false_ne_true⟩
      rw [if_neg hdepth, if_pos hopen, List.nil_append]

/-- **The reader takes the allocations outside all sections**, and those that are left open. -/
theorem readAllocs_eq_iff (done mid : List Text) :
    readAllocs done mid = allocsOutside done mid ↔
      ∀ v entry w, mid = v ++ entry :: w → LeftOpen (done ++ v) → entryAllocs false entry = [] := by
  rw [readAllocs, allocsOutside, Runs.outputsFrom_eq_iff entryAllocs_skipsAfter]
  simp only [ite_eq_right_iff]

variable {onlyPersist : Bool}

/-- What was taken from a call is right if nothing was left open in it. -/
theorem allocsOfCall_iff {r : Nat × Nat} {allocs : List Load}
    (h : AllocsRead onlyPersist entries r allocs) :
    AllocsOfCall onlyPersist entries r allocs ↔
      ∀ done mid, CallEntries onlyPersist entries r done mid → ∀ v entry w,
        mid = v ++ entry :: w → LeftOpen (done ++ v) → entryAllocs false entry = [] := by
  obtain ⟨done, mid, hcall, rfl⟩ := h
  constructor
  · rintro ⟨done', mid', hcall', heq⟩ done'' mid'' hcall''
    obtain ⟨rfl, rfl⟩ := hcall.unique hcall'
    obtain ⟨rfl, rfl⟩ := hcall.unique hcall''
    exact (readAllocs_eq_iff done mid).1 heq
  · intro hnone
    exact ⟨done, mid, hcall, (readAllocs_eq_iff done mid).2 (hnone done mid hcall)⟩

/-- **The counters of an accepted trace.**  Ids are positions; each range is that of an API call,
and the ranges follow each other; and under the number of a range are listed the allocations of its
call that are outside modelled lock functions, if and only if the call has no allocation in a
section that is open after the end of a nested one. -/
theorem trace_indices {trace : Trace}
    (h : Trace.extractOperations onlyPersist entries = some trace) :
    (∀ i (op : Op), trace.ops[i]? = some op → op.id = i) ∧
      (∀ r ∈ trace.opsApiRanges, r.1 < r.2 ∧ (∃ o, trace.ops[r.1]? = some (.apiBegin o)) ∧
        (∃ last, trace.ops[r.2]? = some last ∧ last.isBoundary = true) ∧
        ∀ i (op : Op), r.1 < i → i < r.2 → trace.ops[i]? = some op → op.isBoundary = false) ∧
      (∀ k r r', trace.opsApiRanges[k]? = some r → trace.opsApiRanges[k + 1]? = some r' →
        r.2 ≤ r'.1) ∧
      ∀ k r, trace.opsApiRanges[k]? = some r →
        (AllocsOfCall onlyPersist entries r ((trace.allocs.get? k).getD []) ↔
          ∀ done mid, CallEntries onlyPersist entries r done mid → ∀ v entry w,
            mid = v ++ entry :: w → LeftOpen (done ++ v) → entryAllocs false entry = []) := by
  obtain ⟨st, hst, rfl⟩ := Option.map_eq_some_iff.1 h
  have hindexed := Extraction.indexed_run hst
  refine ⟨fun i op => id_of_getElem? h, fun r hr => (isApiCall_of_mem h hr).at_positions, ?_,
    fun k r hr => allocsOfCall_iff (hindexed.closed k r hr)⟩
  intro k r r' hr hr'
  obtain ⟨hk, rfl⟩ := List.getElem?_eq_some_iff.1 hr
  obtain ⟨hk', rfl⟩ := List.getElem?_eq_some_iff.1 hr'
  exact List.pairwise_iff_getElem.1 hindexed.ordered k (k + 1) hk hk' (Nat.lt_succ_self k)

/-- Two API calls; in the first, one allocation and another one in the modelling of a lock. -/
def twoCallsAllocs : List Text :=
  ["APIBegin,1,5".toList, "Alloc,1,0x40,8,9".toList, "LockBegin,1,0x80".toList,
    "Alloc,1,0x90,8,9".toList, "LockEnd,1,0x80,NA".toList, "APIBegin,1,6".toList,
    "APIEnd,1,7".toList]

/-- Where sections are not nested, the allocations are right, as those of this trace. -/
theorem trace_indices_twoCallsAllocs :
    ∃ trace, Trace.extractOperations false twoCallsAllocs = some trace ∧
      trace.opsApiRanges = [(0, 2), (2, 3)] ∧
      (∀ i (op : Op), trace.ops[i]? = some op → op.id = i) ∧
      AllocsOfCall false twoCallsAllocs (0, 2) ((trace.allocs.get? 0).getD []) ∧
      trace.allocs.get? 0 = some [⟨⟨0, 1, ['9']⟩, 0x40, 8⟩] := by
  have hread : (Trace.extractOperations false twoCallsAllocs).map
      (fun t => (t.opsApiRanges, t.allocs.get? 0)) =
      some ([(0, 2), (2, 3)], some [⟨⟨0, 1, ['9']⟩, 0x40, 8⟩]) := by decide +kernel
  obtain ⟨trace, htrace, hread⟩ := Option.map_eq_some_iff.1 hread
  obtain ⟨hranges, hallocs⟩ := Prod.mk.inj hread
  obtain ⟨hids, -, -, hiff⟩ := trace_indices htrace
  have hflat : Flat twoCallsAllocs := by decide
  refine ⟨trace, htrace, hranges, hids, (hiff 0 (0, 2) (by rw [hranges]; rfl)).2 ?_, hallocs⟩
  rintro done mid ⟨u, first, last, w, -, hsplit, -⟩ v entry w' rfl hopen
  have hcut : twoCallsAllocs = done ++ v ++ (entry :: w' ++ last :: w) := by
    rw [hsplit]
    simp
  rw [hcut] at hflat
  exact absurd hopen hflat.of_append.not_leftOpen

/-- An allocation of the outer one of two sections, after the end of the inner one. -/
def nestedAlloc : List Text :=
  ["APIBegin,1,5".toList, "LockBegin,1,40,NA".toList, "LockBegin,1,48,NA".toList,
    "LockEnd,1,48,NA".toList, "Alloc,1,0x90,8,9".toList, "LockEnd,1,40,NA".toList,
    "APIEnd,1,7".toList]

theorem readsTo_of_map {n : Nat}
    (h : (Trace.extractOperations onlyPersist entries).map (fun t => t.ops.length) = some n) :
    ReadsTo onlyPersist entries n :=
  Option.map_eq_some_iff.1 h

/-- **The allocation of the outer section is listed.** -/
theorem nestedAlloc_listed :
    ∃ trace, WellBracketed nestedAlloc ∧ Inside (nestedAlloc.take 4) ∧
      Trace.extractOperations false nestedAlloc = some trace ∧ trace.opsApiRanges = [(0, 3)] ∧
      trace.allocs.get? 0 = some [⟨⟨0, 1, ['9']⟩, 0x90, 8⟩] ∧
      ¬AllocsOfCall false nestedAlloc (0, 3) ((trace.allocs.get? 0).getD []) := by
  have hread : (Trace.extractOperations false nestedAlloc).map
      (fun t => (t.opsApiRanges, t.allocs.get? 0)) =
      some ([(0, 3)], some [⟨⟨0, 1, ['9']⟩, 0x90, 8⟩]) := by decide +kernel
  obtain ⟨trace, htrace, hread⟩ := Option.map_eq_some_iff.1 hread
  obtain ⟨hranges, hallocs⟩ := Prod.mk.inj hread
  refine ⟨trace, by decide, by decide, htrace, hranges, hallocs, ?_⟩
  rintro ⟨done, mid, hcall, heq⟩
  have hentries : CallEntries false nestedAlloc (0, 3) (nestedAlloc.take 1)
      ((nestedAlloc.drop 1).take 5) :=
    ⟨[], "APIBegin,1,5".toList, "APIEnd,1,7".toList, [], rfl, rfl,
      readsTo_of_map (by decide +kernel), readsTo_of_map (by decide +kernel),
      readsTo_of_map (by decide +kernel), readsTo_of_map (by decide +kernel)⟩
  obtain ⟨rfl, rfl⟩ := hcall.unique hentries
  rw [hallocs, show allocsOutside (nestedAlloc.take 1) ((nestedAlloc.drop 1).take 5) = [] by
    decide +kernel] at heq
  cases heq

end Durinn
