import Durinn.Trace.Ranges

/-!
# Ids, ranges and allocations

`Trace.extract_operations` keeps three counters apart: ids come from a running index, ranges are
remembered values of it, and allocations are filed under the number of API calls begun so far.
Their users take it for granted that they agree.

* `CallEntries` — the entries of an API call; there is one way to find them (`unique`).
* `Indexed` — the invariant of the reader that ties the counters together.
* `Indexed.perform`, `indexed_run` — every effect keeps it, and so does a run.
* `id_of_getElem?`, `IsApiCall.at_positions` — what follows for an accepted trace: ids are
  positions, and ranges are those of API calls.
-/

namespace Durinn

namespace Extraction

@[simp] theorem perform_ops (st : Extraction) (e : Effect) :
    (st.perform e).ops = st.ops ++ e.ops := by
  cases e with
  | append | br => simp [perform, Extraction.append, Effect.ops]
  | load =>
    rw [perform, recordLoad_eq]
    rfl
  | apiBegin | apiEnd =>
    rw [perform, closeApi_eq]
    rfl
  | alloc =>
    rw [perform, recordAlloc_eq]
    exact (List.append_nil _).symm

@[simp] theorem perform_skip (st : Extraction) (e : Effect) :
    (st.perform e).skipLockModeling = e.skips st.skipLockModeling := by
  cases e with
  | append | br => rfl
  | load =>
    rw [perform, recordLoad_eq]
    rfl
  | apiBegin | apiEnd =>
    rw [perform, closeApi_eq]
    rfl
  | alloc =>
    rw [perform, recordAlloc_eq]
    rfl

end Extraction

/-! ## The entries of a call -/

/-- Reading the entries gives `n` operations. -/
def ReadsTo (onlyPersist : Bool) (entries : List Text) (n : Nat) : Prop :=
  ∃ trace, Trace.extractOperations onlyPersist entries = some trace ∧ trace.ops.length = n

/-- The call with this range: the last of the entries `done` became its first operation, `mid` come
after it, and the entry after these became its last operation. -/
def CallEntries (onlyPersist : Bool) (entries : List Text) (r : Nat × Nat) (done mid : List Text) :
    Prop :=
  ∃ u first last w, done = u ++ [first] ∧ entries = done ++ mid ++ last :: w ∧
    ReadsTo onlyPersist u r.1 ∧ ReadsTo onlyPersist done (r.1 + 1) ∧
    ReadsTo onlyPersist (done ++ mid) r.2 ∧ ReadsTo onlyPersist (done ++ mid ++ [last]) (r.2 + 1)

variable {onlyPersist : Bool} {entries : List Text}

/-- Further entries only add operations. -/
theorem ReadsTo.le {u v : List Text} {n n' : Nat} (h : ReadsTo onlyPersist u n)
    (h' : ReadsTo onlyPersist (u ++ v) n') : n ≤ n' := by
  obtain ⟨trace, htrace, rfl⟩ := h
  obtain ⟨trace', htrace', rfl⟩ := h'
  obtain ⟨st, hst, rfl⟩ := Option.map_eq_some_iff.1 htrace
  obtain ⟨st', hst', rfl⟩ := Option.map_eq_some_iff.1 htrace'
  rw [List.foldlM_append, hst] at hst'
  refine Runs.invariant (fun _ st' => st.ops.length ≤ st'.ops.length) le_rfl ?_ hst'
  intro _ entry st₁ st₂ _ hle hstep
  obtain ⟨e, -, rfl⟩ := Extraction.exists_effect hstep
  rw [Extraction.perform_ops, List.length_append]
  exact Nat.le_add_right_of_le hle

/-- The entry that makes one operation more is at one place only. -/
theorem ReadsTo.unique {u u' w w' : List Text} {x x' : Text} {n : Nat}
    (hsplit : u ++ x :: w = u' ++ x' :: w') (hu : ReadsTo onlyPersist u n)
    (hx : ReadsTo onlyPersist (u ++ [x]) (n + 1)) (hu' : ReadsTo onlyPersist u' n)
    (hx' : ReadsTo onlyPersist (u' ++ [x']) (n + 1)) : u = u' ∧ x = x' ∧ w = w' := by
  rcases List.append_eq_append_iff.1 hsplit with ⟨v, rfl, hv⟩ | ⟨v, rfl, hv⟩
  · cases v with
    | nil => simpa using hv
    | cons y v =>
      obtain ⟨rfl, -⟩ := List.cons.inj hv
      have hle := hx.le (v := v) (by simpa using hu')
      omega
  · cases v with
    | nil => simpa [eq_comm] using hv
    | cons y v =>
      obtain ⟨rfl, -⟩ := List.cons.inj hv
      have hle := hx'.le (v := v) (by simpa using hu)
      omega

/-- **The entries of a call are found in one way.** -/
theorem CallEntries.unique {r : Nat × Nat} {done mid done' mid' : List Text}
    (h : CallEntries onlyPersist entries r done mid)
    (h' : CallEntries onlyPersist entries r done' mid') : done = done' ∧ mid = mid' := by
  obtain ⟨u, first, last, w, rfl, hsplit, hu, hfirst, hmid, hlast⟩ := h
  obtain ⟨u', first', last', w', rfl, hsplit', hu', hfirst', hmid', hlast'⟩ := h'
  have hcut := hsplit.symm.trans hsplit'
  obtain ⟨hdone, -, -⟩ := ReadsTo.unique (by simpa using hcut) hmid hlast hmid' hlast'
  have hbegin : u ++ first :: (mid ++ last :: w) = u' ++ first' :: (mid' ++ last' :: w') := by
    simpa using hcut
  obtain ⟨rfl, rfl, -⟩ := ReadsTo.unique hbegin hu hfirst hu' hfirst'
  exact ⟨rfl, List.append_cancel_left hdone⟩

/-! ## Allocations of a call -/

/-- Are entries skipped after these? -/
def skipsAfter (entries : List Text) : Bool := entries.foldl entrySkips false

theorem skipsAfter_append_singleton (entries : List Text) (entry : Text) :
    skipsAfter (entries ++ [entry]) = entrySkips (skipsAfter entries) entry :=
  List.foldl_append

/-- The allocations that the reader takes from the entries after `done`. -/
def readAllocs (done entries : List Text) : List Load :=
  Runs.outputsFrom (fun done entry => entryAllocs (skipsAfter done) entry) done entries

theorem readAllocs_append_singleton (done entries : List Text) (entry : Text) :
    readAllocs done (entries ++ [entry]) =
      readAllocs done entries ++ entryAllocs (skipsAfter (done ++ entries)) entry :=
  Runs.outputsFrom_append_singleton _ _ _ _

/-- These are the allocations that the reader has taken so far from the call that began at `b`. -/
def AllocsSoFar (onlyPersist : Bool) (entries : List Text) (b : Nat) (allocs : List Load) : Prop :=
  ∃ u first mid, entries = u ++ [first] ++ mid ∧
    ReadsTo onlyPersist u b ∧ ReadsTo onlyPersist (u ++ [first]) (b + 1) ∧
    allocs = readAllocs (u ++ [first]) mid

/-- These are the allocations that the reader took from the call with this range. -/
def AllocsRead (onlyPersist : Bool) (entries : List Text) (r : Nat × Nat) (allocs : List Load) :
    Prop :=
  ∃ done mid, CallEntries onlyPersist entries r done mid ∧ allocs = readAllocs done mid

theorem AllocsRead.append {r : Nat × Nat} {allocs : List Load}
    (h : AllocsRead onlyPersist entries r allocs) (v : List Text) :
    AllocsRead onlyPersist (entries ++ v) r allocs := by
  obtain ⟨done, mid, ⟨u, first, last, w, hdone, rfl, hrest⟩, hallocs⟩ := h
  exact ⟨done, mid, ⟨u, first, last, w ++ v, hdone, by simp, hrest⟩, hallocs⟩

theorem AllocsSoFar.append {b : Nat} {allocs : List Load}
    (h : AllocsSoFar onlyPersist entries b allocs) (entry : Text) :
    AllocsSoFar onlyPersist (entries ++ [entry]) b
      (allocs ++ entryAllocs (skipsAfter entries) entry) := by
  obtain ⟨u, first, mid, rfl, hu, hfirst, rfl⟩ := h
  refine ⟨u, first, mid ++ [entry], by simp, hu, hfirst, ?_⟩
  rw [readAllocs_append_singleton]

/-- The next operation that delimits API calls closes the call. -/
theorem AllocsSoFar.close {b e : Nat} {allocs : List Load} {entry : Text}
    (h : AllocsSoFar onlyPersist entries b allocs) (hdone : ReadsTo onlyPersist entries e)
    (hentry : ReadsTo onlyPersist (entries ++ [entry]) (e + 1)) :
    AllocsRead onlyPersist (entries ++ [entry]) (b, e) allocs := by
  obtain ⟨u, first, mid, rfl, hu, hfirst, hallocs⟩ := h
  exact ⟨_, mid, ⟨u, first, entry, [], rfl, rfl, hu, hfirst, hdone, hentry⟩, hallocs⟩

/-! ## The invariant -/

namespace Extraction

/-- How the counters of the reader go together after it has read the entries `done`. -/
structure Indexed (onlyPersist : Bool) (done : List Text) (st : Extraction) : Prop where
  /-- Ids are positions. -/
  ids : st.ops.map Op.id = List.range st.ops.length
  /-- The ranges follow each other, -/
  ordered : st.opsApiRanges.Pairwise fun r r' => r.2 ≤ r'.1
  /-- and the open call follows them. -/
  before : ∀ r ∈ st.opsApiRanges, r.2 ≤ st.opCurrApiBeginIndex.getD st.opCurrIndex
  /-- Each call begun has a range or is the open one. -/
  count : st.apiCount = st.opsApiRanges.length + if st.opCurrApiBeginIndex.isSome then 1 else 0
  /-- Nothing is filed under calls not yet begun. -/
  unused : ∀ k, st.apiCount ≤ k → st.allocs.get? k = none
  /-- The flag is that of the entries. -/
  skip : st.skipLockModeling = skipsAfter done
  /-- Under the number of a range are the allocations of its call, -/
  closed : ∀ k r, st.opsApiRanges[k]? = some r →
    AllocsRead onlyPersist done r ((st.allocs.get? k).getD [])
  /-- and under the number of the open call those read so far. -/
  opened : ∀ b, st.opCurrApiBeginIndex = some b →
    AllocsSoFar onlyPersist done b ((st.allocs.get? (st.apiCount - 1)).getD [])

variable {done : List Text} {st : Extraction} {entry : Text} {e : Effect}

/-- Ids stay positions. -/
theorem map_id_perform {skip isOpen : Bool} (hids : st.ops.map Op.id = List.range st.ops.length)
    (hindex : st.opCurrIndex = st.ops.length) (he : e.Valid skip isOpen st.opCurrIndex entry) :
    (st.perform e).ops.map Op.id = List.range (st.perform e).ops.length := by
  have happend := List.range'_append_1 (s := 0) (m := st.ops.length) (n := e.ops.length)
  rw [Nat.zero_add] at happend
  rw [perform_ops, List.map_append, hids, he.ids, hindex, List.length_append,
    List.range_eq_range', List.range_eq_range', happend]

/-- An effect that changes neither the ranges nor the calls nor the allocations. -/
theorem Indexed.quiet {st' : Extraction} (h : Indexed onlyPersist done st)
    (hids : st'.ops.map Op.id = List.range st'.ops.length)
    (hranges : st'.opsApiRanges = st.opsApiRanges)
    (hopen : st'.opCurrApiBeginIndex = st.opCurrApiBeginIndex)
    (hindex : st.opCurrIndex ≤ st'.opCurrIndex) (hcount : st'.apiCount = st.apiCount)
    (hallocs : st'.allocs = st.allocs)
    (hskip : st'.skipLockModeling = entrySkips st.skipLockModeling entry)
    (hnone : st.opCurrApiBeginIndex.isSome → entryAllocs st.skipLockModeling entry = []) :
    Indexed onlyPersist (done ++ [entry]) st' := by
  refine ⟨hids, ?_, ?_, ?_, ?_, ?_, ?_, ?_⟩
  · rw [hranges]
    exact h.ordered
  · intro r hr
    rw [hranges] at hr
    have := h.before r hr
    rw [hopen]
    cases hb : st.opCurrApiBeginIndex with
    | none =>
      rw [hb] at this
      exact this.trans hindex
    | some b =>
      rw [hb] at this
      exact this
  · rw [hcount, hranges, hopen]
    exact h.count
  · rw [hcount, hallocs]
    exact h.unused
  · rw [hskip, h.skip, skipsAfter_append_singleton]
  · rw [hranges, hallocs]
    intro k r hk
    exact (h.closed k r hk).append [entry]
  · rw [hopen, hallocs, hcount]
    intro b hb
    have hsofar := (h.opened b hb).append entry
    rwa [← h.skip, hnone (by rw [hb]; rfl), List.append_nil] at hsofar

/-- Recording an allocation of the open call. -/
theorem Indexed.alloc (h : Indexed onlyPersist done st) {b : Nat} {a : Load}
    (hb : st.opCurrApiBeginIndex = some b)
    (hskip : st.skipLockModeling = entrySkips st.skipLockModeling entry)
    (ha : entryAllocs st.skipLockModeling entry = [a]) :
    Indexed onlyPersist (done ++ [entry]) (st.recordAlloc a) := by
  have hcount := h.count
  rw [hb] at hcount
  have hcount : st.apiCount = st.opsApiRanges.length + 1 := hcount
  rw [recordAlloc, if_pos (by rw [hb]; rfl)]
  refine ⟨h.ids, h.ordered, h.before, h.count, ?_, ?_, ?_, ?_⟩
  · intro k hk
    have hne : k ≠ st.apiCount - 1 := by
      have : st.apiCount ≤ k := hk
      omega
    rw [Dict.get?_set_of_ne _ _ hne]
    exact h.unused k hk
  · rw [skipsAfter_append_singleton, ← h.skip]
    exact hskip
  · intro k r hk
    have hlt : k < st.opsApiRanges.length := (List.getElem?_eq_some_iff.1 hk).1
    rw [Dict.get?_set_of_ne _ _ (by omega)]
    exact (h.closed k r hk).append [entry]
  · intro b' hb'
    rw [Dict.get?_set_self, ← ha, h.skip]
    exact (h.opened b' hb').append entry

/-- What closing the open call, if there is one, does to the ranges: they still follow each
other, end before the operation about to be appended, and have their allocations. -/
theorem Indexed.closeApi (h : Indexed onlyPersist done st) (hshape : Shape st)
    (hdone : ReadsTo onlyPersist done st.opCurrIndex)
    (hentry : ReadsTo onlyPersist (done ++ [entry]) (st.opCurrIndex + 1)) :
    st.closeApi.opsApiRanges.Pairwise (fun r r' => r.2 ≤ r'.1) ∧
      (∀ r ∈ st.closeApi.opsApiRanges, r.2 ≤ st.opCurrIndex) ∧
      st.apiCount = st.closeApi.opsApiRanges.length ∧
      ∀ k r, st.closeApi.opsApiRanges[k]? = some r →
        AllocsRead onlyPersist (done ++ [entry]) r ((st.allocs.get? k).getD []) := by
  have hbefore := h.before
  have hcount := h.count
  unfold Extraction.closeApi
  cases hb : st.opCurrApiBeginIndex with
  | none =>
    rw [hb] at hbefore hcount
    exact ⟨h.ordered, hbefore, hcount, fun k r hk => (h.closed k r hk).append [entry]⟩
  | some b =>
    rw [hb] at hbefore hcount
    have hcount : st.apiCount = st.opsApiRanges.length + 1 := hcount
    have hlt : b < st.opCurrIndex := by
      obtain ⟨u, o, mid, hops, rfl, -⟩ := hshape.openCall b hb
      rw [hshape.index, hops, List.length_append, List.length_cons]
      omega
    refine ⟨?_, ?_, ?_, ?_⟩
    · rw [List.pairwise_append]
      refine ⟨h.ordered, List.pairwise_singleton _ _, fun r hr r' hr' => ?_⟩
      rw [List.mem_singleton.1 hr']
      exact hbefore r hr
    · intro r hr
      rcases List.mem_append.1 hr with hr | hr
      · exact (hbefore r hr).trans hlt.le
      · rw [List.mem_singleton.1 hr]
    · rw [hcount, List.length_append, List.length_singleton]
    · intro k r hk
      rcases lt_or_ge k st.opsApiRanges.length with hk' | hk'
      · rw [List.getElem?_append_left hk'] at hk
        exact (h.closed k r hk).append [entry]
      · -- the range that was just closed
        rw [List.getElem?_append_right hk', List.getElem?_singleton] at hk
        split at hk
        · cases hk
          have hk : k = st.apiCount - 1 := by omega
          rw [hk]
          exact (h.opened b hb).close hdone hentry
        · cases hk

/-- Ending the open call. -/
theorem Indexed.apiEnd (h : Indexed onlyPersist done st) (hshape : Shape st)
    (hdone : ReadsTo onlyPersist done st.opCurrIndex)
    (hentry : ReadsTo onlyPersist (done ++ [entry]) (st.opCurrIndex + 1)) {op : Op}
    (hids : (st.closeApi.append [op]).ops.map Op.id =
      List.range (st.closeApi.append [op]).ops.length)
    (hskip : st.skipLockModeling = entrySkips st.skipLockModeling entry) :
    Indexed onlyPersist (done ++ [entry]) (st.closeApi.append [op]) := by
  obtain ⟨hordered, hbefore, hlength, hclosed⟩ := h.closeApi hshape hdone hentry
  rw [closeApi_eq] at hids hordered hbefore hlength hclosed ⊢
  refine ⟨hids, hordered, ?_, hlength, h.unused, ?_, hclosed, ?_⟩
  · intro r hr
    exact (hbefore r hr).trans (Nat.le_succ _)
  · rw [skipsAfter_append_singleton, ← h.skip]
    exact hskip
  · intro c hc
    cases hc

/-- Beginning a call, which ends the open one. -/
theorem Indexed.apiBegin (h : Indexed onlyPersist done st) (hshape : Shape st)
    (hdone : ReadsTo onlyPersist done st.opCurrIndex)
    (hentry : ReadsTo onlyPersist (done ++ [entry]) (st.opCurrIndex + 1)) {op : Op}
    (hids : (st.closeApi.openApi.append [op]).ops.map Op.id =
      List.range (st.closeApi.openApi.append [op]).ops.length)
    (hskip : st.skipLockModeling = entrySkips st.skipLockModeling entry) :
    Indexed onlyPersist (done ++ [entry]) (st.closeApi.openApi.append [op]) := by
  obtain ⟨hordered, hbefore, hlength, hclosed⟩ := h.closeApi hshape hdone hentry
  rw [closeApi_eq] at hids hordered hbefore hlength hclosed ⊢
  refine ⟨hids, hordered, hbefore, congrArg Nat.succ hlength, ?_, ?_, hclosed, ?_⟩
  · intro k hk
    exact h.unused k (Nat.le_of_succ_le hk)
  · rw [skipsAfter_append_singleton, ← h.skip]
    exact hskip
  · intro c hc
    cases hc
    show AllocsSoFar onlyPersist _ st.opCurrIndex ((st.allocs.get? st.apiCount).getD [])
    rw [h.unused _ le_rfl]
    exact ⟨done, entry, [], by simp, hdone, hentry, rfl⟩

/-- **Every effect keeps the counters together.** -/
theorem Indexed.perform (h : Indexed onlyPersist done st) (hshape : Shape st)
    (hdone : ReadsTo onlyPersist done st.ops.length)
    (hentry : ReadsTo onlyPersist (done ++ [entry]) (st.perform e).ops.length)
    (he : e.Valid st.skipLockModeling st.opCurrApiBeginIndex.isSome st.opCurrIndex entry) :
    Indexed onlyPersist (done ++ [entry]) (st.perform e) := by
  have hids := map_id_perform h.ids hshape.index he
  have hskip := (perform_skip st e).trans he.skips
  have hallocs := he.allocs
  rw [← hshape.index] at hdone
  rw [perform_ops, List.length_append, ← hshape.index] at hentry
  cases e with
  | append ops b =>
    exact h.quiet hids rfl rfl (Nat.le_add_right _ _) rfl rfl hskip fun _ => hallocs.symm
  | load ops address srcInfo =>
    rw [Extraction.perform, recordLoad_eq] at hids hskip ⊢
    exact h.quiet hids rfl rfl (Nat.le_add_right _ _) rfl rfl hskip fun _ => hallocs.symm
  | apiBegin b =>
    exact h.apiBegin hshape hdone hentry hids he.skips
  | apiEnd b => exact h.apiEnd hshape hdone hentry hids he.skips
  | alloc a =>
    cases hb : st.opCurrApiBeginIndex with
    | none =>
      have hsame : st.perform (.alloc a) = st := by
        rw [Extraction.perform, recordAlloc, hb]
        rfl
      rw [hsame] at hids hskip ⊢
      exact h.quiet hids rfl rfl le_rfl rfl rfl hskip fun hsome => by
        rw [hb] at hsome
        cases hsome
    | some b => exact h.alloc hb he.skips hallocs.symm
  | br srcInfo => exact h.quiet hids rfl rfl le_rfl rfl rfl hskip fun _ => hallocs.symm

theorem indexed_start : Indexed onlyPersist [] start where
  ids := rfl
  ordered := List.Pairwise.nil
  before := by simp [start]
  count := rfl
  unused k _ := Dict.get?_empty k
  skip := rfl
  closed := by simp [start]
  opened := by simp [start]

/-- **Every run keeps the counters together.** -/
theorem indexed_run {st : Extraction}
    (hrun : entries.foldlM (Extraction.step onlyPersist) start = some st) :
    Indexed onlyPersist entries st := by
  refine Runs.invariant_run (Indexed onlyPersist) indexed_start ?_ hrun
  intro done entry st st' _ hst h hstep
  have hnext : (done ++ [entry]).foldlM (Extraction.step onlyPersist) start = some st' := by
    rw [List.foldlM_append, hst]
    simpa using hstep
  obtain ⟨e, he, rfl⟩ := exists_effect hstep
  exact h.perform (shape_run hst) ⟨_, congrArg (Option.map toTrace) hst, rfl⟩
    ⟨_, congrArg (Option.map toTrace) hnext, rfl⟩ he

end Extraction

section Ids

variable {onlyPersist : Bool} {entries : List Text} {trace : Trace}

/-- Ids are positions. -/
theorem id_of_getElem? (h : Trace.extractOperations onlyPersist entries = some trace) {i : Nat}
    {op : Op} (hop : trace.ops[i]? = some op) : op.id = i := by
  obtain ⟨st, hst, rfl⟩ := Option.map_eq_some_iff.1 h
  have hid : (st.ops.map Op.id)[i]? = some op.id := by
    rw [List.getElem?_map]
    exact congrArg (Option.map Op.id) hop
  rw [(Extraction.indexed_run hst).ids,
    List.getElem?_range (List.getElem?_eq_some_iff.1 hop).1] at hid
  exact (Option.some.inj hid).symm

/-- No operation comes twice. -/
theorem nodup_ops (h : Trace.extractOperations onlyPersist entries = some trace) :
    trace.ops.Nodup := by
  obtain ⟨st, hst, rfl⟩ := Option.map_eq_some_iff.1 h
  refine List.Nodup.of_map Op.id ?_
  rw [show st.toTrace.ops = st.ops from rfl, (Extraction.indexed_run hst).ids]
  exact List.nodup_range

theorem nodup_perApi (h : Trace.extractOperations onlyPersist entries = some trace)
    (r : Nat × Nat) : (trace.perApi r).Nodup :=
  (nodup_ops h).sublist ((List.take_sublist _ _).trans (List.drop_sublist _ _))

end Ids

/-- The range of an API call, by positions. -/
theorem IsApiCall.at_positions {ops : List Op} {r : Nat × Nat} (h : IsApiCall ops r) :
    r.1 < r.2 ∧ (∃ o, ops[r.1]? = some (.apiBegin o)) ∧
      (∃ last, ops[r.2]? = some last ∧ last.isBoundary = true) ∧
      ∀ i op, r.1 < i → i < r.2 → ops[i]? = some op → op.isBoundary = false := by
  obtain ⟨u, o, mid, last, w, rfl, rfl, hmid, hlast⟩ := h
  refine ⟨by simp only; omega, ⟨o, by simp⟩, ⟨last, ?_, hlast⟩, ?_⟩
  · simp [Nat.add_assoc]
  · intro i op hi hi' hop
    simp only at hi hi'
    have hpos : i - u.length = (i - u.length - 1) + 1 := by omega
    rw [List.getElem?_append_right hi.le, hpos, List.getElem?_cons_succ,
      List.getElem?_append_left (by omega)] at hop
    exact hmid op (List.mem_of_getElem? hop)

end Durinn
