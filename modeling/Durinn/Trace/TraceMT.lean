import Durinn.Lib.Runs
import Durinn.Trace.Parse

/-!
# Reading the trace of a two-thread run

The model of `trace_checker/lib/trace_mt.py`.  The reader keeps every operation whole, gives
it its position as id, and notes at which position each thread first occurs.

* `plain_extractOperations` — in a trace without loads, allocations, branches and locks, the
  ids are the positions, and each thread is noted where it first occurs.
* `threadStarts_segments` — if the threads come one after the other, that is where their
  segments start.
-/

namespace Durinn

open PyText

/-- `TraceMT`; an allocation or a branch as the first entry of a thread makes its noted
position one too small, so that it can be negative. -/
structure TraceMT where
  ops : List Op
  tids : List Nat
  opsThreadIdx : List Int
  deriving DecidableEq

/-- The variables of `TraceMT.extract_operations`. -/
structure ExtractionMT extends TraceMT where
  opCurrIndex : Nat
  skipLockModeling : Bool

/-- `if tid not in self.tids: ...`, on the two lists. -/
def noteTid (p : List Nat × List Int) (tid : Nat) (idx : Int) : List Nat × List Int :=
  if tid ∈ p.1 then p else (p.1 ++ [tid], p.2 ++ [idx])

/-- The thread of an operation. -/
def Op.tid (op : Op) : Nat := op.base.tid

namespace ExtractionMT

/-- Before the first entry. -/
def start : ExtractionMT := ⟨⟨[], [], []⟩, 0, false⟩

/-- Append an operation, which has the next id. -/
def append (st : ExtractionMT) (op : Op) : ExtractionMT :=
  { st with ops := st.ops ++ [op], opCurrIndex := st.opCurrIndex + 1 }

/-- Note the thread of an entry. -/
def record (st : ExtractionMT) (tid : Nat) (idx : Int) : ExtractionMT :=
  let p := noteTid (st.tids, st.opsThreadIdx) tid idx
  { st with tids := p.1, opsThreadIdx := p.2 }

/-- An entry outside the modelling of locks. -/
def extractEntry (st : ExtractionMT) (strs : List Text) : EntryKind → Option ExtractionMT
  | .alloc => do
      let base ← baseOf strs 4 0
      let _ ← natField 16 strs 2
      let _ ← natField 10 strs 3
      return st.record base.tid ((st.opCurrIndex : Int) - 1)
  | .br => (baseOf strs 2 0).map fun base => st.record base.tid ((st.opCurrIndex : Int) - 1)
  | kind => (parseOp strs st.opCurrIndex kind).map fun op =>
      (st.record op.tid st.opCurrIndex).append op

/-- The loop body of `TraceMT.extract_operations`. -/
def step (st : ExtractionMT) (entry : Text) : Option ExtractionMT :=
  let strs := entry.splitOn ','
  match entryKind strs with
  | some .lockBegin | some .unlockBegin => some { st with skipLockModeling := true }
  | some .lockEnd => (parseOp strs st.opCurrIndex .lockEnd).map fun op =>
      { st.append op with skipLockModeling := false }
  | some .unlockEnd => (parseOp strs st.opCurrIndex .unlockEnd).map fun op =>
      { st.append op with skipLockModeling := false }
  | kind? => if st.skipLockModeling then some st else kind?.bind (extractEntry st strs)

end ExtractionMT

namespace TraceMT

/-- `TraceMT.extract_operations`. -/
def extractOperations (entries : List Text) : Option TraceMT :=
  (entries.foldlM ExtractionMT.step ExtractionMT.start).map ExtractionMT.toTraceMT

/-- `TraceMT.__init__`, on the contents of the trace file. -/
def new (file : Text) : Option TraceMT :=
  extractOperations (terminated '\n' (universalNewlines file))

/-- The loop of `get_roll_back_idx` over the given positions: the first that holds a store
or a fence.  Noted positions are at least -1, so the positions are not negative. -/
def scanBack (ops : List Op) : List Int → Option Int
  | [] => none
  | i :: is =>
      match ops[i.toNat]? with
      | none => none
      | some (.store _) => some i
      | some (.fence _) => some i
      | some _ => scanBack ops is

/-- `TraceMT.get_roll_back_idx`: from the last operation before the third thread back to
the second operation of the second one.  `none` is an exception or `None`. -/
def getRollBackIdx (t : TraceMT) : Option Int := do
  let idx2 ← t.opsThreadIdx[2]?
  let idx1 ← t.opsThreadIdx[1]?
  scanBack t.ops ((List.range (idx2 - 1 - idx1).toNat).map fun k : Nat => idx2 - 1 - k)

end TraceMT

/-! ## Where the threads start -/

/-- Is the entry of a kind that a replayed run records? -/
def isPlain (entry : Text) : Prop :=
  entryKind (entry.splitOn ',') ∈
    [some .store, some .flush, some .fence, some .apiBegin, some .apiEnd]

instance (entry : Text) : Decidable (isPlain entry) :=
  inferInstanceAs (Decidable (_ ∈ _))

/-- The threads of a list of operations, each with the position where it first occurs. -/
def threadStarts (ops : List Op) : List Nat × List Int :=
  ops.zipIdx.foldl (fun p x => noteTid p x.1.tid x.2) ([], [])

theorem threadStarts_append_singleton (ops : List Op) (op : Op) :
    threadStarts (ops ++ [op]) = noteTid (threadStarts ops) op.tid ops.length := by
  simp [threadStarts, List.zipIdx_append]

/-- The threads of the operations, each listed once with the position of its first operation, in the
order of these positions. -/
structure StartsOf (ops : List Op) (tids : List Nat) (starts : List Int) : Prop where
  nodup : tids.Nodup
  mem_iff : ∀ tid, tid ∈ tids ↔ ∃ op ∈ ops, op.tid = tid
  first : starts = tids.map fun tid => (ops.findIdx fun op => op.tid = tid : Int)
  sorted : starts.Pairwise (· < ·)

/-- An operation of a thread does not move where the threads before it start. -/
theorem StartsOf.findIdx_append {ops : List Op} {tids : List Nat} {starts : List Int}
    (h : StartsOf ops tids starts) (op : Op) :
    starts = tids.map fun tid => ((ops ++ [op]).findIdx fun op => op.tid = tid : Int) := by
  rw [h.first]
  refine List.map_congr_left fun tid htid => ?_
  obtain ⟨o, ho, rfl⟩ := (h.mem_iff tid).1 htid
  have hlt : ops.findIdx (fun op => op.tid = o.tid) < ops.length :=
    List.findIdx_lt_length_of_exists ⟨o, ho, by simp⟩
  rw [List.findIdx_append, if_pos hlt]

/-- **Threads are noted where they start.** -/
theorem startsOf_threadStarts (ops : List Op) :
    StartsOf ops (threadStarts ops).1 (threadStarts ops).2 := by
  induction ops using List.reverseRecOn with
  | nil => exact ⟨List.nodup_nil, by simp [threadStarts], rfl, List.Pairwise.nil⟩
  | append_singleton ops op ih =>
    rw [threadStarts_append_singleton, noteTid]
    split_ifs with hmem
    · refine ⟨ih.nodup, fun tid => ?_, ih.findIdx_append op, ih.sorted⟩
      rw [ih.mem_iff]
      constructor
      · rintro ⟨o, ho, rfl⟩
        exact ⟨o, by simp [ho], rfl⟩
      · rintro ⟨o, ho, rfl⟩
        rcases List.mem_append.1 ho with ho | ho
        · exact ⟨o, ho, rfl⟩
        · rw [List.mem_singleton.1 ho]
          exact (ih.mem_iff _).1 hmem
    · have hnew : ∀ o ∈ ops, o.tid ≠ op.tid := fun o ho heq =>
        hmem ((ih.mem_iff _).2 ⟨o, ho, heq⟩)
      refine ⟨?_, fun tid => ?_, ?_, ?_⟩
      · exact List.nodup_append.2 ⟨ih.nodup, by simp, fun a ha b hb => by
          rintro rfl
          exact hmem (List.mem_singleton.1 hb ▸ ha)⟩
      · simp only [List.mem_append, List.mem_singleton, ih.mem_iff]
        constructor
        · rintro (⟨o, ho, rfl⟩ | rfl)
          · exact ⟨o, .inl ho, rfl⟩
          · exact ⟨op, .inr rfl, rfl⟩
        · rintro ⟨o, ho | rfl, rfl⟩
          · exact .inl ⟨o, ho, rfl⟩
          · exact .inr rfl
      · have hlast : (ops ++ [op]).findIdx (fun o => o.tid = op.tid) = ops.length := by
          have hnone : ops.findIdx (fun o => o.tid = op.tid) = ops.length :=
            List.findIdx_eq_length.2 fun o ho => by simpa using hnew o ho
          rw [List.findIdx_append, if_neg (by omega)]
          simp
        rw [List.map_append, ← ih.findIdx_append op, List.map_singleton, hlast]
      · refine List.pairwise_append.2 ⟨ih.sorted, List.pairwise_singleton _ _, ?_⟩
        intro i hi j hj
        rw [ih.first] at hi
        obtain ⟨tid, htid, rfl⟩ := List.mem_map.1 hi
        obtain ⟨o, ho, rfl⟩ := (ih.mem_iff tid).1 htid
        rw [List.mem_singleton.1 hj]
        exact Int.ofNat_lt.2 (List.findIdx_lt_length_of_exists ⟨o, ho, by simp⟩)

namespace ExtractionMT

/-- Such an entry appends one operation and notes its thread. -/
theorem step_of_plain {st : ExtractionMT} {entry : Text} (hskip : st.skipLockModeling = false)
    (hentry : isPlain entry) :
    ∃ kind, step st entry = (parseOp (entry.splitOn ',') st.opCurrIndex kind).map fun op =>
      (st.record op.tid st.opCurrIndex).append op := by
  simp only [isPlain, List.mem_cons, List.not_mem_nil, or_false] at hentry
  rcases hentry with h | h | h | h | h
  · exact ⟨.store, by simp [step, h, hskip, extractEntry]⟩
  · exact ⟨.flush, by simp [step, h, hskip, extractEntry]⟩
  · exact ⟨.fence, by simp [step, h, hskip, extractEntry]⟩
  · exact ⟨.apiBegin, by simp [step, h, hskip, extractEntry]⟩
  · exact ⟨.apiEnd, by simp [step, h, hskip, extractEntry]⟩

/-- What holds of the variables after plain entries. -/
structure PlainRun (st : ExtractionMT) : Prop where
  skip : st.skipLockModeling = false
  index : st.opCurrIndex = st.ops.length
  ids : st.ops.map Op.id = List.range st.ops.length
  starts : (st.tids, st.opsThreadIdx) = threadStarts st.ops

theorem PlainRun.step {st st' : ExtractionMT} (h : PlainRun st) {entry : Text}
    (hentry : isPlain entry) (hstep : ExtractionMT.step st entry = some st') : PlainRun st' := by
  obtain ⟨kind, hkind⟩ := step_of_plain h.skip hentry
  rw [hkind, Option.map_eq_some_iff] at hstep
  obtain ⟨op, hop, rfl⟩ := hstep
  have hid := (parseOp_spec hop).1
  refine ⟨h.skip, ?_, ?_, ?_⟩
  · simp [append, record, h.index]
  · have hops : ((st.record op.tid st.opCurrIndex).append op).ops = st.ops ++ [op] := rfl
    rw [hops, List.map_append, h.ids, List.length_append, List.length_singleton,
      List.range_succ, List.map_singleton, hid, h.index]
  · have hops : ((st.record op.tid st.opCurrIndex).append op).ops = st.ops ++ [op] := rfl
    rw [hops, threadStarts_append_singleton, ← h.starts, ← h.index]
    rfl

theorem plainRun {entries : List Text} (hplain : ∀ e ∈ entries, isPlain e) {st : ExtractionMT}
    (hrun : entries.foldlM ExtractionMT.step start = some st) : PlainRun st := by
  apply Runs.invariant (fun _ => PlainRun) ⟨rfl, rfl, rfl, rfl⟩ _ hrun
  intro done entry st st' hdone h hstep
  exact h.step (hplain entry (hdone.subset (by simp))) hstep

end ExtractionMT

/-- **Plain traces**: the ids are the positions, and each thread is noted where it first
occurs. -/
theorem plain_extractOperations {entries : List Text} (hplain : ∀ e ∈ entries, isPlain e)
    {t : TraceMT} (h : TraceMT.extractOperations entries = some t) :
    t.ops.map Op.id = List.range t.ops.length ∧ (t.tids, t.opsThreadIdx) = threadStarts t.ops := by
  obtain ⟨st, hst, rfl⟩ := Option.map_eq_some_iff.1 h
  have hrun := ExtractionMT.plainRun hplain hst
  exact ⟨hrun.ids, hrun.starts⟩

/-- A segment of a new thread is noted once, at its start. -/
theorem threadStarts_append {u w : List Op} {tid : Nat} (hw : w ≠ [])
    (htid : ∀ op ∈ w, op.tid = tid) (hnew : tid ∉ (threadStarts u).1) :
    threadStarts (u ++ w) =
      ((threadStarts u).1 ++ [tid], (threadStarts u).2 ++ [(u.length : Int)]) := by
  induction w using List.reverseRecOn with
  | nil => exact absurd rfl hw
  | append_singleton w op ih =>
    have hop := htid op (by simp)
    rw [← List.append_assoc, threadStarts_append_singleton, hop]
    by_cases hnil : w = []
    · subst hnil
      simp [noteTid, hnew]
    · rw [ih hnil fun o ho => htid o (by simp [ho])]
      simp [noteTid]

/-- The trace of three threads, one after the other. -/
structure Segments (ops main t1 t2 : List Op) : Prop where
  ops_eq : ops = main ++ t1 ++ t2
  ne_nil : main ≠ [] ∧ t1 ≠ [] ∧ t2 ≠ []
  tids : ∃ a b c, (∀ op ∈ main, op.tid = a) ∧ (∀ op ∈ t1, op.tid = b) ∧ (∀ op ∈ t2, op.tid = c) ∧
    a ≠ b ∧ a ≠ c ∧ b ≠ c

theorem threadStarts_segments {ops main t1 t2 : List Op} (h : Segments ops main t1 t2) :
    (threadStarts ops).1.length = 3 ∧
      (threadStarts ops).2 = [0, (main.length : Int), (main.length + t1.length : Nat)] := by
  obtain ⟨a, b, c, ha, hb, hc, hab, hac, hbc⟩ := h.tids
  have h0 : threadStarts [] = ([], []) := rfl
  have h1 := threadStarts_append (u := []) h.ne_nil.1 ha (by simp [h0])
  simp only [h0, List.nil_append, List.length_nil] at h1
  have h2 := threadStarts_append (u := main) h.ne_nil.2.1 hb (by rw [h1]; simp [hab.symm])
  rw [h1] at h2
  have h3 := threadStarts_append (u := main ++ t1) h.ne_nil.2.2 hc (by
    rw [h2]
    simp [hac.symm, hbc.symm])
  rw [h.ops_eq, h3, h2]
  simp

end Durinn
