import Durinn.Trace.LockModeling
import Durinn.Trace.TraceMT
import Durinn.Tracer.FlushRange
import Durinn.Tracer.Replay

/-!
# Whole trace files

A traced program makes calls of record functions from several threads, one after the other; what
they write is read by `Trace` or, if the run was a replayed one, by `TraceMT`.  The bytes of a
string are written and read as sign-extended numbers.

* `Invoked`, `Invoked.run` — a call in a run, and what it does to the run-time; `recordCAS` and
  `recordFlushWrapper` amount to several calls that write a line each.
* `run_written` — a run writes the lines of its calls (`written`), whatever the calls before left
  the stream like.
* `foldlM_entries`, `trace_of_run` — `Trace` reads the recorded operations, but for those that stand
  between the beginning of a modelled lock function and the next end of one, in any thread.
* `lines_replay`, `replay_of_run` — a replayed run writes the plain lines of the run.
* `traceMT_of_run` — `TraceMT` reads the file of a replayed run without an exception.
-/

namespace Durinn

open OStream PyText

/-! ## Calls -/

namespace Tracer

/-- `recordMmap`; `none` is a failed assertion.  A mapping at the hint is the persistent memory, and
any other is taken for its second mapping. -/
def recordMmap (t : Tracer) (_id : UInt32) (ptr length : UInt64) : Option Tracer :=
  if !t.recording then some t
  else if ptr = 18446744073709551615 then some t
  else if ptr = t.pmAddrStart then some { t with pmAddrEnd := ptr + length }
  else if ¬(t.pmAddrStartDup = 0 ∨ t.pmAddrStartDup = ptr) then none
  else if ¬(t.pmAddrEndDup = 0 ∨ t.pmAddrEndDup = ptr + length) then none
  else some { t with pmAddrStartDup := ptr, pmAddrEndDup := ptr + length }

end Tracer

/-- A call of a record function. -/
inductive Invocation where
  /-- A function that writes at most one line. -/
  | call (c : Call)
  | cas (id : UInt32) (p v length : UInt64)
  | flushWrapper (id : UInt32) (ptr length : UInt64)
  | mmap (id : UInt32) (ptr length : UInt64)

/-- A call in a run: the thread that makes it, and the memory at the time. -/
structure Invoked where
  tid : UInt64
  mem : Memory
  invocation : Invocation

/-- Carry out a call.  The loop of `recordFlushWrapper` comes back to a pointer that it has seen
after `2 ^ 58` turns, so it ends within these or not at all. -/
def Invoked.run (t : Tracer) (e : Invoked) : Option Tracer :=
  match e.invocation with
  | .call c => c.run t e.tid e.mem
  | .cas id p v length => t.recordCAS e.tid e.mem id p v length
  | .flushWrapper id ptr length => Tracer.recordFlushWrapper (2 ^ 58 + 1) t e.tid id ptr length
  | .mmap id ptr length => t.recordMmap id ptr length

/-! ## What is written -/

/-- The pointers for which the loop of `recordFlushWrapper` records a flush. -/
def flushPtrs (stop : UInt64) : Nat → UInt64 → List UInt64
  | 0, _ => []
  | turns + 1, p => if p < stop then p :: flushPtrs stop turns (p + 64) else []

/-- The calls with one line that a call amounts to. -/
def Invocation.calls (mem : Memory) : Invocation → List Call
  | .call c => [c]
  | .cas id p v length => .load id p length ::
      (if mem.bytes p.toNat length.toNat = (leBytes v).take length.toNat then
        [.atomicStore id p length] else [])
  | .flushWrapper id ptr length =>
      (flushPtrs (ptr + length) (2 ^ 58 + 1) (getAlignedAddr64 ptr)).map (.flush id)
  | .mmap _ _ _ => []

namespace Call

variable {t : Tracer} {tid : UInt64} {mem : Memory}

instance (p : UInt64) : Decidable (IsString mem p) :=
  decidable_of_iff (((mem.strlen p).any fun n => decide (n + 1 < 2 ^ 64)) = true) <| by
    simp [IsString, Option.any_eq_true]

instance (c : Call) : Decidable (c.Emits t mem) :=
  match c with
  | .lock _ _ | .lockBegin _ _ | .lockEnd _ _ | .unlock _ _ | .unlockBegin _ _ | .unlockEnd _ _ =>
      inferInstanceAs (Decidable (_ ∧ _))
  | .apiBegin _ | .apiEnd _ | .flush _ _ | .fence _ => inferInstanceAs (Decidable (_ = _))
  | .br _ | .load _ _ _ | .strLoad _ _ | .store _ _ _ | .atomicStore _ _ _ | .strStore _ _
  | .strcatStore _ _ _ | .alloc _ _ _ | .txAlloc _ _ _ => inferInstanceAs (Decidable (_ ∧ _))

/-- A string whose size is no number other than 0 is one that takes up all of the memory. -/
theorem ofNat_strlen_eq_zero {p : UInt64} {n : Nat} (hn : mem.strlen p = some n)
    (hnot : ¬IsString mem p) : UInt64.ofNat (n + 1) = 0 := by
  have hlt := (Memory.strlen_eq_some_iff.1 hn).1
  have hge : ¬n + 1 < 2 ^ 64 := fun h => hnot ⟨n, hn, h⟩
  have hsize : n + 1 = 2 ^ 64 := by omega
  rw [hsize]
  rfl

/-- **A call that is filtered out changes nothing.** -/
theorem run_silent {t' : Tracer} {c : Call} (h : ¬c.Emits t mem)
    (hrun : c.run t tid mem = some t') : t' = t := by
  cases c with
  | lock id p | lockBegin id p | lockEnd id p | unlock id p | unlockBegin id p | unlockEnd id p
  | apiBegin id | apiEnd id | br id | load id p length | store id p length
  | atomicStore id p length | flush id p | fence id | alloc id p length
  | txAlloc id p length =>
    cases hrun
    simp only [Emits, Tracer.recordLock, Tracer.recordLockBegin, Tracer.recordLockEnd,
      Tracer.recordUnlock, Tracer.recordUnlockBegin, Tracer.recordUnlockEnd, Tracer.recordAPIBegin,
      Tracer.recordAPIEnd, Tracer.recordBr, Tracer.recordLoad, Tracer.recordStore,
      Tracer.recordAtomicStore, Tracer.recordFlush, Tracer.recordFence, Tracer.recordAlloc,
      Tracer.recordTxAlloc, Tracer.recordObject] at h ⊢
    split_ifs <;> simp_all
  | strLoad id p =>
    rw [run, Tracer.recordStrLoad] at hrun
    split_ifs at hrun with hrec hreplay hpm
    · exact (Option.some.inj hrun).symm
    · exact (Option.some.inj hrun).symm
    · exact (Option.some.inj hrun).symm
    · obtain ⟨n, hn, rfl⟩ := Option.map_eq_some_iff.1 hrun
      refine if_pos (ofNat_strlen_eq_zero hn fun hstring => h ?_)
      exact ⟨by simpa using hrec, by simpa using hreplay, by simpa using hpm, hstring⟩
  | strStore id p =>
    rw [run, Tracer.recordStrStore] at hrun
    split_ifs at hrun with hrec hpm
    · exact (Option.some.inj hrun).symm
    · exact (Option.some.inj hrun).symm
    · obtain ⟨n, hn, rfl⟩ := Option.map_eq_some_iff.1 hrun
      refine if_pos (ofNat_strlen_eq_zero hn fun hstring => h ?_)
      exact ⟨by simpa using hrec, by simpa using hpm, hstring⟩
  | strcatStore id p s =>
    rw [run, Tracer.recordStrcatStore] at hrun
    split_ifs at hrun with hrec hpm
    · exact (Option.some.inj hrun).symm
    · exact (Option.some.inj hrun).symm
    · simp only [Option.bind_eq_bind, Option.bind_eq_some_iff, Option.pure_def,
        Option.some.injEq] at hrun
      obtain ⟨m, hm, n, hn, rfl⟩ := hrun
      refine if_pos (ofNat_strlen_eq_zero hn fun hstring => h ?_)
      exact ⟨by simpa using hrec, by simpa using hpm, by rw [hm]; rfl, hstring⟩

end Call

/-- A line of the trace file: the call that wrote it, with the run-time as it was then. -/
structure Entry where
  tracer : Tracer
  tid : UInt64
  mem : Memory
  call : Call

namespace Entry

/-- The text of the line. -/
def line (x : Entry) : Text := x.call.line x.tracer x.tid x.mem

/-- The operation that the line is read as. -/
def readOp (x : Entry) (i : Nat) : Option Op := x.call.readOp x.tracer x.tid x.mem i

end Entry

namespace Invoked

/-- The lines that a call writes. -/
def entries (t : Tracer) (e : Invoked) : List Entry :=
  ((e.invocation.calls e.mem).filter fun c => c.Emits t e.mem).map fun c => ⟨t, e.tid, e.mem, c⟩

/-- The run-time after a call, apart from the file: only the mappings change. -/
def remap (t : Tracer) (e : Invoked) : Tracer :=
  match e.invocation with
  | .mmap id ptr length => (t.recordMmap id ptr length).getD t
  | _ => t

end Invoked

/-- The lines that a run writes. -/
def written : Tracer → List Invoked → List Entry
  | _, [] => []
  | t, e :: es => e.entries t ++ written (e.remap t) es

variable {t t' : Tracer} {tid : UInt64} {mem : Memory} {r : OStream}

theorem unlines_append (ls ls' : List Text) : unlines (ls ++ ls') = unlines ls ++ unlines ls' :=
  List.flatMap_append

/-- One call with at most one line. -/
theorem Call.run_entries {c : Call} (hw : r.width = 0)
    (h : c.run { t with record := r } tid mem = some t') :
    ∃ r' : OStream, t' = { t with record := r' } ∧ r'.width = 0 ∧
      r'.out = r.out ++ unlines (if c.Emits t mem then [c.line t tid mem] else []) := by
  by_cases hemits : c.Emits t mem
  · have hemits' : c.Emits { t with record := r } mem := by cases c <;> exact hemits
    obtain ⟨t'', hrun, base, fill, rfl⟩ := Call.run_wrote tid hw hemits'
    cases h.symm.trans hrun
    refine ⟨_, rfl, rfl, ?_⟩
    have hline : c.fields { t with record := r } tid mem = c.fields t tid mem := by cases c <;> rfl
    simp [hemits, unlines, Call.line, hline]
  · have hsilent : ¬c.Emits { t with record := r } mem := fun h => hemits (by cases c <;> exact h)
    rw [Call.run_silent hsilent h]
    exact ⟨r, rfl, hw, by simp [hemits, unlines]⟩

/-- Calls of one thread, one after the other. -/
theorem foldlM_run_entries {calls : List Call} (hw : r.width = 0)
    (h : calls.foldlM (fun t c => c.run t tid mem) { t with record := r } = some t') :
    ∃ r' : OStream, t' = { t with record := r' } ∧ r'.width = 0 ∧
      r'.out = r.out ++
        unlines ((calls.filter fun c => c.Emits t mem).map fun c => c.line t tid mem) := by
  induction calls generalizing r with
  | nil =>
    cases h
    exact ⟨r, rfl, hw, by simp [unlines]⟩
  | cons c calls ih =>
    rw [List.foldlM_cons, Option.bind_eq_bind, Option.bind_eq_some_iff] at h
    obtain ⟨t₁, hrun, hrest⟩ := h
    obtain ⟨r₁, rfl, hw₁, hout₁⟩ := Call.run_entries hw hrun
    obtain ⟨r', rfl, hw', hout'⟩ := ih hw₁ hrest
    refine ⟨r', rfl, hw', ?_⟩
    rw [hout', hout₁, List.append_assoc, ← unlines_append, List.filter_cons]
    by_cases hemits : c.Emits t mem <;> simp [hemits]

/-- The loop of `recordFlushWrapper`. -/
theorem foldlM_flushPtrs {id : UInt32} {stop p : UInt64} {turns : Nat}
    (h : Tracer.flushLines tid id stop turns t p = some t') :
    ((flushPtrs stop turns p).map (Call.flush id)).foldlM (fun t c => c.run t tid mem) t =
      some t' := by
  induction turns generalizing t p with
  | zero => cases h
  | succ turns ih =>
    rw [Tracer.flushLines] at h
    rw [flushPtrs]
    split_ifs at h ⊢ with hlt
    · exact ih h
    · exact h

/-- A call that maps nothing is as good as those it amounts to. -/
theorem Invoked.foldlM_calls {e : Invoked}
    (hmap : ∀ id ptr length, e.invocation ≠ .mmap id ptr length) (h : e.run t = some t') :
    (e.invocation.calls e.mem).foldlM (fun t c => c.run t e.tid e.mem) t = some t' := by
  obtain ⟨tid, mem, invocation⟩ := e
  cases invocation with
  | call c => simpa [Invocation.calls, Invoked.run] using h
  | cas id p v length =>
    simp only [Invoked.run, Tracer.recordCAS] at h
    split_ifs at h with hlength hsame
    · cases h
      simp [Invocation.calls, hsame, Call.run]
    · cases h
      simp [Invocation.calls, hsame, Call.run]
  | flushWrapper id ptr length => exact foldlM_flushPtrs h
  | mmap id ptr length => exact absurd rfl (hmap id ptr length)

theorem Tracer.recordMmap_record {id : UInt32} {ptr length : UInt64}
    (h : Tracer.recordMmap { t with record := r } id ptr length = some t') :
    ∃ t₁, t.recordMmap id ptr length = some t₁ ∧ t' = { t₁ with record := r } := by
  unfold Tracer.recordMmap at h ⊢
  dsimp only at h
  split_ifs at h ⊢ <;> cases h <;> exact ⟨_, rfl, rfl⟩

/-- **What a run writes.**  The calls of all threads, in the order in which they are made, append
one line each, unless they are filtered out. -/
theorem run_written {es : List Invoked} (hw : r.width = 0)
    (h : es.foldlM Invoked.run { t with record := r } = some t') :
    ∃ (t₁ : Tracer) (r' : OStream), t' = { t₁ with record := r' } ∧ r'.width = 0 ∧
      r'.out = r.out ++ unlines ((written t es).map Entry.line) := by
  induction es generalizing t r with
  | nil =>
    cases h
    exact ⟨t, r, rfl, hw, by simp [written, unlines]⟩
  | cons e es ih =>
    rw [List.foldlM_cons, Option.bind_eq_bind, Option.bind_eq_some_iff] at h
    obtain ⟨t₁, hrun, hrest⟩ := h
    have hstep : ∃ r₁ : OStream, t₁ = { e.remap t with record := r₁ } ∧ r₁.width = 0 ∧
        r₁.out = r.out ++ unlines ((e.entries t).map Entry.line) := by
      by_cases hmap : ∃ id ptr length, e.invocation = .mmap id ptr length
      · obtain ⟨id, ptr, length, hinv⟩ := hmap
        rw [Invoked.run, hinv] at hrun
        obtain ⟨t₂, ht₂, rfl⟩ := Tracer.recordMmap_record hrun
        refine ⟨r, ?_, hw, ?_⟩
        · rw [Invoked.remap, hinv]
          simp only [ht₂, Option.getD_some]
        · simp [Invoked.entries, hinv, Invocation.calls, unlines]
      · have hmap : ∀ id ptr length, e.invocation ≠ .mmap id ptr length := fun id ptr length hinv =>
          hmap ⟨id, ptr, length, hinv⟩
        obtain ⟨r₁, rfl, hw₁, hout₁⟩ := foldlM_run_entries hw (Invoked.foldlM_calls hmap hrun)
        refine ⟨r₁, ?_, hw₁, ?_⟩
        · obtain ⟨tid, mem, invocation⟩ := e
          cases invocation with
          | mmap id ptr length => exact absurd rfl (hmap id ptr length)
          | _ => rfl
        · rw [hout₁, Invoked.entries, List.map_map]
          rfl
    obtain ⟨r₁, rfl, hw₁, hout₁⟩ := hstep
    obtain ⟨t₂, r', rfl, hw', hout'⟩ := ih hw₁ hrest
    refine ⟨t₂, r', rfl, hw', ?_⟩
    rw [hout', hout₁, written, List.map_append, unlines_append, List.append_assoc]

theorem emits_of_mem_written {es : List Invoked} {x : Entry} (hx : x ∈ written t es) :
    x.call.Emits x.tracer x.mem := by
  induction es generalizing t with
  | nil => cases hx
  | cons e es ih =>
    rw [written, List.mem_append] at hx
    rcases hx with hx | hx
    · obtain ⟨c, hc, rfl⟩ := List.mem_map.1 hx
      simpa using (List.mem_filter.1 hc).2
    · exact ih hx

theorem noLineEnd_lines (xs : List Entry) : ∀ l ∈ xs.map Entry.line, '\n' ∉ l ∧ '\r' ∉ l := by
  intro l hl
  obtain ⟨x, -, rfl⟩ := List.mem_map.1 hl
  exact Call.noLineEnd_line x.call

/-- A file that was written from the beginning. -/
theorem out_of_run {es : List Invoked} (hfresh : t.record = OStream.fresh)
    (h : es.foldlM Invoked.run t = some t') :
    t'.record.out = unlines ((written t es).map Entry.line) := by
  have ht : t = { t with record := OStream.fresh } := by rw [← hfresh]
  rw [ht] at h
  obtain ⟨t₁, r', rfl, -, hout⟩ := run_written (r := OStream.fresh) rfl h
  exact hout

/-- The lines of the file. -/
theorem entries_of_run {es : List Invoked} (hfresh : t.record = OStream.fresh)
    (h : es.foldlM Invoked.run t = some t') :
    (t'.record.out.splitOn '\n').dropLast = (written t es).map Entry.line := by
  rw [out_of_run hfresh h]
  exact terminated_unlines fun l hl => (noLineEnd_lines _ l hl).1

/-- The lines of the file as `open` reads it. -/
theorem terminated_of_run {es : List Invoked} (hfresh : t.record = OStream.fresh)
    (h : es.foldlM Invoked.run t = some t') :
    terminated '\n' (universalNewlines t'.record.out) = (written t es).map Entry.line := by
  rw [out_of_run hfresh h]
  exact terminated_universalNewlines_unlines (noLineEnd_lines _)

/-! ## What is read -/

/-- What the bracket of a modelled lock function is, in a call. -/
def Call.isBegin : Call → Bool
  | .lockBegin _ _ | .unlockBegin _ _ => true
  | _ => false

@[inherit_doc Call.isBegin]
def Call.isEnd : Call → Bool
  | .lockEnd _ _ | .unlockEnd _ _ => true
  | _ => false

/-- The lines that are not skipped.  Those from a `LockBegin` or `UnLockBegin` to the next `LockEnd`
or `UnLockEnd` are, whichever threads these lines are of and whichever call of a modelled lock
function they end; the end itself stands for an operation on the lock. -/
def unskipped : Bool → List Entry → List Entry
  | _, [] => []
  | skip, x :: xs =>
      if x.call.isBegin then unskipped true xs
      else if x.call.isEnd then x :: unskipped false xs
      else if skip then unskipped true xs
      else x :: unskipped false xs

/-- API calls end only while one is open. -/
def apiBalanced : Bool → List Entry → Bool
  | _, [] => true
  | isOpen, x :: xs =>
      match x.call with
      | .apiBegin _ => apiBalanced true xs
      | .apiEnd _ => isOpen && apiBalanced false xs
      | _ => apiBalanced isOpen xs

/-- The operations that the lines stand for, numbered from `i` on. -/
def numbered : Nat → List Entry → List Op
  | _, [] => []
  | i, x :: xs =>
      match x.readOp i with
      | some op => op :: numbered (i + 1) xs
      | none => numbered i xs

/-- Is an API call open after the effect? -/
def Effect.opens (isOpen : Bool) : Effect → Bool
  | .apiBegin _ => true
  | .apiEnd _ => false
  | _ => isOpen

namespace Extraction

theorem perform_isOpen (st : Extraction) (e : Effect) :
    (st.perform e).opCurrApiBeginIndex.isSome = e.opens st.opCurrApiBeginIndex.isSome := by
  cases e with
  | append | br | apiBegin => rfl
  | load =>
    rw [perform, recordLoad_eq]
    rfl
  | apiEnd =>
    rw [perform, closeApi_eq]
    rfl
  | alloc =>
    rw [perform, recordAlloc_eq]
    rfl

theorem perform_index (st : Extraction) (e : Effect) :
    (st.perform e).opCurrIndex = st.opCurrIndex + e.ops.length := by
  cases e with
  | append | br => rfl
  | load =>
    rw [perform, recordLoad_eq]
    rfl
  | apiBegin | apiEnd =>
    rw [perform, closeApi_eq]
    rfl
  | alloc =>
    rw [perform, recordAlloc_eq]
    rfl

end Extraction

namespace Entry

variable {x : Entry}

theorem effect_eq (skip isOpen : Bool) (i : Nat) (x : Entry) :
    effect false skip isOpen i x.line =
      if x.call.isBegin || x.call.isEnd then effect false false isOpen i x.line
      else if skip then some (.append [] true)
      else effect false false isOpen i x.line := by
  obtain ⟨t, tid, mem, c⟩ := x
  simp only [effect, Entry.line, (Call.splitOn_line c).1, Call.entryKind_fields]
  cases c <;> cases skip <;> rfl

/-- What a line that is not skipped does. -/
theorem effect_unskipped (h : x.call.Emits x.tracer x.mem) {isOpen : Bool}
    (hopen : ∀ id, x.call = .apiEnd id → isOpen = true) (i : Nat) :
    effect false false isOpen i x.line = some (x.call.lineEffect x.tracer x.tid x.mem isOpen i) :=
  Call.effect_line x.tid h hopen i

theorem effect_apiEnd_closed {id : UInt32} (hx : x.call = .apiEnd id) (i : Nat) :
    effect false false false i x.line = none := by
  obtain ⟨t, tid, mem, c⟩ := x
  subst hx
  simp only [effect, Entry.line, (Call.splitOn_line _).1, Call.entryKind_fields]
  rfl

end Entry

theorem Call.skips_lineEffect (c : Call) (isOpen : Bool) (i : Nat) :
    (c.lineEffect t tid mem isOpen i).skips false = c.isBegin := by
  cases c with
  | br id => cases isOpen <;> rfl
  | _ => rfl

theorem Call.opens_lineEffect (c : Call) (isOpen : Bool) (i : Nat) :
    (c.lineEffect t tid mem isOpen i).opens isOpen =
      match c with
      | .apiBegin _ => true
      | .apiEnd _ => false
      | _ => isOpen := by
  cases c with
  | br id => cases isOpen <;> rfl
  | _ => rfl

theorem numbered_cons (i : Nat) (x : Entry) (xs : List Entry) :
    numbered i (x :: xs) = (x.readOp i).toList ++ numbered (i + (x.readOp i).toList.length) xs := by
  rw [numbered]
  cases x.readOp i <;> rfl

/-- A line that is read, and those after it. -/
theorem unskipped_cons {skip : Bool} {x : Entry} (xs : List Entry)
    (h : skip = false ∨ (x.call.isBegin || x.call.isEnd) = true) :
    unskipped skip (x :: xs) =
      (if x.call.isBegin then [] else [x]) ++ unskipped x.call.isBegin xs := by
  rw [unskipped]
  cases hbegin : x.call.isBegin with
  | true => rfl
  | false =>
    rw [hbegin, Bool.false_or] at h
    cases hend : x.call.isEnd with
    | true => rfl
    | false =>
      rw [hend] at h
      rw [h.resolve_right Bool.false_ne_true]
      rfl

theorem apiBalanced_cons {isOpen : Bool} {x : Entry} (xs : List Entry)
    (hopen : ∀ id, x.call = .apiEnd id → isOpen = true) (i : Nat) :
    apiBalanced isOpen ((if x.call.isBegin then [] else [x]) ++ xs) =
      apiBalanced ((x.call.lineEffect x.tracer x.tid x.mem isOpen i).opens isOpen) xs := by
  rw [Call.opens_lineEffect]
  obtain ⟨t, tid, mem, c⟩ := x
  cases c with
  | apiEnd id =>
    rw [hopen id rfl]
    rfl
  | _ => rfl

theorem numbered_append_begin (i : Nat) (x : Entry) (xs : List Entry) :
    numbered i ((if x.call.isBegin then [] else [x]) ++ xs) =
      (x.readOp i).toList ++ numbered (i + (x.readOp i).toList.length) xs := by
  cases hbegin : x.call.isBegin with
  | false => exact numbered_cons i x xs
  | true =>
    have hnone : x.readOp i = none := by
      obtain ⟨t, tid, mem, c⟩ := x
      cases c <;> first | rfl | cases hbegin
    rw [hnone]
    rfl

/-- A line that is read. -/
theorem Entry.step_read {x : Entry} (hx : x.call.Emits x.tracer x.mem) {st : Extraction}
    (hread : st.skipLockModeling = false ∨ (x.call.isBegin || x.call.isEnd) = true)
    (hopen : ∀ id, x.call = .apiEnd id → st.opCurrApiBeginIndex.isSome = true) :
    let st' := st.perform (x.call.lineEffect x.tracer x.tid x.mem st.opCurrApiBeginIndex.isSome
      st.opCurrIndex)
    Extraction.step false st x.line = some st' ∧ st'.skipLockModeling = x.call.isBegin := by
  refine ⟨?_, ?_⟩
  · rw [Extraction.step_eq_perform, Entry.effect_eq]
    rcases hread with hskip | hbracket
    · simp [hskip, Entry.effect_unskipped hx hopen]
    · rw [if_pos hbracket, Entry.effect_unskipped hx hopen]
      rfl
  · rw [Extraction.perform_skip]
    rcases hread with hskip | hbracket
    · rw [hskip, Call.skips_lineEffect]
    · cases hc : x.call <;> rw [hc] at hbracket <;> first | rfl | cases hbracket

/-- An API call ends that was not begun. -/
theorem Entry.step_closed {x : Entry} {st : Extraction}
    (hread : st.skipLockModeling = false ∨ (x.call.isBegin || x.call.isEnd) = true)
    {id : UInt32} (hid : x.call = .apiEnd id) (hclosed : st.opCurrApiBeginIndex.isSome = false) :
    Extraction.step false st x.line = none := by
  have hskip : st.skipLockModeling = false := by
    refine hread.resolve_right ?_
    rw [hid]
    exact Bool.false_ne_true
  rw [Extraction.step_eq_perform, hskip, hclosed, Entry.effect_apiEnd_closed hid]
  rfl

/-- A line that is skipped. -/
theorem Entry.step_skipped {x : Entry} {st : Extraction} (hskip : st.skipLockModeling = true)
    (hbracket : (x.call.isBegin || x.call.isEnd) = false) :
    Extraction.step false st x.line = some st := by
  rw [Extraction.step_eq_perform, Entry.effect_eq, hbracket, if_neg Bool.false_ne_true,
    if_pos hskip, Option.map_some, Extraction.perform_append hskip, Extraction.append_nil]

/-- **Reading the lines of a run** gives the operations of those that are not skipped, if API calls
end only while one is open. -/
theorem foldlM_entries {xs : List Entry} (hxs : ∀ x ∈ xs, x.call.Emits x.tracer x.mem)
    (st : Extraction) :
    ((xs.map Entry.line).foldlM (Extraction.step false) st).map (fun st => st.ops) =
      if apiBalanced st.opCurrApiBeginIndex.isSome (unskipped st.skipLockModeling xs) then
        some (st.ops ++ numbered st.opCurrIndex (unskipped st.skipLockModeling xs)) else none := by
  induction xs generalizing st with
  | nil => simp [unskipped, apiBalanced, numbered]
  | cons x xs ih =>
    rw [List.forall_mem_cons] at hxs
    rw [List.map_cons, List.foldlM_cons]
    by_cases hread : st.skipLockModeling = false ∨ (x.call.isBegin || x.call.isEnd) = true
    · rw [unskipped_cons xs hread]
      by_cases hopen : ∀ id, x.call = .apiEnd id → st.opCurrApiBeginIndex.isSome = true
      · obtain ⟨hstep, hskip⟩ := Entry.step_read hxs.1 hread hopen
        have hih := ih hxs.2 (st.perform (x.call.lineEffect x.tracer x.tid x.mem
          st.opCurrApiBeginIndex.isSome st.opCurrIndex))
        rw [hskip, Extraction.perform_isOpen, Extraction.perform_index, Extraction.perform_ops,
          Call.ops_lineEffect] at hih
        rw [hstep, apiBalanced_cons _ hopen st.opCurrIndex, numbered_append_begin,
          ← List.append_assoc]
        exact hih
      · obtain ⟨id, hid, hclosed⟩ : ∃ id, x.call = .apiEnd id ∧
            st.opCurrApiBeginIndex.isSome = false := by
          by_contra hnot
          refine hopen fun id hid => ?_
          by_contra hclosed
          exact hnot ⟨id, hid, Bool.eq_false_iff.2 hclosed⟩
        have hbegin : x.call.isBegin = false := by rw [hid]; rfl
        rw [Entry.step_closed hread hid hclosed, hclosed, hbegin, if_neg Bool.false_ne_true,
          List.singleton_append, apiBalanced, hid]
        rfl
    · rw [not_or, Bool.not_eq_false, Bool.not_eq_true] at hread
      rw [Entry.step_skipped hread.1 hread.2, unskipped]
      rw [Bool.or_eq_false_iff] at hread
      rw [hread.2.1, hread.2.2, hread.1]
      have hih := ih hxs.2 st
      rw [hread.1] at hih
      exact hih

/-- **A trace file says what was recorded.**  Whatever calls of record functions the threads of a
program make, and in whatever order, the trace that is read from the file consists of the recorded
operations in that order, but for those from a `LockBegin` or `UnLockBegin` line to the next
`LockEnd` or `UnLockEnd` line of any thread; and it is read without an exception if and only if
among the lines that are left no API call ends that was not begun. -/
theorem trace_of_run {es : List Invoked} (hfresh : t.record = OStream.fresh)
    (h : es.foldlM Invoked.run t = some t') :
    (Trace.new t'.record.out false).map (fun trace => trace.ops) =
      if apiBalanced false (unskipped false (written t es)) then
        some (numbered 0 (unskipped false (written t es))) else none := by
  have hemits : ∀ x ∈ written t es, x.call.Emits x.tracer x.mem := fun x hx =>
    emits_of_mem_written hx
  rw [Trace.new, terminated_of_run hfresh h, Trace.extractOperations, Option.map_map]
  exact foldlM_entries hemits Extraction.start

/-- Two threads, of which one stores something in an API call. -/
def twoThreads : List Invoked :=
  [⟨1, Call.smallMemory, .call (.apiBegin 2)⟩, ⟨2, Call.smallMemory, .call (.load 3 0x40 2)⟩,
    ⟨1, Call.smallMemory, .cas 4 0x40 0x417e 2⟩, ⟨2, Call.smallMemory, .call (.lock 5 0x40)⟩,
    ⟨1, Call.smallMemory, .call (.apiEnd 6)⟩]

theorem trace_of_run_twoThreads :
    ∃ t' trace, twoThreads.foldlM Invoked.run Call.smallPm = some t' ∧
      Trace.new t'.record.out false = some trace ∧
      trace.ops.map Op.id = [0, 1, 2, 3, 4, 5] := by
  have hrun : twoThreads.foldlM Invoked.run Call.smallPm = some _ := rfl
  have hread := trace_of_run rfl hrun
  rw [if_pos (by decide +kernel)] at hread
  obtain ⟨trace, htrace, hops⟩ := Option.map_eq_some_iff.1 hread
  refine ⟨_, trace, hrun, htrace, ?_⟩
  rw [hops]
  decide +kernel

/-! ## Replayed runs -/

/-- The calls that are recorded when a run is replayed. -/
def Call.isPlain : Call → Bool
  | .apiBegin _ | .apiEnd _ | .store _ _ _ | .atomicStore _ _ _ | .strStore _ _
  | .strcatStore _ _ _ | .flush _ _ | .fence _ => true
  | _ => false

theorem Entry.isPlain_line (x : Entry) : isPlain x.line ↔ x.call.isPlain = true := by
  obtain ⟨t, tid, mem, c⟩ := x
  rw [isPlain, Entry.line, (Call.splitOn_line c).1, Call.entryKind_fields]
  cases c <;> simp [Call.kind, Call.isPlain]

/-- In a replayed run, of the lines that would be written otherwise only the plain ones are. -/
theorem Call.emits_replay_iff (c : Call) :
    c.Emits { t with replayMode := true } mem ↔
      c.Emits { t with replayMode := false } mem ∧ c.isPlain = true := by
  cases c with
  | lock | lockBegin | lockEnd | unlock | unlockBegin | unlockEnd | br | load | strLoad | alloc
  | txAlloc =>
    simp [Emits, Call.isPlain]
  | apiBegin | apiEnd | store | atomicStore | strStore | strcatStore | flush | fence =>
    exact ⟨fun h => ⟨h, rfl⟩, fun h => h.1⟩

theorem Invoked.remap_replayMode (t : Tracer) (e : Invoked) (b : Bool) :
    e.remap { t with replayMode := b } = { e.remap t with replayMode := b } := by
  obtain ⟨tid, mem, invocation⟩ := e
  cases invocation with
  | mmap id ptr length =>
    simp only [Invoked.remap, Tracer.recordMmap]
    split_ifs <;> rfl
  | _ => rfl

theorem Call.line_replayMode (c : Call) (b : Bool) :
    c.line { t with replayMode := b } tid mem = c.line t tid mem := by
  cases c <;> rfl

theorem Invoked.lines_replay (e : Invoked) :
    (e.entries { t with replayMode := true }).map Entry.line =
      ((e.entries { t with replayMode := false }).map Entry.line).filter fun l => isPlain l := by
  have hlines : ∀ b, (e.entries { t with replayMode := b }).map Entry.line =
      ((e.invocation.calls e.mem).filter fun c => c.Emits { t with replayMode := b } e.mem).map
        fun c => c.line t e.tid e.mem := by
    intro b
    rw [Invoked.entries, List.map_map]
    exact List.map_congr_left fun c _ => Call.line_replayMode c b
  rw [hlines, hlines, List.filter_map, List.filter_filter]
  refine congrArg (List.map _) (List.filter_congr fun c _ => ?_)
  rw [Bool.eq_iff_iff, Bool.and_eq_true, decide_eq_true_iff, decide_eq_true_iff,
    Call.emits_replay_iff, and_comm]
  refine and_congr_left fun _ => ?_
  rw [Function.comp_apply, decide_eq_true_iff]
  exact (Entry.isPlain_line ⟨t, e.tid, e.mem, c⟩).symm

/-- **A replayed run writes the plain lines of the run.** -/
theorem lines_replay (t : Tracer) (es : List Invoked) :
    (written { t with replayMode := true } es).map Entry.line =
      ((written { t with replayMode := false } es).map Entry.line).filter fun l => isPlain l := by
  induction es generalizing t with
  | nil => rfl
  | cons e es ih =>
    rw [written, written, List.map_append, List.map_append, List.filter_append,
      Invoked.remap_replayMode t e true, Invoked.remap_replayMode t e false, ih,
      Invoked.lines_replay]

/-- **A replayed run writes the plain lines of the run**: if the same calls are made once while a
run is replayed and once not, the first file has the lines of the second one that are plain. -/
theorem replay_of_run {t₁ t₂ : Tracer} {es : List Invoked} (hfresh : t.record = OStream.fresh)
    (h₁ : es.foldlM Invoked.run { t with replayMode := true } = some t₁)
    (h₂ : es.foldlM Invoked.run { t with replayMode := false } = some t₂) :
    (t₁.record.out.splitOn '\n').dropLast =
      (t₂.record.out.splitOn '\n').dropLast.filter fun l => isPlain l := by
  rw [entries_of_run (t := { t with replayMode := true }) hfresh h₁,
    entries_of_run (t := { t with replayMode := false }) hfresh h₂]
  exact lines_replay t es

theorem replay_of_run_twoThreads :
    ∃ t₁ t₂, twoThreads.foldlM Invoked.run { Call.smallPm with replayMode := true } = some t₁ ∧
      twoThreads.foldlM Invoked.run { Call.smallPm with replayMode := false } = some t₂ ∧
      (t₁.record.out.splitOn '\n').dropLast =
        (t₂.record.out.splitOn '\n').dropLast.filter fun l => isPlain l := by
  have h₁ : twoThreads.foldlM Invoked.run { Call.smallPm with replayMode := true } = some _ := rfl
  have h₂ : twoThreads.foldlM Invoked.run { Call.smallPm with replayMode := false } = some _ := rfl
  exact ⟨_, _, h₁, h₂, replay_of_run (t := Call.smallPm) rfl h₁ h₂⟩

/-- **Reading the lines of a replayed run** with `TraceMT`. -/
theorem foldlM_plain {xs : List Entry} (hxs : ∀ x ∈ xs, x.call.Emits x.tracer x.mem)
    (hplain : ∀ x ∈ xs, x.call.isPlain = true) {st : ExtractionMT}
    (hskip : st.skipLockModeling = false) :
    ∃ st', (xs.map Entry.line).foldlM ExtractionMT.step st = some st' ∧
      st'.ops = st.ops ++ numbered st.opCurrIndex xs := by
  induction xs generalizing st with
  | nil => exact ⟨st, rfl, by simp [numbered]⟩
  | cons x xs ih =>
    rw [List.forall_mem_cons] at hxs hplain
    have hop : ∃ op, x.readOp st.opCurrIndex = some op := by
      obtain ⟨t, tid, mem, c⟩ := x
      cases c <;> first | exact ⟨_, rfl⟩ | cases hplain.1
    obtain ⟨op, hop⟩ := hop
    have hstep : ExtractionMT.step st x.line =
        some ((st.record op.tid st.opCurrIndex).append op) := by
      have hparse := Call.parseOp_fields x.tid hxs.1 st.opCurrIndex
      rw [show x.call.readOp x.tracer x.tid x.mem st.opCurrIndex = some op from hop] at hparse
      obtain ⟨t, tid, mem, c⟩ := x
      simp only [ExtractionMT.step, Entry.line, (Call.splitOn_line c).1, Call.entryKind_fields,
        hskip]
      cases c <;> first
        | exact congrArg (Option.map _) hparse
        | cases hplain.1
    have hskip' : ((st.record op.tid st.opCurrIndex).append op).skipLockModeling = false := hskip
    obtain ⟨st', hrun, hops⟩ := ih hxs.2 hplain.2 hskip'
    refine ⟨st', ?_, ?_⟩
    · rw [List.map_cons, List.foldlM_cons, hstep]
      exact hrun
    · rw [hops, numbered, hop]
      show st.ops ++ [op] ++ _ = _
      rw [List.append_assoc]
      rfl

theorem isPlain_of_replay {es : List Invoked} (hreplay : t.replayMode = true) :
    ∀ x ∈ written t es, x.call.isPlain = true := by
  induction es generalizing t with
  | nil => exact List.forall_mem_nil _
  | cons e es ih =>
    intro x hx
    rw [written, List.mem_append] at hx
    rcases hx with hx | hx
    · obtain ⟨c, hc, rfl⟩ := List.mem_map.1 hx
      have hemits : c.Emits t e.mem := by simpa using (List.mem_filter.1 hc).2
      have ht : t = { t with replayMode := true } := by rw [← hreplay]
      rw [ht] at hemits
      exact ((Call.emits_replay_iff c).1 hemits).2
    · refine ih ?_ x hx
      have ht : t = { t with replayMode := true } := by rw [← hreplay]
      rw [ht, Invoked.remap_replayMode]

/-- **The trace of a replayed run is read.**  Whatever the threads do and however they are
interleaved, `TraceMT` reads the file without an exception; its operations are the recorded ones
with their positions as ids, and each thread is noted once, where it first occurs. -/
theorem traceMT_of_run {es : List Invoked} (hfresh : t.record = OStream.fresh)
    (hreplay : t.replayMode = true) (h : es.foldlM Invoked.run t = some t') :
    ∃ trace, TraceMT.new t'.record.out = some trace ∧ trace.ops = numbered 0 (written t es) ∧
      trace.ops.map Op.id = List.range trace.ops.length ∧
      (trace.tids, trace.opsThreadIdx) = threadStarts trace.ops ∧
      StartsOf trace.ops trace.tids trace.opsThreadIdx := by
  have hplain : ∀ x ∈ written t es, x.call.isPlain = true := isPlain_of_replay hreplay
  have hstart : ExtractionMT.start.skipLockModeling = false := rfl
  obtain ⟨st, hrun, hops⟩ := foldlM_plain (fun x hx => emits_of_mem_written hx) hplain hstart
  have hextract : TraceMT.extractOperations ((written t es).map Entry.line) =
      some st.toTraceMT := by
    rw [TraceMT.extractOperations, hrun]
    rfl
  have hlines : ∀ l ∈ (written t es).map Entry.line, isPlain l := by
    intro l hl
    obtain ⟨x, hx, rfl⟩ := List.mem_map.1 hl
    exact (Entry.isPlain_line x).2 (hplain x hx)
  obtain ⟨hids, hthreads⟩ := plain_extractOperations hlines hextract
  refine ⟨st.toTraceMT, ?_, hops, hids, hthreads, ?_⟩
  · rw [TraceMT.new, terminated_of_run hfresh h, hextract]
  · have hstarts := startsOf_threadStarts st.ops
    rwa [← hthreads] at hstarts

/-- In the replayed run of two threads, the second one is noted at its first store. -/
def twoThreadsStore : List Invoked :=
  twoThreads ++ [⟨2, Call.smallMemory, .call (.store 7 0x40 2)⟩]

theorem traceMT_of_run_twoThreads :
    ∃ t' trace, twoThreadsStore.foldlM Invoked.run { Call.smallPm with replayMode := true } =
        some t' ∧
      TraceMT.new t'.record.out = some trace ∧
      trace.ops.map Op.id = List.range trace.ops.length ∧ trace.tids = [1, 2] ∧
      trace.opsThreadIdx = [0, 3] := by
  have hrun : twoThreadsStore.foldlM Invoked.run { Call.smallPm with replayMode := true } =
    some _ := rfl
  obtain ⟨trace, hnew, hops, hids, hthreads, -⟩ := traceMT_of_run rfl rfl hrun
  have hstarts : threadStarts trace.ops = ([1, 2], [0, 3]) := by
    rw [hops]
    decide +kernel
  rw [hstarts, Prod.mk.injEq] at hthreads
  exact ⟨_, trace, hrun, hnew, hids, hthreads.1, hthreads.2⟩

end Durinn
