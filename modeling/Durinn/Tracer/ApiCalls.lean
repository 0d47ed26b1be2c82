import Durinn.Tracer.Session

/-!
# What is read inside API calls

Besides the operations, `Trace` collects the branches and the loads that were recorded while an API
call was open; the checkers choose the linearization points by them.

* `inApi` — the lines of a file that lie inside API calls.
* `mem_perform`, `mem_foldlM` — one line, and all lines of a file.
* `mem_trace_of_run` — the branches and the loads of a trace are those of the calls inside API
  calls.
-/

namespace Durinn

open OStream PyText

/-- The lines inside API calls. -/
def inApi : Bool → List Entry → List Entry
  | _, [] => []
  | isOpen, x :: xs =>
      match x.call with
      | .apiBegin _ => inApi true xs
      | .apiEnd _ => inApi false xs
      | _ => if isOpen then x :: inApi isOpen xs else inApi isOpen xs

namespace Entry

/-- The instruction of a branch. -/
def branch? (x : Entry) : Option Text :=
  match x.call with
  | .br id => some (Tracer.decField id.toNat)
  | _ => none

/-- The instruction and the address of a load. -/
def load? (x : Entry) : Option (Text × Nat) :=
  match x.call with
  | .load id p _ | .strLoad id p => some (Tracer.decField id.toNat, (x.tracer.getPmAddr p).toNat)
  | _ => none

end Entry

/-- The instruction loaded from the address. -/
def Trace.Loads (trace : Trace) (src : Text) (address : Nat) : Prop :=
  address ∈ (trace.loadSrcToAddrs.get? src).getD ∅

variable {t t' : Tracer} {st st' : Extraction}

theorem Trace.loads_set {d : Dict Text (Finset Nat)} {src src' : Text} {address address' : Nat} :
    address ∈ ((d.set src' (insert address' ((d.get? src').getD ∅))).get? src).getD ∅ ↔
      address ∈ (d.get? src).getD ∅ ∨ (src', address') = (src, address) := by
  rw [Dict.get?_set, Prod.mk.injEq]
  by_cases hsrc : src = src'
  · subst hsrc
    simp [eq_comm, or_comm]
  · simp [hsrc, Ne.symm hsrc]

namespace Extraction

/-- What one effect adds. -/
theorem mem_perform_effect (st : Extraction) (e : Effect) (src : Text) (address : Nat) :
    (src ∈ (st.perform e).brSrcs ↔ src ∈ st.brSrcs ∨ e = .br src) ∧
      ((st.perform e).Loads src address ↔ st.Loads src address ∨
        st.opCurrApiBeginIndex.isSome = true ∧ ∃ ops, e = .load ops address src) := by
  cases e with
  | append ops skip => simp [perform, append, Trace.Loads]
  | load ops address' src' =>
    rw [perform, recordLoad_eq]
    refine ⟨by simp [append], ?_⟩
    cases hopen : st.opCurrApiBeginIndex.isSome with
    | false => simp [Trace.Loads, append, hopen]
    | true =>
      simp only [Trace.Loads, append, hopen, if_true, Trace.loads_set, true_and, Effect.load.injEq,
        Prod.mk.injEq]
      refine or_congr_right ?_
      constructor
      · rintro ⟨rfl, rfl⟩
        exact ⟨ops, rfl, rfl, rfl⟩
      · rintro ⟨_, -, rfl, rfl⟩
        exact ⟨rfl, rfl⟩
  | apiBegin b => simp [perform, append, openApi, closeApi_eq, Trace.Loads]
  | apiEnd b => simp [perform, append, closeApi_eq, Trace.Loads]
  | alloc alloc => simp [perform, recordAlloc_eq, Trace.Loads]
  | br src' =>
    refine ⟨?_, by simp [perform, Trace.Loads]⟩
    rw [perform, Finset.mem_insert, or_comm, Effect.br.injEq, eq_comm]

end Extraction

/-- **What one line adds.** -/
theorem mem_perform (st : Extraction) (x : Entry) (i : Nat) (src : Text) (address : Nat) :
    let st' := st.perform (x.call.lineEffect x.tracer x.tid x.mem st.opCurrApiBeginIndex.isSome i)
    (src ∈ st'.brSrcs ↔
        src ∈ st.brSrcs ∨ st.opCurrApiBeginIndex.isSome = true ∧ x.branch? = some src) ∧
      (st'.Loads src address ↔ st.Loads src address ∨
        st.opCurrApiBeginIndex.isSome = true ∧ x.load? = some (src, address)) := by
  obtain ⟨hbr, hload⟩ := st.mem_perform_effect
    (x.call.lineEffect x.tracer x.tid x.mem st.opCurrApiBeginIndex.isSome i) src address
  refine ⟨hbr.trans (or_congr_right ?_), hload.trans (or_congr_right (and_congr_right fun _ => ?_))⟩
  · obtain ⟨t, tid, mem, c⟩ := x
    cases c with
    | br id => cases st.opCurrApiBeginIndex <;> simp [Call.lineEffect, Entry.branch?]
    | _ => simp [Call.lineEffect, Entry.branch?]
  · obtain ⟨t, tid, mem, c⟩ := x
    cases c with
    | br id => cases st.opCurrApiBeginIndex <;> simp [Call.lineEffect, Entry.load?]
    | load id p length | strLoad id p =>
      simp [Call.lineEffect, Entry.load?, and_comm]
    | _ => simp [Call.lineEffect, Entry.load?]

/-- The first of some lines. -/
theorem exists_inApi_cons {isOpen : Bool} {x : Entry} {xs : List Entry} {P : Entry → Prop}
    (hP : ∀ y, P y → y.branch?.isSome = true ∨ y.load?.isSome = true) (i : Nat) :
    (∃ y ∈ inApi isOpen ((if x.call.isBegin then [] else [x]) ++ xs), P y) ↔
      isOpen = true ∧ P x ∨
        ∃ y ∈ inApi ((x.call.lineEffect x.tracer x.tid x.mem isOpen i).opens isOpen) xs, P y := by
  rw [Call.opens_lineEffect]
  obtain ⟨t, tid, mem, c⟩ := x
  have hx := hP ⟨t, tid, mem, c⟩
  cases c with
  | lockBegin id p | unlockBegin id p | apiBegin id | apiEnd id =>
    have hnot : ¬ P _ := fun hp => by simpa [Entry.branch?, Entry.load?] using hx hp
    simp [inApi, Call.isBegin, hnot]
  | _ => cases isOpen <;> simp [inApi, Call.isBegin]

/-- **What the lines of a file add.** -/
theorem mem_foldlM {xs : List Entry} (hxs : ∀ x ∈ xs, x.call.Emits x.tracer x.mem)
    (h : (xs.map Entry.line).foldlM (Extraction.step false) st = some st') (src : Text)
    (address : Nat) :
    (src ∈ st'.brSrcs ↔ src ∈ st.brSrcs ∨
        ∃ x ∈ inApi st.opCurrApiBeginIndex.isSome (unskipped st.skipLockModeling xs),
          x.branch? = some src) ∧
      (st'.Loads src address ↔ st.Loads src address ∨
        ∃ x ∈ inApi st.opCurrApiBeginIndex.isSome (unskipped st.skipLockModeling xs),
          x.load? = some (src, address)) := by
  induction xs generalizing st with
  | nil =>
    cases h
    simp [unskipped, inApi]
  | cons x xs ih =>
    rw [List.forall_mem_cons] at hxs
    rw [List.map_cons, List.foldlM_cons, Option.bind_eq_bind, Option.bind_eq_some_iff] at h
    obtain ⟨st₁, hstep, h⟩ := h
    by_cases hread : st.skipLockModeling = false ∨ (x.call.isBegin || x.call.isEnd) = true
    · have hopen : ∀ id, x.call = .apiEnd id → st.opCurrApiBeginIndex.isSome = true := by
        intro id hid
        by_contra hclosed
        cases (Entry.step_closed hread hid (Bool.eq_false_iff.2 hclosed)).symm.trans hstep
      obtain ⟨hstep', hskip⟩ := Entry.step_read hxs.1 hread hopen
      cases hstep.symm.trans hstep'
      obtain ⟨hbr, hload⟩ := ih hxs.2 h
      obtain ⟨hbr', hload'⟩ := mem_perform st x st.opCurrIndex src address
      rw [hskip, Extraction.perform_isOpen] at hbr hload
      rw [unskipped_cons xs hread]
      rw [exists_inApi_cons (fun y hy => Or.inl (Option.isSome_of_eq_some hy)) st.opCurrIndex,
        exists_inApi_cons (fun y hy => Or.inr (Option.isSome_of_eq_some hy)) st.opCurrIndex,
        ← or_assoc, ← or_assoc, ← hbr', ← hload']
      exact ⟨hbr, hload⟩
    · rw [not_or, Bool.not_eq_false, Bool.not_eq_true] at hread
      cases hstep.symm.trans (Entry.step_skipped hread.1 hread.2)
      have hnext : unskipped st.skipLockModeling (x :: xs) = unskipped st.skipLockModeling xs := by
        rw [Bool.or_eq_false_iff] at hread
        rw [unskipped, hread.2.1, hread.2.2, hread.1]
        rfl
      rw [hnext]
      exact ih hxs.2 h

/-- **What a file has inside API calls.** -/
theorem mem_trace_of_run {es : List Invoked} (hfresh : t.record = OStream.fresh)
    (h : es.foldlM Invoked.run t = some t') {trace : Trace}
    (htrace : Trace.new t'.record.out false = some trace) (src : Text) (address : Nat) :
    (src ∈ trace.brSrcs ↔
        ∃ x ∈ inApi false (unskipped false (written t es)), x.branch? = some src) ∧
      (trace.Loads src address ↔
        ∃ x ∈ inApi false (unskipped false (written t es)), x.load? = some (src, address)) := by
  rw [Trace.new, terminated_of_run hfresh h, Trace.extractOperations,
    Option.map_eq_some_iff] at htrace
  obtain ⟨st, hst, rfl⟩ := htrace
  obtain ⟨hbr, hload⟩ := mem_foldlM (fun x hx => emits_of_mem_written hx) hst src address
  refine ⟨hbr.trans ?_, hload.trans ?_⟩
  · exact or_iff_right (Finset.notMem_empty src)
  · exact or_iff_right (by simp [Trace.Loads, Extraction.start])

end Durinn
