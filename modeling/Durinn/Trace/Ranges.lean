import Durinn.Trace.Effects

/-!
# The ranges of API calls

What `ops_api_ranges` holds, in both modes of the reader: every entry is the range of one API
call (`isApiCall_of_mem`).  It starts at an `APIBegin`, ends at the next `APIBegin` or
`APIEnd`, and has neither in between.
-/

namespace Durinn

/-- The range is that of an API call: it begins with an `APIBegin`, ends with the next
operation that delimits API calls, and has none in between. -/
def IsApiCall (ops : List Op) (r : Nat × Nat) : Prop :=
  ∃ u o mid last w, ops = u ++ .apiBegin o :: (mid ++ last :: w) ∧
    r = (u.length, u.length + mid.length + 1) ∧
    (∀ op ∈ mid, op.isBoundary = false) ∧ last.isBoundary = true

/-- An API call that began at `b` is still open at the end of the list. -/
def IsOpenCall (ops : List Op) (b : Nat) : Prop :=
  ∃ u o mid, ops = u ++ .apiBegin o :: mid ∧ b = u.length ∧ ∀ op ∈ mid, op.isBoundary = false

theorem IsApiCall.append {ops : List Op} {r : Nat × Nat} (h : IsApiCall ops r) (v : List Op) :
    IsApiCall (ops ++ v) r := by
  obtain ⟨u, o, mid, last, w, rfl, hr, hmid, hlast⟩ := h
  exact ⟨u, o, mid, last, w ++ v, by simp, hr, hmid, hlast⟩

theorem IsOpenCall.append {ops : List Op} {b : Nat} (h : IsOpenCall ops b) {v : List Op}
    (hv : ∀ op ∈ v, op.isBoundary = false) : IsOpenCall (ops ++ v) b := by
  obtain ⟨u, o, mid, rfl, hb, hmid⟩ := h
  refine ⟨u, o, mid ++ v, by simp, hb, ?_⟩
  intro op hop
  exact (List.mem_append.1 hop).elim (hmid op) (hv op)

/-- The next delimiter closes the call. -/
theorem IsOpenCall.close {ops : List Op} {b : Nat} (h : IsOpenCall ops b) {op : Op}
    (hop : op.isBoundary = true) : IsApiCall (ops ++ [op]) (b, ops.length) := by
  obtain ⟨u, o, mid, rfl, rfl, hmid⟩ := h
  refine ⟨u, o, mid, op, [], by simp, ?_, hmid, hop⟩
  simp only [List.length_append, List.length_cons, Nat.add_assoc]

/-- The operations of the range. -/
theorem IsApiCall.perApi {trace : Trace} {r : Nat × Nat} (h : IsApiCall trace.ops r) :
    ∃ o mid last, trace.perApi r = .apiBegin o :: (mid ++ [last]) ∧
      ∀ op ∈ mid, op.isBoundary = false := by
  obtain ⟨u, o, mid, last, w, hops, rfl, hmid, -⟩ := h
  refine ⟨o, mid, last, ?_, hmid⟩
  have hlen : u.length + mid.length + 1 + 1 - u.length = mid.length + 2 := by omega
  unfold Trace.perApi
  rw [hops, List.drop_left, hlen]
  simp [List.take_append]

namespace Extraction

/-- What holds of the variables of the reader. -/
structure Shape (st : Extraction) : Prop where
  index : st.opCurrIndex = st.ops.length
  ranges : ∀ r ∈ st.opsApiRanges, IsApiCall st.ops r
  openCall : ∀ b, st.opCurrApiBeginIndex = some b → IsOpenCall st.ops b

theorem Shape.append {st : Extraction} (h : Shape st) {ops : List Op}
    (hops : ∀ op ∈ ops, op.isBoundary = false) : Shape (st.append ops) where
  index := by simp [Extraction.append, h.index]
  ranges r hr := (h.ranges r hr).append ops
  openCall b hb := (h.openCall b hb).append hops

/-- Appending the delimiter that closes the open call. -/
theorem Shape.closeApi {st : Extraction} (h : Shape st) {op : Op} (hop : op.isBoundary = true) :
    Shape (st.closeApi.append [op]) := by
  unfold Extraction.closeApi
  cases hb : st.opCurrApiBeginIndex with
  | none =>
    refine ⟨by simp [Extraction.append, h.index], fun r hr => (h.ranges r hr).append _, ?_⟩
    intro b hopen
    simp [Extraction.append, hb] at hopen
  | some b =>
    refine ⟨by simp [Extraction.append, h.index], ?_, fun c hc => by cases hc⟩
    intro r hr
    rcases List.mem_append.1 hr with hr | hr
    · exact (h.ranges r hr).append _
    · rw [List.mem_singleton.1 hr, h.index]
      exact (h.openCall b hb).close hop

/-- Appending an `APIBegin`, which closes the open call and opens another. -/
theorem Shape.openApi {st : Extraction} (h : Shape st) (o : BaseOperation) :
    Shape (st.closeApi.openApi.append [.apiBegin o]) := by
  have hclosed : Shape (st.closeApi.append [.apiBegin o]) := h.closeApi rfl
  refine ⟨hclosed.index, hclosed.ranges, ?_⟩
  rw [closeApi_eq]
  intro b hb
  cases hb
  exact ⟨st.ops, o, [], rfl, h.index, by simp⟩

/-- Whatever an entry amounts to keeps the shape. -/
theorem Shape.perform {st : Extraction} (h : Shape st) {skip isOpen : Bool} {i : Nat} {entry : Text}
    {e : Effect} (he : e.Valid skip isOpen i entry) : Shape (st.perform e) := by
  cases e with
  | append ops b =>
    have hst := h.append (he.plain.resolve_right (by simp))
    exact ⟨hst.index, hst.ranges, hst.openCall⟩
  | load ops address srcInfo =>
    have hst := h.append (he.plain.resolve_right (by simp))
    rw [Extraction.perform, recordLoad_eq]
    exact ⟨hst.index, hst.ranges, hst.openCall⟩
  | apiBegin b => exact h.openApi b
  | apiEnd b => exact h.closeApi rfl
  | alloc a =>
    rw [Extraction.perform, recordAlloc_eq]
    exact ⟨h.index, h.ranges, h.openCall⟩
  | br srcInfo => exact ⟨h.index, h.ranges, h.openCall⟩

theorem shape_run {onlyPersist : Bool} {entries : List Text} {st : Extraction}
    (hrun : entries.foldlM (Extraction.step onlyPersist) start = some st) : Shape st := by
  apply Runs.invariant (fun _ => Shape) ⟨rfl, by simp [start], fun b hb => by cases hb⟩ _ hrun
  intro done entry st st' _ h hstep
  obtain ⟨e, he, rfl⟩ := exists_effect hstep
  exact h.perform he

end Extraction

/-- **Every recorded range is that of an API call.** -/
theorem isApiCall_of_mem {onlyPersist : Bool} {entries : List Text} {trace : Trace}
    (h : Trace.extractOperations onlyPersist entries = some trace) {r : Nat × Nat}
    (hr : r ∈ trace.opsApiRanges) : IsApiCall trace.ops r := by
  obtain ⟨st, hst, rfl⟩ := Option.map_eq_some_iff.1 h
  exact (Extraction.shape_run hst).ranges r hr

end Durinn
