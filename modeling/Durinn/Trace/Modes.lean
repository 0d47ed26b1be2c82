import Durinn.Trace.Indices

/-!
# The two modes of the reader

`Trace.extract_operations` reads a trace whole or, with `only_persist`, reduced to what concerns
persistence.  Both modes run the same loop, and correct the running index wherever they append
more or fewer operations than one.

* `Becomes` — what the operation an entry is read as becomes in the other mode: a store its
  atomic pieces, a load or lock nothing, and any other operation itself with another id.
* `effect_agree` — one entry, read in both modes.
* `Sim.perform`, `sim_run` — the simulation of the two runs, entry by entry.
* `modes_agree` — the two traces of an accepted list of entries describe the same execution.
-/

namespace Durinn

/-! ## One entry -/

/-- What the operation of an entry becomes in the mode that keeps only what concerns
persistence. -/
def Becomes (entry : Text) (op : Op) (group : List Op) : Prop :=
  match op with
  | .store _ => ∃ i pieces, getStores (entry.splitOn ',') i = some pieces ∧
      group = pieces.map Op.store
  | .load _ | .lock _ | .unlock _ => group = []
  | op => ∃ i, group = [op.withId i]

/-- An effect in the first mode, and in the second. -/
inductive Effect.Agree (entry : Text) : Effect → Effect → Prop
  | skip (b : Bool) : Agree entry (.append [] b) (.append [] b)
  | append {op : Op} {group : List Op} (h : Becomes entry op group) :
      Agree entry (.append [op] false) (.append group false)
  | load (l : Load) :
      Agree entry (.load [.load l] l.address l.srcInfo) (.load [] l.address l.srcInfo)
  | apiBegin (b : BaseOperation) (j : Nat) :
      Agree entry (.apiBegin b) (.apiBegin { b with id := j })
  | apiEnd (b : BaseOperation) (j : Nat) : Agree entry (.apiEnd b) (.apiEnd { b with id := j })
  | alloc (a : Load) : Agree entry (.alloc a) (.alloc a)
  | br (srcInfo : Text) : Agree entry (.br srcInfo) (.br srcInfo)

variable {skip isOpen : Bool} {i j : Nat} {entry : Text} {e e' : Effect}

/-- Flushes and fences are kept. -/
theorem becomes_self {kind : EntryKind} {op : Op} (hkind : kind = .flush ∨ kind = .fence)
    (h : parseOp (entry.splitOn ',') i kind = some op) (j : Nat) :
    Becomes entry op [op.withId j] := by
  rcases hkind with rfl | rfl
  · simp only [parseOp, Option.bind_eq_bind, Option.bind_eq_some_iff] at h
    obtain ⟨b, -, a, -, h⟩ := h
    cases h
    exact ⟨j, rfl⟩
  · obtain ⟨b, -, rfl⟩ := Option.map_eq_some_iff.1 h
    exact ⟨j, rfl⟩

/-- Whatever acquires or releases a lock is dropped. -/
theorem becomes_nothing {kind : EntryKind} {op : Op}
    (hkind : kind = .lock ∨ kind = .unlock ∨ kind = .lockEnd ∨ kind = .unlockEnd)
    (h : parseOp (entry.splitOn ',') i kind = some op) : Becomes entry op [] := by
  rcases hkind with rfl | rfl | rfl | rfl
  all_goals
    simp only [parseOp, Option.bind_eq_bind, Option.bind_eq_some_iff] at h
    obtain ⟨b, -, a, -, h⟩ := h
    cases h
    rfl

theorem entryEffect_agree {kind : EntryKind}
    (h : entryEffect false isOpen (entry.splitOn ',') i kind = some e)
    (h' : entryEffect true isOpen (entry.splitOn ',') j kind = some e') :
    Effect.Agree entry e e' := by
  cases kind with
  | store =>
    obtain ⟨op, hop, rfl⟩ := Option.map_eq_some_iff.1 h
    obtain ⟨pieces, hpieces, rfl⟩ := Option.map_eq_some_iff.1 h'
    rw [parseOp_store] at hop
    obtain ⟨f, -, hop⟩ := Option.bind_eq_some_iff.1 hop
    obtain ⟨s, -, rfl⟩ := Option.map_eq_some_iff.1 hop
    exact .append ⟨j, pieces, hpieces, rfl⟩
  | load =>
    obtain ⟨op, hop, h⟩ := Option.bind_eq_some_iff.1 h
    simp only [entryEffect, parseOp_withId hop j, Option.bind_some] at h'
    cases op with
    | load l =>
      cases h
      cases h'
      exact .load l
    | _ => cases h
  | flush =>
    obtain ⟨op, hop, rfl⟩ := Option.map_eq_some_iff.1 h
    rw [entryEffect, parseOp_withId hop j] at h'
    cases h'
    exact .append (becomes_self (Or.inl rfl) hop j)
  | fence =>
    obtain ⟨op, hop, rfl⟩ := Option.map_eq_some_iff.1 h
    rw [entryEffect, parseOp_withId hop j] at h'
    cases h'
    exact .append (becomes_self (Or.inr rfl) hop j)
  | lock =>
    obtain ⟨op, hop, rfl⟩ := Option.map_eq_some_iff.1 h
    obtain ⟨op', -, rfl⟩ := Option.map_eq_some_iff.1 h'
    exact .append (becomes_nothing (Or.inl rfl) hop)
  | unlock =>
    obtain ⟨op, hop, rfl⟩ := Option.map_eq_some_iff.1 h
    obtain ⟨op', -, rfl⟩ := Option.map_eq_some_iff.1 h'
    exact .append (becomes_nothing (Or.inr (Or.inl rfl)) hop)
  | apiBegin =>
    obtain ⟨b, hb, rfl⟩ := Option.map_eq_some_iff.1 h
    rw [entryEffect, baseOf_withId hb j] at h'
    cases h'
    exact .apiBegin b j
  | apiEnd =>
    cases isOpen with
    | false => cases h
    | true =>
      obtain ⟨b, hb, rfl⟩ := Option.map_eq_some_iff.1 h
      rw [entryEffect, if_pos rfl, baseOf_withId hb j] at h'
      cases h'
      exact .apiEnd b j
  | alloc =>
    obtain ⟨a, ha, rfl⟩ := Option.map_eq_some_iff.1 h
    rw [entryEffect, ha] at h'
    cases h'
    exact .alloc a
  | br =>
    cases isOpen with
    | false =>
      cases h
      cases h'
      exact .skip false
    | true =>
      obtain ⟨b, hb, rfl⟩ := Option.map_eq_some_iff.1 h
      rw [entryEffect, if_pos rfl, hb] at h'
      cases h'
      exact .br b.srcInfo
  | lockBegin | unlockBegin | lockEnd | unlockEnd => cases h

/-- **One entry, read in both modes.** -/
theorem effect_agree (h : effect false skip isOpen i entry = some e)
    (h' : effect true skip isOpen j entry = some e') : Effect.Agree entry e e' := by
  -- entries other than those that delimit the modelling of a lock
  have hother : ∀ kind? : Option EntryKind,
      (if skip then some (.append [] true)
        else kind?.bind (entryEffect false isOpen (entry.splitOn ',') i)) = some e →
      (if skip then some (.append [] true)
        else kind?.bind (entryEffect true isOpen (entry.splitOn ',') j)) = some e' →
      Effect.Agree entry e e' := by
    intro kind? h h'
    cases skip with
    | true =>
      cases h
      cases h'
      exact .skip true
    | false =>
      obtain ⟨kind, rfl, h⟩ := Option.bind_eq_some_iff.1 h
      exact entryEffect_agree h h'
  have hlock : ∀ {kind : EntryKind}, kind = .lockEnd ∨ kind = .unlockEnd →
      (parseOp (entry.splitOn ',') i kind).map (fun op => Effect.append (fullOps false op) false) =
        some e →
      (parseOp (entry.splitOn ',') j kind).map (fun op => Effect.append (fullOps true op) false) =
        some e' → Effect.Agree entry e e' := by
    intro kind hkind h h'
    obtain ⟨op, hop, rfl⟩ := Option.map_eq_some_iff.1 h
    obtain ⟨op', -, rfl⟩ := Option.map_eq_some_iff.1 h'
    exact .append (becomes_nothing (Or.inr (Or.inr hkind)) hop)
  simp only [effect] at h h'
  cases hkind : entryKind (entry.splitOn ',') with
  | none =>
    rw [hkind] at h h'
    exact hother none h h'
  | some kind =>
    rw [hkind] at h h'
    cases kind with
    | lockBegin | unlockBegin =>
      cases h
      cases h'
      exact .skip true
    | lockEnd => exact hlock (Or.inl rfl) h h'
    | unlockEnd => exact hlock (Or.inr rfl) h h'
    | store | load | flush | fence | lock | unlock | apiBegin | apiEnd | alloc | br =>
      exact hother (some _) h h'

/-! ## Whole runs -/

/-- The entry was read as this operation: reading it appended the operation and nothing else. -/
def ReadFrom (entries : List Text) (entry : Text) (op : Op) : Prop :=
  ∃ u w trace trace', entries = u ++ entry :: w ∧
    Trace.extractOperations false u = some trace ∧
    Trace.extractOperations false (u ++ [entry]) = some trace' ∧ trace'.ops = trace.ops ++ [op]

/-- What an operation of the whole trace becomes in the reduced one. -/
def Persists (entries : List Text) (op : Op) (group : List Op) : Prop :=
  ∃ entry, ReadFrom entries entry op ∧ Becomes entry op group

theorem Persists.append {entries : List Text} {op : Op} {group : List Op}
    (h : Persists entries op group) (v : List Text) : Persists (entries ++ v) op group := by
  obtain ⟨entry, ⟨u, w, t, t', rfl, hread⟩, hbecomes⟩ := h
  exact ⟨entry, ⟨u, w ++ v, t, t', by simp, hread⟩, hbecomes⟩

/-- Where the operations that the one at `i` becomes begin. -/
def offset (groups : List (List Op)) (i : Nat) : Nat := (groups.take i).flatten.length

theorem offset_append {groups : List (List Op)} {i : Nat} (h : i ≤ groups.length)
    (gs : List (List Op)) : offset (groups ++ gs) i = offset groups i := by
  rw [offset, List.take_append_of_le_length h, offset]

theorem offset_length (groups : List (List Op)) :
    offset groups groups.length = groups.flatten.length := by
  rw [offset, List.take_length]

theorem offset_mono (groups : List (List Op)) {i j : Nat} (h : i ≤ j) :
    offset groups i ≤ offset groups j :=
  ((List.take_prefix_take_left h).sublist.flatten).length_le

theorem offset_succ {groups : List (List Op)} {i : Nat} {group : List Op}
    (h : groups[i]? = some group) : offset groups (i + 1) = offset groups i + group.length := by
  rw [offset, List.take_add_one, h, List.flatten_append, List.length_append, offset]
  simp

/-- The operations that the one at `i` becomes, in the flattened list. -/
theorem getElem?_flatten_offset {groups : List (List Op)} {i k : Nat} {group : List Op} {op : Op}
    (hi : groups[i]? = some group) (hk : group[k]? = some op) :
    groups.flatten[offset groups i + k]? = some op := by
  obtain ⟨hlt, rfl⟩ := List.getElem?_eq_some_iff.1 hi
  have hsplit : groups.flatten =
      (groups.take i).flatten ++ (groups[i] ++ (groups.drop (i + 1)).flatten) := by
    conv_lhs => rw [← List.take_append_drop i groups, List.drop_eq_getElem_cons hlt,
      List.flatten_append, List.flatten_cons]
  rw [hsplit, offset, List.getElem?_append_right (Nat.le_add_right _ _), Nat.add_sub_cancel_left,
    List.getElem?_append_left (List.getElem?_eq_some_iff.1 hk).1]
  exact hk

namespace Extraction

/-- The two runs on the entries `done`: the whole one and the reduced one, operation by
operation. -/
structure Sim (done : List Text) (groups : List (List Op)) (st st' : Extraction) : Prop where
  ops : List.Forall₂ (Persists done) st.ops groups
  flat : st'.ops = groups.flatten
  ranges : st'.opsApiRanges = st.opsApiRanges.map fun r => (offset groups r.1, offset groups r.2)
  opened : st'.opCurrApiBeginIndex = st.opCurrApiBeginIndex.map (offset groups)
  loadAddrs : st'.loadAddrs = st.loadAddrs
  loadSrcToAddrs : st'.loadSrcToAddrs = st.loadSrcToAddrs
  allocs : st'.allocs = st.allocs
  brSrcs : st'.brSrcs = st.brSrcs
  apiCount : st'.apiCount = st.apiCount
  skip : st'.skipLockModeling = st.skipLockModeling

variable {done : List Text} {groups : List (List Op)} {st st' : Extraction}

theorem Sim.isSome (h : Sim done groups st st') :
    st'.opCurrApiBeginIndex.isSome = st.opCurrApiBeginIndex.isSome := by
  rw [h.opened, Option.isSome_map]

/-- Ranges and the open call stay where they are when more operations follow. -/
theorem Sim.extend (h : Sim done groups st st') (hshape : Shape st) (gs : List (List Op)) :
    st'.opsApiRanges = st.opsApiRanges.map (fun r =>
        (offset (groups ++ gs) r.1, offset (groups ++ gs) r.2)) ∧
      st'.opCurrApiBeginIndex = st.opCurrApiBeginIndex.map (offset (groups ++ gs)) := by
  have hlen : st.ops.length = groups.length := h.ops.length_eq
  constructor
  · rw [h.ranges]
    refine List.map_congr_left fun r hr => ?_
    obtain ⟨u, o, mid, last, w, hops, rfl, -⟩ := hshape.ranges r hr
    rw [hops] at hlen
    simp only [List.length_append, List.length_cons] at hlen
    rw [offset_append (by omega), offset_append (by omega)]
  · rw [h.opened]
    refine Option.map_congr fun b hb => ?_
    obtain ⟨u, o, mid, hops, rfl, -⟩ := hshape.openCall b hb
    rw [hops] at hlen
    simp only [List.length_append, List.length_cons] at hlen
    rw [offset_append (by omega)]

theorem Sim.opCurrIndex (h : Sim done groups st st') (hshape : Shape st) (hshape' : Shape st')
    (gs : List (List Op)) : st'.opCurrIndex = offset (groups ++ gs) st.opCurrIndex := by
  rw [hshape'.index, h.flat, hshape.index, h.ops.length_eq, offset_append le_rfl, offset_length]

/-- Closing the open call in both runs gives it corresponding ranges. -/
theorem Sim.closeApi (h : Sim done groups st st') (hshape : Shape st) (hshape' : Shape st')
    (gs : List (List Op)) :
    st'.closeApi.opsApiRanges = st.closeApi.opsApiRanges.map fun r =>
      (offset (groups ++ gs) r.1, offset (groups ++ gs) r.2) := by
  have hindex := h.opCurrIndex hshape hshape' gs
  obtain ⟨hranges, hopened⟩ := h.extend hshape gs
  simp only [closeApi_eq, List.map_append, hranges, hopened, hindex]
  congr 1
  cases st.opCurrApiBeginIndex <;> rfl

/-- The operations that the effects of an entry append correspond. -/
theorem Sim.groups_perform (h : Sim done groups st st') {trace trace' : Trace}
    (hdone : Trace.extractOperations false done = some trace)
    (hentry : Trace.extractOperations false (done ++ [entry]) = some trace')
    (hops : trace'.ops = trace.ops ++ e.ops) (he : e.Agree entry e') :
    ∃ gs, List.Forall₂ (Persists (done ++ [entry])) (st.perform e).ops (groups ++ gs) ∧
      (st'.perform e').ops = (groups ++ gs).flatten := by
  have hgs : ∃ gs, List.Forall₂ (Persists (done ++ [entry])) e.ops gs ∧ e'.ops = gs.flatten := by
    have hread : ∀ (op : Op) {group : List Op}, e.ops = [op] → Becomes entry op group →
        List.Forall₂ (Persists (done ++ [entry])) e.ops [group] := by
      intro op group hop hbecomes
      rw [hop] at hops ⊢
      exact .cons ⟨entry, ⟨done, [], trace, trace', rfl, hdone, hentry, hops⟩, hbecomes⟩ .nil
    cases he with
    | skip b => exact ⟨[], .nil, rfl⟩
    | append hbecomes => exact ⟨[_], hread _ rfl hbecomes, (List.append_nil _).symm⟩
    | load l => exact ⟨[[]], hread (.load l) rfl rfl, rfl⟩
    | apiBegin b j => exact ⟨[[_]], hread (.apiBegin b) rfl ⟨j, rfl⟩, rfl⟩
    | apiEnd b j => exact ⟨[[_]], hread (.apiEnd b) rfl ⟨j, rfl⟩, rfl⟩
    | alloc a => exact ⟨[], .nil, rfl⟩
    | br srcInfo => exact ⟨[], .nil, rfl⟩
  obtain ⟨gs, hnew, hflat⟩ := hgs
  refine ⟨gs, ?_, ?_⟩
  · rw [perform_ops]
    exact List.rel_append (h.ops.imp fun _ _ hp => hp.append [entry]) hnew
  · rw [perform_ops, List.flatten_append, h.flat, hflat]

/-- **One entry keeps the runs together.** -/
theorem Sim.perform (h : Sim done groups st st') (hshape : Shape st) (hshape' : Shape st')
    (hdone : Trace.extractOperations false done = some st.toTrace)
    (hentry : Trace.extractOperations false (done ++ [entry]) = some (st.perform e).toTrace)
    (he : e.Agree entry e') :
    ∃ groups', Sim (done ++ [entry]) groups' (st.perform e) (st'.perform e') := by
  obtain ⟨gs, hops, hflat⟩ := h.groups_perform hdone hentry (perform_ops st e) he
  obtain ⟨hranges, hopened⟩ := h.extend hshape gs
  have hclosed := h.closeApi hshape hshape' gs
  have hindex := h.opCurrIndex hshape hshape' gs
  refine ⟨groups ++ gs, ?_⟩
  cases he with
  | skip b =>
    exact ⟨hops, hflat, hranges, hopened, h.loadAddrs, h.loadSrcToAddrs, h.allocs, h.brSrcs,
      h.apiCount, rfl⟩
  | append hbecomes =>
    exact ⟨hops, hflat, hranges, hopened, h.loadAddrs, h.loadSrcToAddrs, h.allocs, h.brSrcs,
      h.apiCount, rfl⟩
  | load l =>
    rw [Extraction.perform, Extraction.perform, recordLoad_eq, recordLoad_eq]
    rw [Extraction.perform, recordLoad_eq] at hops hflat
    refine ⟨hops, hflat, hranges, hopened, ?_, ?_, h.allocs, h.brSrcs, h.apiCount, h.skip⟩
    · show (if st'.opCurrApiBeginIndex.isSome then insert l.address st'.loadAddrs
        else st'.loadAddrs) = _
      rw [h.isSome, h.loadAddrs]
      rfl
    · show (if st'.opCurrApiBeginIndex.isSome then st'.loadSrcToAddrs.set l.srcInfo
          (insert l.address ((st'.loadSrcToAddrs.get? l.srcInfo).getD ∅))
        else st'.loadSrcToAddrs) = _
      rw [h.isSome, h.loadSrcToAddrs]
      rfl
  | apiBegin b j =>
    simp only [Extraction.perform, closeApi_eq] at hops hflat hclosed ⊢
    exact ⟨hops, hflat, hclosed, congrArg some hindex, h.loadAddrs, h.loadSrcToAddrs, h.allocs,
      h.brSrcs, congrArg Nat.succ h.apiCount, h.skip⟩
  | apiEnd b j =>
    simp only [Extraction.perform, closeApi_eq] at hops hflat hclosed ⊢
    exact ⟨hops, hflat, hclosed, rfl, h.loadAddrs, h.loadSrcToAddrs, h.allocs,
      h.brSrcs, h.apiCount, h.skip⟩
  | alloc a =>
    rw [Extraction.perform, Extraction.perform, recordAlloc_eq, recordAlloc_eq]
    rw [Extraction.perform, recordAlloc_eq] at hops hflat
    refine ⟨hops, hflat, hranges, hopened, h.loadAddrs, h.loadSrcToAddrs, ?_, h.brSrcs, h.apiCount,
      h.skip⟩
    show (if st'.opCurrApiBeginIndex.isSome then st'.allocs.set (st'.apiCount - 1)
        ((st'.allocs.get? (st'.apiCount - 1)).getD [] ++ [a])
      else st'.allocs) = _
    rw [h.isSome, h.allocs, h.apiCount]
  | br srcInfo =>
    exact ⟨hops, hflat, hranges, hopened, h.loadAddrs, h.loadSrcToAddrs, h.allocs,
      congrArg (insert srcInfo) h.brSrcs, h.apiCount, h.skip⟩

/-- **Two whole runs stay together.** -/
theorem sim_run {entries : List Text} {st st' : Extraction}
    (hrun : entries.foldlM (Extraction.step false) start = some st)
    (hrun' : entries.foldlM (Extraction.step true) start = some st') :
    ∃ groups, Sim entries groups st st' := by
  refine Runs.lockstep (fun done st st' => ∃ groups, Sim done groups st st') ?_ ?_ hrun hrun'
  · exact ⟨[], .nil, rfl, rfl, rfl, rfl, rfl, rfl, rfl, rfl, rfl⟩
  · rintro done entry s t s' t' hs hs' ⟨groups, h⟩ hstep hstep'
    have hnext : (done ++ [entry]).foldlM (Extraction.step false) start = some t := by
      rw [List.foldlM_append, hs]
      simpa using hstep
    rw [step_eq_perform, Option.map_eq_some_iff] at hstep hstep'
    obtain ⟨e, he, rfl⟩ := hstep
    obtain ⟨e', he', rfl⟩ := hstep'
    rw [h.skip, h.isSome] at he'
    exact h.perform (shape_run hs) (shape_run hs') (congrArg (Option.map toTrace) hs)
      (congrArg (Option.map toTrace) hnext) (effect_agree he he')

end Extraction

/-- An operation that delimits an API call is found, in the other trace, where its range says. -/
theorem getElem?_offset {entries : List Text} {ops : List Op} {groups : List (List Op)}
    (h : List.Forall₂ (Persists entries) ops groups) {i : Nat} {op : Op} (hop : ops[i]? = some op)
    (hbound : op.isBoundary = true) :
    ∃ j, groups.flatten[offset groups i]? = some (op.withId j) := by
  obtain ⟨hi, rfl⟩ := List.getElem?_eq_some_iff.1 hop
  have hi' : i < groups.length := h.length_eq ▸ hi
  obtain ⟨entry, -, hbecomes⟩ := (List.forall₂_iff_get.1 h).2 i hi hi'
  rw [List.get_eq_getElem, List.get_eq_getElem] at hbecomes
  -- of the cases of `Becomes` only that of an operation that stays is left
  have hgroup : ∃ j, groups[i] = [ops[i].withId j] := by
    generalize ops[i] = op at hbound hbecomes ⊢
    cases op <;> first | exact hbecomes | cases hbound
  obtain ⟨j, hj⟩ := hgroup
  have hi? : groups[i]? = some [ops[i].withId j] := by rw [List.getElem?_eq_getElem hi', hj]
  exact ⟨j, getElem?_flatten_offset hi? (k := 0) rfl⟩

/-- **The two modes describe the same execution.**  Operation by operation, the reduced list is
the whole one with the loads and locks dropped and the stores cut into their pieces, up to ids;
the ranges of the API calls are those of the corresponding operations; and what is recorded on
the way is the same. -/
theorem modes_agree {entries : List Text} {trace trace' : Trace}
    (h : Trace.extractOperations false entries = some trace)
    (h' : Trace.extractOperations true entries = some trace') :
    (∃ groups, List.Forall₂ (Persists entries) trace.ops groups ∧ trace'.ops = groups.flatten ∧
      trace'.opsApiRanges =
        trace.opsApiRanges.map (fun r => (offset groups r.1, offset groups r.2)) ∧
      ∀ r ∈ trace.opsApiRanges, ∀ i, i = r.1 ∨ i = r.2 →
        ∃ op j, trace.ops[i]? = some op ∧ trace'.ops[offset groups i]? = some (op.withId j)) ∧
      trace'.loadAddrs = trace.loadAddrs ∧ trace'.loadSrcToAddrs = trace.loadSrcToAddrs ∧
      trace'.allocs = trace.allocs ∧ trace'.brSrcs = trace.brSrcs := by
  obtain ⟨st, hst, rfl⟩ := Option.map_eq_some_iff.1 h
  obtain ⟨st', hst', rfl⟩ := Option.map_eq_some_iff.1 h'
  obtain ⟨groups, hsim⟩ := Extraction.sim_run hst hst'
  refine ⟨⟨groups, hsim.ops, hsim.flat, hsim.ranges, ?_⟩, hsim.loadAddrs, hsim.loadSrcToAddrs,
    hsim.allocs, hsim.brSrcs⟩
  intro r hr i hi
  obtain ⟨-, ⟨o, ho⟩, ⟨last, hlast, hbound⟩, -⟩ := (isApiCall_of_mem h hr).at_positions
  rw [hsim.flat]
  rcases hi with rfl | rfl
  · obtain ⟨j, hj⟩ := getElem?_offset hsim.ops ho rfl
    exact ⟨_, j, ho, hj⟩
  · obtain ⟨j, hj⟩ := getElem?_offset hsim.ops hlast hbound
    exact ⟨_, j, hlast, hj⟩

/-- An API call with a store of two bytes in two words, a load, a lock and a fence. -/
def mixedCall : List Text :=
  ["APIBegin,1,5".toList, "Store,1,0x1f,2,0a 0b,7,0".toList, "Load,1,0x40,8,9".toList,
    "Lock,1,0x80,3".toList, "Fence,1,4".toList, "APIEnd,1,6".toList]

theorem modes_agree_mixedCall :
    ∃ trace trace', Trace.extractOperations false mixedCall = some trace ∧
      Trace.extractOperations true mixedCall = some trace' ∧
      trace.opsApiRanges = [(0, 5)] ∧ trace'.opsApiRanges = [(0, 4)] ∧
      trace'.loadAddrs = trace.loadAddrs ∧
      ∃ groups, List.Forall₂ (Persists mixedCall) trace.ops groups ∧
        trace'.ops = groups.flatten := by
  have hranges : (Trace.extractOperations false mixedCall).map (fun t => t.opsApiRanges) =
      some [(0, 5)] := by decide +kernel
  have hranges' : (Trace.extractOperations true mixedCall).map (fun t => t.opsApiRanges) =
      some [(0, 4)] := by decide +kernel
  obtain ⟨trace, h, hranges⟩ := Option.map_eq_some_iff.1 hranges
  obtain ⟨trace', h', hranges'⟩ := Option.map_eq_some_iff.1 hranges'
  obtain ⟨⟨groups, hops, hflat, -⟩, hloads, -⟩ := modes_agree h h'
  exact ⟨trace, trace', h, h', hranges, hranges', hloads, groups, hops, hflat⟩

end Durinn
