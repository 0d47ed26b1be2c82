import Durinn.Trace.Pieces

/-!
# What an entry does

The loop body of `Trace.extract_operations` reads an entry and changes its variables.  Here
the two are taken apart: `effect` says what an entry amounts to, given only whether the entry
lies in the modelling of a lock, whether an API call is open, the next index and the mode, and
`Extraction.perform` carries it out.

* `step_eq_perform` — the loop body is one after the other.
* `parseOp_withId` — read at another index, an entry gives the same operation with that id.
* `valid_effect`, `exists_effect` — what the effect of an entry is like: the operations it appends
  have the next ids, and only the entries that delimit API calls append a delimiter.
-/

namespace Durinn

open PyText

/-! ## Ids -/

/-- The operation with another id. -/
def Op.withId (i : Nat) : Op → Op
  | .store s => .store { s with id := i }
  | .load l => .load { l with id := i }
  | .flush f => .flush { f with id := i }
  | .fence b => .fence { b with id := i }
  | .lock l => .lock { l with id := i }
  | .unlock u => .unlock { u with id := i }
  | .apiBegin b => .apiBegin { b with id := i }
  | .apiEnd b => .apiEnd { b with id := i }

theorem baseOf_withId {strs : List Text} {k i : Nat} {b : BaseOperation}
    (h : baseOf strs k i = some b) (j : Nat) : baseOf strs k j = some { b with id := j } := by
  simp only [baseOf, Option.bind_eq_bind, Option.bind_eq_some_iff] at h ⊢
  obtain ⟨tid, htid, src, hsrc, hb⟩ := h
  cases hb
  exact ⟨tid, htid, src, hsrc, rfl⟩

/-- Reading an entry at another index gives the same operation with that id. -/
theorem parseOp_withId {strs : List Text} {i : Nat} {kind : EntryKind} {op : Op}
    (h : parseOp strs i kind = some op) (j : Nat) : parseOp strs j kind = some (op.withId j) := by
  cases kind with
  | store =>
    simp only [parseOp, Store.new, Option.bind_eq_bind, Option.bind_eq_some_iff,
      Option.map_eq_some_iff] at h ⊢
    obtain ⟨tid, h₁, a, h₂, n, h₃, v, h₄, src, h₅, cas, h₆, s, ⟨bytes, hbytes, rfl⟩, h⟩ := h
    cases h
    exact ⟨tid, h₁, a, h₂, n, h₃, v, h₄, src, h₅, cas, h₆, _, ⟨bytes, hbytes, rfl⟩, rfl⟩
  | load =>
    simp only [parseOp, Option.bind_eq_bind, Option.bind_eq_some_iff] at h ⊢
    obtain ⟨b, hb, a, ha, n, hn, h⟩ := h
    cases h
    exact ⟨_, baseOf_withId hb j, a, ha, n, hn, rfl⟩
  | fence | apiBegin | apiEnd =>
    obtain ⟨b, hb, rfl⟩ := Option.map_eq_some_iff.1 h
    exact Option.map_eq_some_iff.2 ⟨_, baseOf_withId hb j, rfl⟩
  | flush | lock | lockEnd | unlock | unlockEnd =>
    simp only [parseOp, Option.bind_eq_bind, Option.bind_eq_some_iff] at h ⊢
    obtain ⟨b, hb, a, ha, h⟩ := h
    cases h
    exact ⟨_, baseOf_withId hb j, a, ha, rfl⟩
  | lockBegin | unlockBegin | alloc | br => cases h

/-! ## Effects -/

/-- What an accepted entry amounts to. -/
inductive Effect where
  /-- Append operations that delimit no API call; from then on entries are skipped or not. -/
  | append (ops : List Op) (skip : Bool)
  /-- Append operations and record a load. -/
  | load (ops : List Op) (address : Nat) (srcInfo : Text)
  /-- Begin an API call. -/
  | apiBegin (b : BaseOperation)
  /-- End the API call. -/
  | apiEnd (b : BaseOperation)
  /-- Record an allocation. -/
  | alloc (alloc : Load)
  /-- Record a branch. -/
  | br (srcInfo : Text)

/-- The operations that are appended. -/
def Effect.ops : Effect → List Op
  | .append ops _ => ops
  | .load ops _ _ => ops
  | .apiBegin b => [.apiBegin b]
  | .apiEnd b => [.apiEnd b]
  | .alloc _ | .br _ => []

/-- Carry out an effect. -/
def Extraction.perform (st : Extraction) : Effect → Extraction
  | .append ops skip => { st.append ops with skipLockModeling := skip }
  | .load ops address srcInfo => (st.append ops).recordLoad address srcInfo
  | .apiBegin b => st.closeApi.openApi.append [.apiBegin b]
  | .apiEnd b => st.closeApi.append [.apiEnd b]
  | .alloc alloc => st.recordAlloc alloc
  | .br srcInfo => { st with brSrcs := insert srcInfo st.brSrcs }

/-- The allocation an entry tells of. -/
def readAlloc (strs : List Text) : Option Load := do
  let base ← baseOf strs 4 0
  let address ← natField 16 strs 2
  let size ← natField 10 strs 3
  return ⟨base, address, size⟩

/-- An operation that does not concern persistence. -/
def fullOps (onlyPersist : Bool) (op : Op) : List Op := if onlyPersist then [] else [op]

/-- The effect of an entry outside the modelling of locks. -/
def entryEffect (onlyPersist isOpen : Bool) (strs : List Text) (i : Nat) :
    EntryKind → Option Effect
  | .store =>
      if onlyPersist then (getStores strs i).map fun pieces => .append (pieces.map Op.store) false
      else (parseOp strs i .store).map fun op => .append [op] false
  | .load => (parseOp strs i .load).bind fun
      | .load l => some (.load (fullOps onlyPersist (.load l)) l.address l.srcInfo)
      | _ => none
  | .flush => (parseOp strs i .flush).map fun op => .append [op] false
  | .fence => (parseOp strs i .fence).map fun op => .append [op] false
  | .lock => (parseOp strs i .lock).map fun op => .append (fullOps onlyPersist op) false
  | .unlock => (parseOp strs i .unlock).map fun op => .append (fullOps onlyPersist op) false
  | .apiBegin => (baseOf strs 2 i).map .apiBegin
  | .apiEnd => if isOpen then (baseOf strs 2 i).map .apiEnd else none
  | .alloc => (readAlloc strs).map .alloc
  | .br =>
      if isOpen then (baseOf strs 2 0).map fun base => .br base.srcInfo
      else some (.append [] false)
  | .lockBegin | .unlockBegin | .lockEnd | .unlockEnd => none

/-- The effect of an entry. -/
def effect (onlyPersist skip isOpen : Bool) (i : Nat) (entry : Text) : Option Effect :=
  let strs := entry.splitOn ','
  match entryKind strs with
  | some .lockBegin | some .unlockBegin => some (.append [] true)
  | some .lockEnd => (parseOp strs i .lockEnd).map fun op =>
      .append (fullOps onlyPersist op) false
  | some .unlockEnd => (parseOp strs i .unlockEnd).map fun op =>
      .append (fullOps onlyPersist op) false
  | kind? =>
      if skip then some (.append [] true) else kind?.bind (entryEffect onlyPersist isOpen strs i)

namespace Extraction

variable {onlyPersist : Bool} {st : Extraction}

theorem append_nil (st : Extraction) : st.append [] = st := by
  simp [Extraction.append]

theorem appendFull_eq (st : Extraction) (op : Op) :
    st.appendFull onlyPersist op = st.append (fullOps onlyPersist op) := by
  unfold appendFull fullOps
  split
  · exact st.append_nil.symm
  · rfl

theorem closeApi_eq (st : Extraction) :
    st.closeApi = { st with
      opsApiRanges := st.opsApiRanges ++
        st.opCurrApiBeginIndex.toList.map fun b => (b, st.opCurrIndex)
      opCurrApiBeginIndex := none } := by
  unfold closeApi
  cases hb : st.opCurrApiBeginIndex with
  | none =>
    rw [Option.toList_none, List.map_nil, List.append_nil]
    exact congrArg (fun b => { st with opCurrApiBeginIndex := b }) hb
  | some b => rfl

theorem recordLoad_eq (st : Extraction) (address : Nat) (srcInfo : Text) :
    st.recordLoad address srcInfo = { st with
      loadAddrs := if st.opCurrApiBeginIndex.isSome then insert address st.loadAddrs
        else st.loadAddrs
      loadSrcToAddrs := if st.opCurrApiBeginIndex.isSome then st.loadSrcToAddrs.set srcInfo
          (insert address ((st.loadSrcToAddrs.get? srcInfo).getD ∅))
        else st.loadSrcToAddrs } := by
  unfold recordLoad
  split <;> rfl

theorem recordAlloc_eq (st : Extraction) (alloc : Load) :
    st.recordAlloc alloc = { st with
      allocs := if st.opCurrApiBeginIndex.isSome then st.allocs.set (st.apiCount - 1)
          ((st.allocs.get? (st.apiCount - 1)).getD [] ++ [alloc])
        else st.allocs } := by
  unfold recordAlloc
  split <;> rfl

theorem perform_append {b : Bool} (hskip : st.skipLockModeling = b) (ops : List Op) :
    st.perform (.append ops b) = st.append ops := by
  subst hskip
  rfl

theorem extractEntry_eq_perform (hskip : st.skipLockModeling = false) (strs : List Text)
    (kind : EntryKind) :
    extractEntry onlyPersist st strs kind =
      (entryEffect onlyPersist st.opCurrApiBeginIndex.isSome strs st.opCurrIndex kind).map
        st.perform := by
  cases kind with
  | store =>
    simp only [extractEntry, entryEffect]
    split <;> simp only [Option.map_map, Function.comp_def, perform_append hskip]
  | load =>
    simp only [extractEntry, entryEffect, Option.bind_eq_bind, Option.map_bind]
    congr 1
    funext op
    cases op <;> simp [perform, appendFull_eq]
  | flush | fence =>
    simp only [extractEntry, entryEffect, Option.map_map, Function.comp_def, perform_append hskip]
  | lock | unlock =>
    simp only [extractEntry, entryEffect, Option.map_map, Function.comp_def, perform_append hskip,
      ← appendFull_eq]
  | apiBegin =>
    simp only [extractEntry, entryEffect, parseOp, Option.map_map]
    rfl
  | apiEnd =>
    simp only [extractEntry, entryEffect, parseOp, Option.bind_eq_bind]
    cases st.opCurrApiBeginIndex with
    | none => simp
    | some b => simp [Option.map_eq_bind, Option.bind_assoc, perform]
  | alloc =>
    simp only [extractEntry, entryEffect, readAlloc, Option.bind_eq_bind, Option.pure_def,
      Option.map_eq_bind, Option.bind_assoc, Option.bind_some]
    rfl
  | br =>
    simp only [extractEntry, entryEffect]
    split
    · simp only [Option.map_map]
      rfl
    · rw [Option.map_some, perform_append hskip, append_nil]
  | lockBegin | unlockBegin | lockEnd | unlockEnd => rfl

/-- **The loop body reads the effect of the entry and carries it out.** -/
theorem step_eq_perform (onlyPersist : Bool) (st : Extraction) (entry : Text) :
    step onlyPersist st entry =
      (effect onlyPersist st.skipLockModeling st.opCurrApiBeginIndex.isSome st.opCurrIndex
        entry).map st.perform := by
  -- entries other than those that delimit the modelling of a lock
  have hother : ∀ kind? : Option EntryKind,
      (if st.skipLockModeling then some st
        else kind?.bind (extractEntry onlyPersist st (entry.splitOn ','))) =
      (if st.skipLockModeling then some (.append [] true)
        else kind?.bind (entryEffect onlyPersist st.opCurrApiBeginIndex.isSome
          (entry.splitOn ',') st.opCurrIndex)).map st.perform := by
    intro kind?
    split
    · rename_i hskip
      rw [Option.map_some, perform_append hskip, append_nil]
    · rename_i hskip
      rw [Option.map_bind]
      congr 1
      funext kind
      exact extractEntry_eq_perform (Bool.eq_false_iff.2 hskip) _ kind
  have hfull : ∀ kind, (parseOp (entry.splitOn ',') st.opCurrIndex kind).map
      (fun op => { st.appendFull onlyPersist op with skipLockModeling := false }) =
      ((parseOp (entry.splitOn ',') st.opCurrIndex kind).map fun op =>
        Effect.append (fullOps onlyPersist op) false).map st.perform := by
    intro kind
    simp only [appendFull_eq, Option.map_map]
    rfl
  simp only [step, effect]
  cases entryKind (entry.splitOn ',') with
  | none => exact hother none
  | some kind =>
    cases kind with
    | lockBegin | unlockBegin =>
      rw [Option.map_some, perform, append_nil]
    | lockEnd => exact hfull .lockEnd
    | unlockEnd => exact hfull .unlockEnd
    | store | load | flush | fence | lock | unlock | apiBegin | apiEnd | alloc | br =>
      exact hother (some _)

end Extraction

/-! ## What every effect satisfies -/

/-- Are entries skipped after this one, if they were before? -/
def entrySkips (skip : Bool) (entry : Text) : Bool :=
  match entryKind (entry.splitOn ',') with
  | some .lockBegin | some .unlockBegin => true
  | some .lockEnd | some .unlockEnd => false
  | _ => skip

/-- The allocations that are read from an entry: none if it is skipped. -/
def entryAllocs (skip : Bool) (entry : Text) : List Load :=
  if skip = false ∧ entryKind (entry.splitOn ',') = some .alloc then
    (readAlloc (entry.splitOn ',')).toList
  else []

namespace Effect

/-- Are entries skipped after the effect? -/
def skips (skip : Bool) : Effect → Bool
  | .append _ b => b
  | _ => skip

/-- The allocations that the effect records. -/
def allocs : Effect → List Load
  | .alloc a => [a]
  | _ => []

/-- What the effect of an entry is like. -/
structure Valid (skip isOpen : Bool) (i : Nat) (entry : Text) (e : Effect) : Prop where
  /-- The appended operations have the next ids. -/
  ids : e.ops.map Op.id = List.range' i e.ops.length
  /-- Only beginning and ending an API call appends a delimiter, -/
  plain : (∀ op ∈ e.ops, op.isBoundary = false) ∨ (∃ b, e = .apiBegin b) ∨ ∃ b, e = .apiEnd b
  /-- and it does so outside the modelling of locks, and ends only an open call. -/
  begins : ∀ b, e = .apiBegin b → skip = false
  ends : ∀ b, e = .apiEnd b → skip = false ∧ isOpen = true
  skips : e.skips skip = entrySkips skip entry
  allocs : e.allocs = entryAllocs skip entry

/-- An effect that only appends operations which delimit no API call. -/
theorem valid_append {isOpen : Bool} {i : Nat} {entry : Text} {ops : List Op} {skip skip' : Bool}
    (hids : ops.map Op.id = List.range' i ops.length) (hplain : ∀ op ∈ ops, op.isBoundary = false)
    (hskip : skip' = entrySkips skip entry) (hallocs : entryAllocs skip entry = []) :
    (Effect.append ops skip').Valid skip isOpen i entry where
  ids := hids
  plain := Or.inl hplain
  begins := by simp
  ends := by simp
  skips := hskip
  allocs := hallocs.symm

end Effect

theorem map_id_pieces {params : List Text} {i : Nat} {pieces : List Store}
    (h : getStores params i = some pieces) :
    (pieces.map Op.store).map Op.id = List.range' i (pieces.map Op.store).length := by
  have hf : ∃ f, storeFields params = some f := by
    rw [getStores_eq] at h
    exact (Option.bind_eq_some_iff.1 h).imp fun f hf => hf.1
  obtain ⟨f, hf⟩ := hf
  rw [List.map_map, List.length_map]
  exact (getStores_shape hf h).2.1

/-- An operation that is read alone. -/
theorem map_id_fullOps {strs : List Text} {i : Nat} {kind : EntryKind} {op : Op}
    (h : parseOp strs i kind = some op) (onlyPersist : Bool) :
    (fullOps onlyPersist op).map Op.id = List.range' i (fullOps onlyPersist op).length := by
  unfold fullOps
  split
  · rfl
  · simp [(parseOp_spec h).1, List.range'_one]

theorem plain_fullOps {strs : List Text} {i : Nat} {kind : EntryKind} {op : Op}
    (h : parseOp strs i kind = some op) (hkind : kind.isBoundary = false) (onlyPersist : Bool) :
    ∀ op' ∈ fullOps onlyPersist op, op'.isBoundary = false := by
  unfold fullOps
  split
  · simp
  · simpa using (parseOp_spec h).2.1.trans hkind

theorem valid_entryEffect {onlyPersist isOpen : Bool} {i : Nat} {entry : Text} {kind : EntryKind}
    {e : Effect} (hkind : entryKind (entry.splitOn ',') = some kind)
    (h : entryEffect onlyPersist isOpen (entry.splitOn ',') i kind = some e) :
    e.Valid false isOpen i entry := by
  have hskip : false = entrySkips false entry := by
    simp only [entrySkips, hkind]
    cases kind <;> first | rfl | cases h
  have hallocs : kind ≠ .alloc → entryAllocs false entry = [] := by
    intro hne
    simp [entryAllocs, hkind, hne]
  cases kind with
  | store =>
    simp only [entryEffect] at h
    split at h
    · obtain ⟨pieces, hp, rfl⟩ := Option.map_eq_some_iff.1 h
      refine Effect.valid_append (map_id_pieces hp) ?_ hskip (hallocs (by simp))
      intro op hop
      obtain ⟨s, -, rfl⟩ := List.mem_map.1 hop
      rfl
    · obtain ⟨op, hop, rfl⟩ := Option.map_eq_some_iff.1 h
      exact Effect.valid_append (map_id_fullOps hop false) (plain_fullOps hop rfl false) hskip
        (hallocs (by simp))
  | load =>
    obtain ⟨op, hop, h⟩ := Option.bind_eq_some_iff.1 h
    split at h
    · cases h
      exact ⟨map_id_fullOps hop onlyPersist, Or.inl (plain_fullOps hop rfl onlyPersist), by simp,
        by simp, hskip, (hallocs (by simp)).symm⟩
    · cases h
  | flush | fence =>
    obtain ⟨op, hop, rfl⟩ := Option.map_eq_some_iff.1 h
    exact Effect.valid_append (map_id_fullOps hop false) (plain_fullOps hop rfl false) hskip
      (hallocs (by simp))
  | lock | unlock =>
    obtain ⟨op, hop, rfl⟩ := Option.map_eq_some_iff.1 h
    exact Effect.valid_append (map_id_fullOps hop onlyPersist) (plain_fullOps hop rfl onlyPersist)
      hskip (hallocs (by simp))
  | apiBegin =>
    obtain ⟨b, hb, rfl⟩ := Option.map_eq_some_iff.1 h
    have hid : b.id = i := id_of_baseOf hb
    exact ⟨congrArg (fun j => [j]) hid, Or.inr (Or.inl ⟨b, rfl⟩), fun _ _ => rfl, by simp, hskip,
      (hallocs (by simp)).symm⟩
  | apiEnd =>
    simp only [entryEffect] at h
    split at h
    · rename_i hopen
      obtain ⟨b, hb, rfl⟩ := Option.map_eq_some_iff.1 h
      have hid : b.id = i := id_of_baseOf hb
      exact ⟨congrArg (fun j => [j]) hid, Or.inr (Or.inr ⟨b, rfl⟩), by simp,
        fun _ _ => ⟨rfl, hopen⟩, hskip, (hallocs (by simp)).symm⟩
    · cases h
  | alloc =>
    obtain ⟨a, ha, rfl⟩ := Option.map_eq_some_iff.1 h
    refine ⟨rfl, Or.inl (by simp [Effect.ops]), by simp, by simp, hskip, ?_⟩
    rw [entryAllocs, if_pos ⟨rfl, hkind⟩, ha]
    rfl
  | br =>
    simp only [entryEffect] at h
    split at h
    · obtain ⟨b, -, rfl⟩ := Option.map_eq_some_iff.1 h
      exact ⟨rfl, Or.inl (by simp [Effect.ops]), by simp, by simp, hskip, (hallocs (by simp)).symm⟩
    · cases h
      exact Effect.valid_append rfl (by simp) hskip (hallocs (by simp))
  | lockBegin | unlockBegin | lockEnd | unlockEnd => cases h

/-- **What the effect of an entry is like.** -/
theorem valid_effect {onlyPersist skip isOpen : Bool} {i : Nat} {entry : Text} {e : Effect}
    (h : effect onlyPersist skip isOpen i entry = some e) : e.Valid skip isOpen i entry := by
  have hallocs : ∀ {kind?}, entryKind (entry.splitOn ',') = kind? → kind? ≠ some .alloc →
      entryAllocs skip entry = [] := by
    intro kind? hkind hne
    simp [entryAllocs, hkind, hne]
  simp only [effect] at h
  split at h
  · rename_i hkind
    cases h
    exact Effect.valid_append rfl (by simp) (by simp [entrySkips, hkind]) (hallocs hkind (by simp))
  · rename_i hkind
    cases h
    exact Effect.valid_append rfl (by simp) (by simp [entrySkips, hkind]) (hallocs hkind (by simp))
  · rename_i hkind
    obtain ⟨op, hop, rfl⟩ := Option.map_eq_some_iff.1 h
    exact Effect.valid_append (map_id_fullOps hop onlyPersist) (plain_fullOps hop rfl onlyPersist)
      (by simp [entrySkips, hkind]) (hallocs hkind (by simp))
  · rename_i hkind
    obtain ⟨op, hop, rfl⟩ := Option.map_eq_some_iff.1 h
    exact Effect.valid_append (map_id_fullOps hop onlyPersist) (plain_fullOps hop rfl onlyPersist)
      (by simp [entrySkips, hkind]) (hallocs hkind (by simp))
  · rename_i h₁ h₂ h₃ h₄
    split at h
    · rename_i hskip
      cases h
      refine Effect.valid_append rfl (by simp) ?_ (by simp [entryAllocs, hskip])
      rw [entrySkips]
      split <;> simp_all
    · rename_i hskip
      obtain ⟨kind, hkind, h⟩ := Option.bind_eq_some_iff.1 h
      rw [Bool.eq_false_iff.2 hskip]
      exact valid_entryEffect hkind h

/-- A step carries out a valid effect. -/
theorem Extraction.exists_effect {onlyPersist : Bool} {st st' : Extraction} {entry : Text}
    (h : step onlyPersist st entry = some st') :
    ∃ e : Effect, e.Valid st.skipLockModeling st.opCurrApiBeginIndex.isSome st.opCurrIndex entry ∧
      st' = st.perform e := by
  rw [step_eq_perform, Option.map_eq_some_iff] at h
  obtain ⟨e, he, rfl⟩ := h
  exact ⟨e, valid_effect he, rfl⟩

end Durinn
