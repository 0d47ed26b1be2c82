import Durinn.LastStore.Jobs
import Durinn.Race.Pairs
import Durinn.Trace.Modes

/-!
# The points that the two phases choose

`TraceChecker` reads the trace whole and selects stores; `LSChecker` reads it reduced, where a
store is its atomic pieces, and selects pieces.  Both have the same selection code.

* `TraceChecker.mem_selectStores`, `LSChecker.mem_selectStores` — what is selected, in the modes
  that both have.
* `mem_perApi_pieces` — the pieces of a store are in the same API call of the reduced trace.
* `selectStores_alike_iff` — when a store is selected if and only if one of its pieces is.  The
  filter for loads compares the address of a store, so a piece may pass it where the store does
  not; and a store that an allocation overlaps may have pieces that no allocation overlaps.
-/

namespace Durinn

open Tiling

/-! ## What is selected -/

theorem TraceChecker.mem_selectStores {c : TraceChecker}
    (hmode : c.lockBased = 0 ∨ c.lockBased = 3 ∨ c.lockBased = 4 ∨ c.lockBased = 6)
    {tracePerApi : List Op} {idx : Nat} {s : Store} :
    s ∈ c.selectStores tracePerApi idx ↔ .store s ∈ tracePerApi ∧
      (c.lockFree ≠ 0 → s.isCas ≠ 0) ∧
      IsPoint c.trace c.lpSrcs c.lockBased idx (s.address, s.size) := by
  unfold selectStores selectStoresAt IsPoint
  rcases hmode with h | h | h | h
  all_goals simp [h, mem_storesNotInNew, mem_storesUsedByLoadsBeforeBr, mem_casStores, mem_storesOf,
    and_assoc]

theorem LSChecker.mem_selectStores {c : LSChecker}
    (hmode : c.lockBased = 0 ∨ c.lockBased = 3 ∨ c.lockBased = 4 ∨ c.lockBased = 6)
    {tracePerApi : List Op} {idx : Nat} {s : Store} :
    s ∈ c.selectStores tracePerApi idx ↔ .store s ∈ tracePerApi ∧
      (c.lockFree ≠ 0 → s.isCas ≠ 0) ∧
      IsPoint c.trace c.lpSrcs c.lockBased idx (s.address, s.size) := by
  unfold selectStores IsPoint
  rcases hmode with h | h | h | h
  all_goals simp [h, mem_storesNotInNew, mem_storesUsedByLoadsBeforeBr, mem_casStores, mem_storesOf,
    and_assoc]

/-! ## The parts of a store -/

namespace StoreFields

/-- Where the pieces of the store lie. -/
def parts (f : StoreFields) : List (Nat × Nat) :=
  (cuts atomicWriteBytes f.size f.head).map fun c => (f.address + c.1, c.2)

/-- If there are parts, the first begins where the store does. -/
theorem exists_first_part {f : StoreFields} (h : f.parts ≠ []) :
    ∃ n ≤ f.size, (f.address, n) ∈ f.parts := by
  have htiles := tiles_cuts atomicWriteBytes f.size f.head
  unfold parts at h ⊢
  cases hcuts : cuts atomicWriteBytes f.size f.head with
  | nil => exact absurd (by rw [hcuts]; rfl) h
  | cons c cs =>
    rw [hcuts] at htiles
    have hbound := (htiles.bounds c List.mem_cons_self).2
    refine ⟨c.2, by omega, List.mem_map.2 ⟨c, List.mem_cons_self, ?_⟩⟩
    rw [htiles.1, Nat.add_zero]

end StoreFields

/-! ## The API call in the two traces -/

theorem mem_perApi {trace : Trace} {r : Nat × Nat} {op : Op} :
    op ∈ trace.perApi r ↔ ∃ i, r.1 ≤ i ∧ i ≤ r.2 ∧ trace.ops[i]? = some op := by
  rw [Trace.perApi, List.mem_iff_getElem?]
  constructor
  · rintro ⟨k, hk⟩
    rw [List.getElem?_take, List.getElem?_drop] at hk
    split at hk
    · exact ⟨r.1 + k, by omega, by omega, hk⟩
    · cases hk
  · rintro ⟨i, hlo, hhi, hi⟩
    refine ⟨i - r.1, ?_⟩
    rw [List.getElem?_take, List.getElem?_drop, if_pos (by omega), Nat.add_sub_cancel' hlo]
    exact hi

/-- Only a store entry is read as a store. -/
theorem kind_of_parseOp_store {strs : List Text} {i : Nat} {kind : EntryKind} {s : Store}
    (h : parseOp strs i kind = some (.store s)) : kind = .store := by
  cases kind with
  | store => rfl
  | _ => simp [parseOp, Option.bind_eq_some_iff, Option.map_eq_some_iff] at h

/-- An entry whose effect is to append a store is a store entry. -/
theorem parseOp_of_effect {skip isOpen : Bool} {i : Nat} {entry : Text} {e : Effect} {s : Store}
    (h : effect false skip isOpen i entry = some e) (hops : e.ops = [.store s]) :
    parseOp (entry.splitOn ',') i .store = some (.store s) := by
  -- an operation that an entry of some kind is read as
  have hread : ∀ {kind : EntryKind} {b : Bool}, (parseOp (entry.splitOn ',') i kind).map
      (fun op => Effect.append [op] b) = some e → parseOp (entry.splitOn ',') i .store =
        some (.store s) := by
    intro kind b hkind
    obtain ⟨op, hop, rfl⟩ := Option.map_eq_some_iff.1 hkind
    cases hops
    rw [kind_of_parseOp_store hop] at hop
    exact hop
  simp only [effect] at h
  split at h
  · cases h
    cases hops
  · cases h
    cases hops
  · exact hread h
  · exact hread h
  · split at h
    · cases h
      cases hops
    · obtain ⟨kind, -, h⟩ := Option.bind_eq_some_iff.1 h
      cases kind with
      | store | flush | fence | lock | unlock => exact hread h
      | load =>
        obtain ⟨op, -, h⟩ := Option.bind_eq_some_iff.1 h
        cases op with
        | load l =>
          cases h
          cases hops
        | _ => cases h
      | apiBegin | alloc =>
        obtain ⟨b, -, rfl⟩ := Option.map_eq_some_iff.1 h
        cases hops
      | apiEnd | br =>
        cases isOpen with
        | false =>
          cases h
          try cases hops
        | true =>
          obtain ⟨b, -, rfl⟩ := Option.map_eq_some_iff.1 h
          cases hops
      | lockBegin | unlockBegin | lockEnd | unlockEnd => cases h

/-- What is read as a store has the fields of its entry. -/
theorem ReadFrom.store {entries : List Text} {entry : Text} {s : Store}
    (h : ReadFrom entries entry (.store s)) :
    ∃ f, storeFields (entry.splitOn ',') = some f ∧ s.address = f.address ∧ s.size = f.size ∧
      s.isCas = f.isCas := by
  obtain ⟨u, w, trace, trace', -, hu, hentry, hops⟩ := h
  obtain ⟨st, hst, rfl⟩ := Option.map_eq_some_iff.1 hu
  obtain ⟨st', hst', rfl⟩ := Option.map_eq_some_iff.1 hentry
  rw [List.foldlM_append, hst] at hst'
  have hstep : Extraction.step false st entry = some st' := by simpa using hst'
  rw [Extraction.step_eq_perform, Option.map_eq_some_iff] at hstep
  obtain ⟨e, he, rfl⟩ := hstep
  have happ : st.ops ++ e.ops = st.ops ++ [.store s] :=
    (Extraction.perform_ops st e).symm.trans hops
  have hop := parseOp_of_effect he (List.append_cancel_left happ)
  rw [parseOp_store] at hop
  obtain ⟨f, hf, hop⟩ := Option.bind_eq_some_iff.1 hop
  obtain ⟨s', hs', heq⟩ := Option.map_eq_some_iff.1 hop
  obtain ⟨bytes, -, rfl⟩ := Option.map_eq_some_iff.1 hs'
  cases heq
  exact ⟨f, hf, rfl, rfl, rfl⟩

/-- **The pieces of a store are in the same API call** of the reduced trace. -/
theorem mem_perApi_pieces {entries : List Text} {trace trace' : Trace}
    (h : Trace.extractOperations false entries = some trace)
    (h' : Trace.extractOperations true entries = some trace') {idx : Nat} {r : Nat × Nat}
    (hr : trace.opsApiRanges[idx]? = some r) {s : Store} (hs : .store s ∈ trace.perApi r) :
    ∃ r' entry i pieces, trace'.opsApiRanges[idx]? = some r' ∧ ReadFrom entries entry (.store s) ∧
      getStores (entry.splitOn ',') i = some pieces ∧ (∀ p ∈ pieces, .store p ∈ trace'.perApi r') ∧
      trace'.allocs = trace.allocs ∧ trace'.loadSrcToAddrs = trace.loadSrcToAddrs := by
  have hcall := (isApiCall_of_mem h (List.mem_of_getElem? hr)).at_positions
  obtain ⟨st, hst, rfl⟩ := Option.map_eq_some_iff.1 h
  obtain ⟨st', hst', rfl⟩ := Option.map_eq_some_iff.1 h'
  obtain ⟨groups, hsim⟩ := Extraction.sim_run hst hst'
  obtain ⟨k, hlo, hhi, hk⟩ := mem_perApi.1 hs
  -- the last operation of the call is not a store
  have hlt : k < r.2 := by
    obtain ⟨-, -, ⟨last, hlast, hbound⟩, -⟩ := hcall
    refine lt_of_le_of_ne hhi fun heq => ?_
    rw [heq, hlast] at hk
    cases hk
    cases hbound
  obtain ⟨hklt, hget⟩ := List.getElem?_eq_some_iff.1 hk
  have hklt' : k < groups.length := hsim.ops.length_eq ▸ hklt
  have hpersists := (List.forall₂_iff_get.1 hsim.ops).2 k hklt hklt'
  rw [List.get_eq_getElem, List.get_eq_getElem, hget] at hpersists
  obtain ⟨entry, hread, i, pieces, hpieces, hgroup⟩ := hpersists
  have hr' : st'.opsApiRanges[idx]? = some (offset groups r.1, offset groups r.2) := by
    rw [hsim.ranges, List.getElem?_map]
    exact congrArg _ hr
  refine ⟨_, entry, i, pieces, hr', hread, hpieces, fun p hp => ?_, hsim.allocs,
    hsim.loadSrcToAddrs⟩
  obtain ⟨j, hj⟩ := List.mem_iff_getElem?.1 (List.mem_map_of_mem (f := Op.store) hp)
  have hgroup' : groups[k]? = some (pieces.map Op.store) := by
    rw [List.getElem?_eq_getElem hklt', hgroup]
  have hjlt := (List.getElem?_eq_some_iff.1 hj).1
  have hnext := offset_succ hgroup'
  refine mem_perApi.2 ⟨offset groups k + j, ?_, ?_, ?_⟩
  · exact (offset_mono groups hlo).trans (Nat.le_add_right _ _)
  · have hmono : offset groups (k + 1) ≤ offset groups r.2 := offset_mono groups hlt
    show offset groups k + j ≤ offset groups r.2
    omega
  · show st'.ops[offset groups k + j]? = _
    rw [hsim.flat]
    exact getElem?_flatten_offset hgroup' hj

/-! ## When the choices are alike -/

/-- The store and its pieces are chosen alike.  Both are dropped for not being a compare-and-swap;
or the store may be a linearization point and has pieces; or it may not, and no part of it may. -/
def ChosenAlike (c : TraceChecker) (idx : Nat) (f : StoreFields) : Prop :=
  (c.lockFree ≠ 0 ∧ f.isCas = 0) ∨
    (IsPoint c.trace c.lpSrcs c.lockBased idx (f.address, f.size) → f.parts ≠ []) ∧
      (¬ IsPoint c.trace c.lpSrcs c.lockBased idx (f.address, f.size) →
        ∀ part ∈ f.parts, ¬ IsPoint c.trace c.lpSrcs c.lockBased idx part)

/-- For a store that may be a linearization point, its first part may be. -/
theorem exists_isPoint_iff {trace : Trace} {lpSrcs : List Text} {lockBased idx : Nat}
    {f : StoreFields} (h : IsPoint trace lpSrcs lockBased idx (f.address, f.size)) :
    (∃ part ∈ f.parts, IsPoint trace lpSrcs lockBased idx part) ↔ f.parts ≠ [] := by
  constructor
  · rintro ⟨part, hpart, -⟩
    exact List.ne_nil_of_mem hpart
  · intro hparts
    obtain ⟨n, hn, hpart⟩ := f.exists_first_part hparts
    exact ⟨_, hpart, h.shorter hn⟩

/-- **When the two phases choose the same point.**  Of a store of an API call and its pieces, the
first phase selects the store if and only if the second selects a piece, exactly when the store
and its parts are alike for the filters. -/
theorem selectStores_alike_iff {entries : List Text} {c : TraceChecker} {d : LSChecker}
    (h : Trace.extractOperations false entries = some c.trace)
    (h' : Trace.extractOperations true entries = some d.trace)
    (hfree : d.lockFree = c.lockFree) (hbased : d.lockBased = c.lockBased)
    (hsrcs : d.lpSrcs = c.lpSrcs)
    (hmode : c.lockBased = 0 ∨ c.lockBased = 3 ∨ c.lockBased = 4 ∨ c.lockBased = 6)
    {idx : Nat} {r : Nat × Nat} (hr : c.trace.opsApiRanges[idx]? = some r) {s : Store}
    (hs : .store s ∈ c.trace.perApi r) :
    ∃ r' entry f i pieces, d.trace.opsApiRanges[idx]? = some r' ∧
      ReadFrom entries entry (.store s) ∧ storeFields (entry.splitOn ',') = some f ∧
      getStores (entry.splitOn ',') i = some pieces ∧
      (∀ p ∈ pieces, .store p ∈ d.trace.perApi r') ∧
      ((s ∈ c.selectStores (c.trace.perApi r) idx ↔
          ∃ p ∈ pieces, p ∈ d.selectStores (d.trace.perApi r') idx) ↔ ChosenAlike c idx f) := by
  obtain ⟨r', entry, i, pieces, hr', hread, hpieces, hin, hallocs, hloads⟩ :=
    mem_perApi_pieces h h' hr hs
  obtain ⟨f, hf, haddr, hsize, hcas⟩ := hread.store
  refine ⟨r', entry, f, i, pieces, hr', hread, hf, hpieces, hin, ?_⟩
  have hstore : s ∈ c.selectStores (c.trace.perApi r) idx ↔ (c.lockFree ≠ 0 → f.isCas ≠ 0) ∧
      IsPoint c.trace c.lpSrcs c.lockBased idx (f.address, f.size) := by
    rw [TraceChecker.mem_selectStores hmode, haddr, hsize, hcas]
    exact and_iff_right hs
  have hpiece : (∃ p ∈ pieces, p ∈ d.selectStores (d.trace.perApi r') idx) ↔
      (c.lockFree ≠ 0 → f.isCas ≠ 0) ∧
        ∃ part ∈ f.parts, IsPoint c.trace c.lpSrcs c.lockBased idx part := by
    obtain ⟨hparts, -, hrest⟩ := getStores_shape hf hpieces
    rw [StoreFields.parts, ← hparts]
    have hsel : ∀ p ∈ pieces, (p ∈ d.selectStores (d.trace.perApi r') idx ↔
        (c.lockFree ≠ 0 → f.isCas ≠ 0) ∧
          IsPoint c.trace c.lpSrcs c.lockBased idx (p.address, p.size)) := by
      intro p hp
      rw [LSChecker.mem_selectStores (hbased ▸ hmode), hfree, hbased, hsrcs, (hrest p hp).2.2,
        isPoint_congr hallocs hloads]
      exact and_iff_right (hin p hp)
    constructor
    · rintro ⟨p, hp, hpsel⟩
      obtain ⟨hkeep, hpoint⟩ := (hsel p hp).1 hpsel
      exact ⟨hkeep, _, List.mem_map_of_mem hp, hpoint⟩
    · rintro ⟨hkeep, part, hpart, hpoint⟩
      obtain ⟨p, hp, rfl⟩ := List.mem_map.1 hpart
      exact ⟨p, hp, (hsel p hp).2 ⟨hkeep, hpoint⟩⟩
  rw [hstore, hpiece, and_congr_right_iff, ChosenAlike]
  by_cases hdrop : c.lockFree ≠ 0 ∧ f.isCas = 0
  · exact iff_of_true (fun hkeep => absurd hdrop.2 (hkeep hdrop.1)) (Or.inl hdrop)
  · have hkeep : c.lockFree ≠ 0 → f.isCas ≠ 0 := fun hne heq => hdrop ⟨hne, heq⟩
    rw [or_iff_right hdrop, imp_iff_right hkeep]
    by_cases hpoint : IsPoint c.trace c.lpSrcs c.lockBased idx (f.address, f.size)
    · simp [hpoint, exists_isPoint_iff hpoint]
    · simp [hpoint]

/-- An API call that stores two words; the instruction `5` loads the given address before it. -/
def twoWords (address : Text) : List Text :=
  ["APIBegin,1,1".toList, "Load,1,".toList ++ address ++ ",8,5".toList,
    "Store,1,0x40,16,00 01 02 03 04 05 06 07 08 09 0a 0b 0c 0d 0e 0f,6,0".toList,
    "APIEnd,1,2".toList]

/-- The branch depends on the first word. -/
theorem selectStores_alike_iff_twoWords :
    ∃ trace trace' s, Trace.extractOperations false (twoWords "0x40".toList) = some trace ∧
      Trace.extractOperations true (twoWords "0x40".toList) = some trace' ∧
      .store s ∈ trace.perApi (0, 3) ∧
      ∃ r' entry f i pieces, ReadFrom (twoWords "0x40".toList) entry (.store s) ∧
        storeFields (entry.splitOn ',') = some f ∧
        getStores (entry.splitOn ',') i = some pieces ∧
        ((s ∈ (TraceChecker.mk trace 1 0 4 [['5']] []).selectStores (trace.perApi (0, 3)) 0 ↔
            ∃ p ∈ pieces, p ∈ (LSChecker.mk trace' 0 4 [['5']] []).selectStores
              (trace'.perApi r') 0) ↔
          ChosenAlike (TraceChecker.mk trace 1 0 4 [['5']] []) 0 f) := by
  have hranges : (Trace.extractOperations false (twoWords "0x40".toList)).map (fun t =>
      (t.opsApiRanges, (storesOf (t.perApi (0, 3))).length)) = some ([(0, 3)], 1) := by
    decide +kernel
  have haccepted : (Trace.extractOperations true (twoWords "0x40".toList)).isSome = true := by
    decide +kernel
  obtain ⟨trace, h, heq⟩ := Option.map_eq_some_iff.1 hranges
  obtain ⟨trace', h'⟩ := Option.isSome_iff_exists.1 haccepted
  obtain ⟨hranges, hlength⟩ := Prod.mk.injEq .. ▸ heq
  obtain ⟨s, hs⟩ := List.exists_mem_of_length_pos (hlength ▸ Nat.one_pos)
  have hr : trace.opsApiRanges[0]? = some (0, 3) := by rw [hranges]; rfl
  obtain ⟨r', entry, f, i, pieces, -, hread, hf, hpieces, -, halike⟩ := selectStores_alike_iff
    (c := TraceChecker.mk trace 1 0 4 [['5']] []) (d := LSChecker.mk trace' 0 4 [['5']] [])
    h h' rfl rfl rfl (Or.inr (Or.inr (Or.inl rfl))) hr (mem_storesOf.1 hs)
  exact ⟨trace, trace', s, h, h', mem_storesOf.1 hs, r', entry, f, i, pieces, hread, hf, hpieces,
    halike⟩

/-- Where the branch depends on the second word, the first phase selects no store, and the second
the piece that writes the word. -/
theorem selectStores_twoWords_second :
    (Trace.extractOperations false (twoWords "0x48".toList)).map (fun trace =>
        (trace.opsApiRanges, storesOf (trace.perApi (0, 3)) |>.map (fun s => (s.address, s.size)),
          (TraceChecker.mk trace 1 0 4 [['5']] []).selectStores (trace.perApi (0, 3)) 0)) =
      some ([(0, 3)], [(0x40, 16)], []) ∧
    (Trace.extractOperations true (twoWords "0x48".toList)).map (fun trace =>
        (trace.opsApiRanges, storesOf (trace.perApi (0, 3)) |>.map (fun s => (s.address, s.size)),
          (LSChecker.mk trace 0 4 [['5']] []).selectStores (trace.perApi (0, 3)) 0 |>.map
            fun s => (s.address, s.size))) =
      some ([(0, 3)], [(0x40, 8), (0x48, 8)], [(0x48, 8)]) := by
  decide +kernel

end Durinn
