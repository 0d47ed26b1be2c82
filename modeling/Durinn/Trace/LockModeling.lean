import Durinn.Trace.Indices

/-!
# Modelled lock functions

A program may have lock functions of its own.  The run-time records where they begin and end, and
`Trace.extract_operations` takes the whole call for one operation on a lock: what was recorded in
between is to be skipped.  It keeps a single flag for that.

* `Bracket`, `openSections`, `WellBracketed` — sections, which may be nested, and those that are
  open after some entries.
* `skip_iff` — the flag is set exactly if the last bracket was the beginning of a section.
* `skip_of_outside`, `skip_inside_iff` — so entries outside all sections are read, but of those
  inside one also the ones that follow the end of a section nested in it.
* `foldlM_visible` — where sections are not nested, reading all entries is the same as reading those
  outside of them.
* `sectionsHidden_iff` — nothing inside a section gets into the trace if and only if there is
  nothing to be read at those places; `nested_leaks` is a trace with a store at one.
-/

namespace Durinn

/-! ## Sections -/

/-- The functions that are modelled. -/
inductive LockFunction where
  | lock
  | unlock
  deriving DecidableEq, Repr

/-- The beginning or the end of a section. -/
inductive Bracket where
  | begins (f : LockFunction)
  | ends (f : LockFunction)
  deriving DecidableEq, Repr

/-- The bracket that an entry of this kind is. -/
def EntryKind.bracket? : EntryKind → Option Bracket
  | .lockBegin => some (.begins .lock)
  | .unlockBegin => some (.begins .unlock)
  | .lockEnd => some (.ends .lock)
  | .unlockEnd => some (.ends .unlock)
  | _ => none

/-- The bracket that an entry is. -/
def bracket? (entry : Text) : Option Bracket :=
  (entryKind (entry.splitOn ',')).bind EntryKind.bracket?

/-- The brackets among some entries. -/
def brackets (entries : List Text) : List Bracket := entries.filterMap bracket?

/-- The sections that are open after one more bracket, the innermost first.  An end has to be that
of the innermost one. -/
def nest : List LockFunction → Bracket → Option (List LockFunction)
  | stack, .begins f => some (f :: stack)
  | f :: stack, .ends f' => if f = f' then some stack else none
  | [], .ends _ => none

/-- The sections that are open after some entries. -/
def openSections (entries : List Text) : Option (List LockFunction) :=
  (brackets entries).foldlM nest []

/-- Each section that is begun ends, and inside the one around it. -/
def WellBracketed (entries : List Text) : Prop := openSections entries = some []

instance (entries : List Text) : Decidable (WellBracketed entries) :=
  inferInstanceAs (Decidable (_ = _))

/-- After these entries a section is open. -/
def Inside (done : List Text) : Prop := ∃ f stack, openSections done = some (f :: stack)

instance (done : List Text) : Decidable (Inside done) :=
  decidable_of_iff ((openSections done).getD [] ≠ []) <| by
    rw [Inside]
    rcases openSections done with _ | _ | ⟨f, stack⟩ <;> simp

/-- The last bracket among the entries begins a section. -/
def LastBegins (done : List Text) : Prop := ∃ f, (brackets done).getLast? = some (.begins f)

/-- After these entries a section is open in which another one has just ended. -/
def AfterNested (done : List Text) : Prop :=
  Inside done ∧ ∃ f, (brackets done).getLast? = some (.ends f)

variable {done rest entries : List Text} {entry : Text}

theorem brackets_append_singleton :
    brackets (done ++ [entry]) = brackets done ++ (bracket? entry).toList := by
  rw [brackets, List.filterMap_append, List.filterMap_cons]
  cases bracket? entry <;> rfl

theorem openSections_append_singleton : openSections (done ++ [entry]) =
    (openSections done).bind fun stack => (bracket? entry).elim (some stack) (nest stack) := by
  rw [openSections, brackets_append_singleton, List.foldlM_append]
  cases bracket? entry with
  | none => simp [openSections]
  | some b => simp [openSections]

theorem isSome_openSections_of_append (h : (openSections (done ++ rest)).isSome = true) :
    (openSections done).isSome = true := by
  rw [openSections, brackets, List.filterMap_append, List.foldlM_append, Option.bind_eq_bind] at h
  exact Option.isSome_of_isSome_bind h

/-- A section has just begun, so it is open. -/
theorem inside_of_lastBegins (hopen : (openSections done).isSome = true) (h : LastBegins done) :
    Inside done := by
  induction done using List.reverseRecOn with
  | nil =>
    obtain ⟨f, hf⟩ := h
    cases hf
  | append_singleton done entry ih =>
    have hbefore := isSome_openSections_of_append hopen
    rw [Inside, openSections_append_singleton]
    rw [LastBegins, brackets_append_singleton] at h
    cases hb : bracket? entry with
    | none =>
      rw [hb, Option.toList_none, List.append_nil] at h
      simpa [Inside] using ih hbefore h
    | some b =>
      obtain ⟨f, hf⟩ := h
      rw [hb, Option.toList_some, List.getLast?_concat, Option.some.injEq] at hf
      obtain ⟨stack, hstack⟩ := Option.isSome_iff_exists.1 hbefore
      exact ⟨f, stack, by rw [hstack, hf]; rfl⟩

/-- Inside a section, the last bracket is its beginning or the end of one nested in it. -/
theorem Inside.lastBegins_or (h : Inside done) : LastBegins done ∨ AfterNested done := by
  cases hlast : (brackets done).getLast? with
  | none =>
    obtain ⟨f, stack, hopen⟩ := h
    rw [List.getLast?_eq_none_iff] at hlast
    rw [openSections, hlast] at hopen
    cases hopen
  | some b =>
    cases b with
    | begins f => exact Or.inl ⟨f, hlast⟩
    | ends f => exact Or.inr ⟨h, f, hlast⟩

theorem AfterNested.not_lastBegins (h : AfterNested done) : ¬LastBegins done := by
  rintro ⟨f, hf⟩
  obtain ⟨f', hf'⟩ := h.2
  rw [hf] at hf'
  cases hf'

/-! ## The flag -/

theorem entrySkips_eq (skip : Bool) (entry : Text) :
    entrySkips skip entry = match bracket? entry with
      | some (.begins _) => true
      | some (.ends _) => false
      | none => skip := by
  unfold entrySkips bracket?
  cases entryKind (entry.splitOn ',') with
  | none => rfl
  | some kind => cases kind <;> rfl

theorem skipsAfter_iff (done : List Text) : skipsAfter done = true ↔ LastBegins done := by
  induction done using List.reverseRecOn with
  | nil => simp [skipsAfter, LastBegins, brackets]
  | append_singleton done entry ih =>
    rw [skipsAfter_append_singleton, entrySkips_eq, LastBegins, brackets_append_singleton]
    cases bracket? entry with
    | none => simpa [LastBegins] using ih
    | some b => cases b <;> simp

/-- **The flag is set exactly if the last bracket began a section.** -/
theorem skip_iff {onlyPersist : Bool} {st : Extraction}
    (h : done.foldlM (Extraction.step onlyPersist) Extraction.start = some st) :
    st.skipLockModeling = true ↔ LastBegins done := by
  rw [(Extraction.indexed_run h).skip]
  exact skipsAfter_iff done

variable {onlyPersist : Bool} {st : Extraction}

/-- Inside a section entries are skipped, but for those that follow the end of a nested one. -/
theorem skip_inside_iff (h : done.foldlM (Extraction.step onlyPersist) Extraction.start = some st)
    (hin : Inside done) : st.skipLockModeling = true ↔ ¬AfterNested done := by
  rw [skip_iff h]
  refine ⟨fun hbegins hnested => hnested.not_lastBegins hbegins, fun hnot => ?_⟩
  exact hin.lastBegins_or.resolve_right hnot

theorem skip_of_afterNested
    (h : done.foldlM (Extraction.step onlyPersist) Extraction.start = some st)
    (hnested : AfterNested done) : st.skipLockModeling = false :=
  Bool.eq_false_iff.2 fun hskip => (skip_inside_iff h hnested.1).1 hskip hnested

/-- Outside all sections no entry is skipped. -/
theorem skip_of_outside (h : done.foldlM (Extraction.step onlyPersist) Extraction.start = some st)
    (hopen : (openSections done).isSome = true) (hout : ¬Inside done) :
    st.skipLockModeling = false := by
  rw [Bool.eq_false_iff, Ne, skip_iff h]
  exact fun hbegins => hout (inside_of_lastBegins hopen hbegins)

/-! ## Entries in sections -/

/-- Whether the effect puts something into the trace: an operation, or what is recorded of the
loads, allocations and branches in API calls. -/
def Effect.contributes (isOpen : Bool) : Effect → Bool
  | .append ops _ => !ops.isEmpty
  | .load ops _ _ => !ops.isEmpty || isOpen
  | .apiBegin _ | .apiEnd _ | .br _ => true
  | .alloc _ => isOpen

/-- The effect that the entry has. -/
def Extraction.effectOf (onlyPersist : Bool) (st : Extraction) (entry : Text) : Option Effect :=
  effect onlyPersist st.skipLockModeling st.opCurrApiBeginIndex.isSome st.opCurrIndex entry

/-- The effect that the entry would have outside all sections. -/
def Extraction.effectOutside (onlyPersist : Bool) (st : Extraction) (entry : Text) :
    Option Effect :=
  (entryKind (entry.splitOn ',')).bind
    (entryEffect onlyPersist st.opCurrApiBeginIndex.isSome (entry.splitOn ',') st.opCurrIndex)

/-- The entry puts nothing into the trace. -/
def Extraction.Ignores (onlyPersist : Bool) (st : Extraction) (entry : Text) : Prop :=
  ∀ e, st.effectOf onlyPersist entry = some e → e.contributes st.opCurrApiBeginIndex.isSome = false

/-- There is nothing in the entry to be put into the trace. -/
def Extraction.Blank (onlyPersist : Bool) (st : Extraction) (entry : Text) : Prop :=
  ∀ e, st.effectOutside onlyPersist entry = some e →
    e.contributes st.opCurrApiBeginIndex.isSome = false

namespace Extraction

theorem effectOf_of_plain (hplain : bracket? entry = none) :
    st.effectOf onlyPersist entry = if st.skipLockModeling then some (.append [] true)
      else st.effectOutside onlyPersist entry := by
  unfold bracket? at hplain
  cases hkind : entryKind (entry.splitOn ',') with
  | none => simp only [effectOf, effectOutside, effect, hkind]
  | some kind =>
    rw [hkind] at hplain
    simp only [effectOf, effectOutside, effect, hkind]
    cases kind <;> first | rfl | cases hplain

theorem step_of_plain (hplain : bracket? entry = none) :
    step onlyPersist st entry = if st.skipLockModeling then some st
      else (entryKind (entry.splitOn ',')).bind
        (extractEntry onlyPersist st (entry.splitOn ',')) := by
  unfold bracket? at hplain
  cases hkind : entryKind (entry.splitOn ',') with
  | none => simp only [step, hkind]
  | some kind =>
    rw [hkind] at hplain
    simp only [step, hkind]
    cases kind <;> first | rfl | cases hplain

/-- An effect that contributes nothing leaves the trace as it is. -/
theorem toTrace_perform {e : Effect} (h : e.contributes st.opCurrApiBeginIndex.isSome = false) :
    (st.perform e).toTrace = st.toTrace := by
  cases e with
  | append ops skip =>
    have hops : ops = [] := by simpa [Effect.contributes] using h
    simp [perform, hops, Extraction.append]
  | load ops address srcInfo =>
    obtain ⟨hops, hclosed⟩ : ops = [] ∧ st.opCurrApiBeginIndex.isSome = false := by
      simpa [Effect.contributes] using h
    rw [perform, hops, append_nil, recordLoad, hclosed]
    rfl
  | alloc a =>
    rw [perform, recordAlloc, show st.opCurrApiBeginIndex.isSome = false from h]
    rfl
  | apiBegin b | apiEnd b | br srcInfo => cases h

/-- What is skipped is ignored. -/
theorem ignores_of_skip (hplain : bracket? entry = none) (hskip : st.skipLockModeling = true) :
    st.Ignores onlyPersist entry := by
  intro e he
  rw [effectOf_of_plain hplain, if_pos hskip] at he
  cases he
  rfl

theorem ignores_iff_blank (hplain : bracket? entry = none) (hskip : st.skipLockModeling = false) :
    st.Ignores onlyPersist entry ↔ st.Blank onlyPersist entry := by
  rw [Ignores, Blank, effectOf_of_plain hplain, if_neg (by simp [hskip])]

theorem Ignores.toTrace {st' : Extraction} (h : st.Ignores onlyPersist entry)
    (hstep : step onlyPersist st entry = some st') : st'.toTrace = st.toTrace := by
  rw [step_eq_perform, Option.map_eq_some_iff] at hstep
  obtain ⟨e, he, rfl⟩ := hstep
  exact toTrace_perform (h e he)

end Extraction

/-! ## Sections that are not nested -/

/-- No section lies in another one. -/
def Flat (entries : List Text) : Prop :=
  ∀ done ∈ entries.inits, ((openSections done).any fun stack => stack.length ≤ 1) = true

instance (entries : List Text) : Decidable (Flat entries) :=
  inferInstanceAs (Decidable (∀ done ∈ entries.inits, _))

theorem Flat.of_append (h : Flat (entries ++ rest)) : Flat entries := by
  intro done hdone
  rw [List.mem_inits] at hdone
  exact h done ((List.mem_inits _ _).2 (hdone.trans (List.prefix_append _ _)))

theorem Flat.not_afterNested (h : Flat entries) : ¬AfterNested entries := by
  induction entries using List.reverseRecOn with
  | nil =>
    rintro ⟨-, f, hf⟩
    cases hf
  | append_singleton done entry ih =>
    rintro ⟨⟨g, stack, hopen⟩, f, hlast⟩
    rw [openSections_append_singleton] at hopen
    rw [brackets_append_singleton] at hlast
    obtain ⟨before, hbefore, hopen⟩ := Option.bind_eq_some_iff.1 hopen
    cases hb : bracket? entry with
    | none =>
      rw [hb] at hopen hlast
      cases hopen
      exact ih h.of_append ⟨⟨g, stack, hbefore⟩, f, by simpa using hlast⟩
    | some b =>
      -- the section that ended was open together with the one around it
      rw [hb, Option.toList_some, List.getLast?_concat, Option.some.injEq] at hlast
      rw [hb, hlast] at hopen
      have hflat := h done ((List.mem_inits _ _).2 (List.prefix_append _ _))
      rw [hbefore] at hflat
      cases before with
      | nil => cases hopen
      | cons f' before =>
        simp only [Option.elim, nest, Option.ite_none_right_eq_some, Option.some.injEq] at hopen
        rw [hopen.2] at hflat
        simp at hflat

/-- The brackets and the entries outside all sections. -/
def visible (entries : List Text) : List Text :=
  Runs.outputs (fun done entry => if bracket? entry = none ∧ Inside done then [] else [entry])
    entries

/-- **Where sections are not nested, all entries in them could as well be left out.** -/
theorem foldlM_visible (onlyPersist : Bool) {entries : List Text} (h : Flat entries) :
    (visible entries).foldlM (Extraction.step onlyPersist) Extraction.start =
      entries.foldlM (Extraction.step onlyPersist) Extraction.start := by
  induction entries using List.reverseRecOn with
  | nil => rfl
  | append_singleton done entry ih =>
    rw [visible, Runs.outputs_append_singleton, ← visible, List.foldlM_append, List.foldlM_append,
      ih h.of_append]
    cases hrun : done.foldlM (Extraction.step onlyPersist) Extraction.start with
    | none => rfl
    | some st =>
      split
      · next hhidden =>
        have hskip := (skip_inside_iff hrun hhidden.2).2 h.of_append.not_afterNested
        simp [Extraction.step_of_plain hhidden.1, hskip]
      · rfl

/-! ## Hidden sections -/

/-- **Sections are hidden**: an entry other than a bracket is ignored inside a section, and read
outside. -/
structure SectionsHidden (onlyPersist : Bool) (entries : List Text) : Prop where
  inside : ∀ done entry rest st, entries = done ++ entry :: rest →
    done.foldlM (Extraction.step onlyPersist) Extraction.start = some st → bracket? entry = none →
      Inside done → st.Ignores onlyPersist entry ∧
        ∀ st', Extraction.step onlyPersist st entry = some st' → st'.toTrace = st.toTrace
  outside : ∀ done entry rest st, entries = done ++ entry :: rest →
    done.foldlM (Extraction.step onlyPersist) Extraction.start = some st → bracket? entry = none →
      ¬Inside done → Extraction.step onlyPersist st entry = (entryKind (entry.splitOn ',')).bind
        (Extraction.extractEntry onlyPersist st (entry.splitOn ','))

/-- **Sections are hidden if and only if nothing stands after a nested one.**  The entries that
matter are those in a section, after the end of a section nested in it. -/
theorem sectionsHidden_iff (onlyPersist : Bool) {entries : List Text} (h : WellBracketed entries) :
    SectionsHidden onlyPersist entries ↔ ∀ done entry rest st, entries = done ++ entry :: rest →
      done.foldlM (Extraction.step onlyPersist) Extraction.start = some st →
        bracket? entry = none → AfterNested done → st.Blank onlyPersist entry := by
  refine ⟨fun hhidden done entry rest st hsplit hrun hplain hnested => ?_, fun hblank => ⟨?_, ?_⟩⟩
  · rw [← Extraction.ignores_iff_blank hplain (skip_of_afterNested hrun hnested)]
    exact (hhidden.inside done entry rest st hsplit hrun hplain hnested.1).1
  · intro done entry rest st hsplit hrun hplain hin
    have hignores : st.Ignores onlyPersist entry := by
      by_cases hnested : AfterNested done
      · rw [Extraction.ignores_iff_blank hplain (skip_of_afterNested hrun hnested)]
        exact hblank done entry rest st hsplit hrun hplain hnested
      · exact Extraction.ignores_of_skip hplain ((skip_inside_iff hrun hin).2 hnested)
    exact ⟨hignores, fun st' => hignores.toTrace⟩
  · intro done entry rest st hsplit hrun hplain hout
    have hall : (openSections (done ++ entry :: rest)).isSome = true := by
      rw [← hsplit, h]
      rfl
    have hskip := skip_of_outside hrun (isSome_openSections_of_append hall) hout
    rw [Extraction.step_of_plain hplain, if_neg (by simp [hskip])]

/-- A section with a store in it and one after it. -/
def flatTrace : List Text :=
  ["LockBegin,1,40,NA".toList, "Store,1,40,1,01,5,0".toList, "LockEnd,1,40,NA".toList,
    "Store,1,80,1,01,6,0".toList]

/-- Sections that are not nested are hidden, as those of this trace. -/
theorem sectionsHidden_iff_flatTrace :
    WellBracketed flatTrace ∧ SectionsHidden false flatTrace := by
  have hbracketed : WellBracketed flatTrace := by decide
  have hflat : Flat flatTrace := by decide
  refine ⟨hbracketed, (sectionsHidden_iff false hbracketed).2 ?_⟩
  intro done entry rest st hsplit _ _ hnested
  rw [hsplit] at hflat
  exact absurd hnested hflat.of_append.not_afterNested

/-- A store after the end of a nested section. -/
def nestedTrace : List Text :=
  ["LockBegin,1,40,NA".toList, "LockBegin,1,48,NA".toList, "LockEnd,1,48,NA".toList,
    "Store,1,40,1,01,5,0".toList, "LockEnd,1,40,NA".toList]

/-- **The store of the outer section is in the trace.** -/
theorem nested_leaks :
    WellBracketed nestedTrace ∧ Inside (nestedTrace.take 3) ∧ ¬SectionsHidden false nestedTrace ∧
      (Trace.extractOperations false nestedTrace).map Trace.ops =
        some [.lock ⟨⟨0, 1, "NA".toList⟩, 0x48⟩,
          .store ⟨⟨1, 1, ['5']⟩, 0x40, 1, [1], 0⟩, .lock ⟨⟨2, 1, "NA".toList⟩, 0x40⟩] := by
  refine ⟨by decide, by decide, fun hhidden => ?_, by decide +kernel⟩
  have hrun : ((nestedTrace.take 3).foldlM (Extraction.step false) Extraction.start).bind (fun st =>
      (Extraction.step false st "Store,1,40,1,01,5,0".toList).map fun st' =>
        (st.ops.length, st'.ops.length)) = some (1, 2) := by decide +kernel
  obtain ⟨st, hst, hrun⟩ := Option.bind_eq_some_iff.1 hrun
  obtain ⟨st', hst', hlengths⟩ := Option.map_eq_some_iff.1 hrun
  have hsame := (hhidden.inside _ _ ["LockEnd,1,40,NA".toList] st rfl hst (by decide) (by decide)).2
    st' hst'
  rw [hsame] at hlengths
  have hone := congrArg Prod.fst hlengths
  have htwo := congrArg Prod.snd hlengths
  omega

end Durinn
