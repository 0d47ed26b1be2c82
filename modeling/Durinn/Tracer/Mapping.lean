import Durinn.Tracer.Session

/-!
# Where the persistent memory is mapped

The run-time watches the calls of `mmap` in order to know where the persistent memory is.  The first
address is given by the environment; a mapping at any other address is taken for a second mapping
of the same memory, and there may be only one such.

* `Mapping`, `mapAll` — the calls of `recordMmap` in a run.
* `mapAll_iff` — no assertion fails if and only if all mappings elsewhere have the same range; then
  this is the second mapping, and the first one is as long as it was mapped last.
* `mapAll_mapped_iff` — so once there is a second mapping, addresses are translated in the same way
  for the rest of the run.
-/

namespace Durinn

/-- A call of `mmap` that was recorded. -/
structure Mapping where
  id : UInt32
  ptr : UInt64
  length : UInt64
  deriving DecidableEq

/-- The calls of `recordMmap` in a run. -/
def mapAll (t : Tracer) (ms : List Mapping) : Option Tracer :=
  ms.foldlM (fun t m => t.recordMmap m.id m.ptr m.length) t

/-- The range that is mapped. -/
def Mapping.range (m : Mapping) : UInt64 × UInt64 := (m.ptr, m.ptr + m.length)

/-- A mapping at the address that the environment gives. -/
def Mapping.IsFirst (start : UInt64) (m : Mapping) : Prop :=
  m.ptr ≠ 18446744073709551615 ∧ m.ptr = start

/-- A mapping at any other address. -/
def Mapping.IsElsewhere (start : UInt64) (m : Mapping) : Prop :=
  m.ptr ≠ 18446744073709551615 ∧ m.ptr ≠ start

instance (start : UInt64) (m : Mapping) : Decidable (m.IsFirst start) :=
  inferInstanceAs (Decidable (_ ∧ _))

instance (start : UInt64) (m : Mapping) : Decidable (m.IsElsewhere start) :=
  inferInstanceAs (Decidable (_ ∧ _))

/-- The mappings elsewhere. -/
def elsewhere (start : UInt64) (ms : List Mapping) : List Mapping :=
  ms.filter fun m => m.IsElsewhere start

/-- The end of the first mapping: that of the last call at its address. -/
def firstEnd (start fin : UInt64) (ms : List Mapping) : UInt64 :=
  ((ms.filter fun m => m.IsFirst start).getLast?.map fun m => m.range.2).getD fin

/-- The second mapping, if there is one. -/
def secondRange (start : UInt64) (ms : List Mapping) : UInt64 × UInt64 :=
  ((elsewhere start ms).head?.map Mapping.range).getD (0, 0)

variable {t t' : Tracer} {m : Mapping} {ms : List Mapping}

theorem recordMmap_first (hrec : t.recording = true) (h : m.IsFirst t.pmAddrStart) :
    t.recordMmap m.id m.ptr m.length = some { t with pmAddrEnd := m.range.2 } := by
  rw [Tracer.recordMmap, if_neg (by simp [hrec]), if_neg h.1, if_pos h.2]
  rfl

theorem recordMmap_failed (hrec : t.recording = true) (h : m.ptr = 18446744073709551615) :
    t.recordMmap m.id m.ptr m.length = some t := by
  rw [Tracer.recordMmap, if_neg (by simp [hrec]), if_pos h]

/-- A mapping elsewhere has to be the first such, or have the same range. -/
theorem recordMmap_elsewhere (hrec : t.recording = true) (h : m.IsElsewhere t.pmAddrStart) :
    t.recordMmap m.id m.ptr m.length =
      if (t.pmAddrStartDup = 0 ∨ t.pmAddrStartDup = m.ptr) ∧
          (t.pmAddrEndDup = 0 ∨ t.pmAddrEndDup = m.ptr + m.length) then
        some { t with pmAddrStartDup := m.range.1, pmAddrEndDup := m.range.2 } else none := by
  rw [Tracer.recordMmap, if_neg (by simp [hrec]), if_neg h.1, if_neg h.2]
  by_cases h₁ : t.pmAddrStartDup = 0 ∨ t.pmAddrStartDup = m.ptr
  · by_cases h₂ : t.pmAddrEndDup = 0 ∨ t.pmAddrEndDup = m.ptr + m.length
    · rw [if_neg (not_not.2 h₁), if_neg (not_not.2 h₂), if_pos ⟨h₁, h₂⟩]
      rfl
    · rw [if_neg (not_not.2 h₁), if_pos h₂, if_neg fun h => h₂ h.2]
  · rw [if_pos h₁, if_neg fun h => h₁ h.1]

theorem firstEnd_cons (start fin : UInt64) (m : Mapping) (ms : List Mapping) :
    firstEnd start fin (m :: ms) =
      firstEnd start (if m.IsFirst start then m.range.2 else fin) ms := by
  rw [firstEnd, List.filter_cons, firstEnd]
  by_cases h : m.IsFirst start
  · rw [if_pos (decide_eq_true h), if_pos h, List.getLast?_cons]
    cases (ms.filter fun m => m.IsFirst start).getLast? <;> rfl
  · rw [if_neg (by simpa using h), if_neg h]

theorem elsewhere_cons (start : UInt64) (m : Mapping) (ms : List Mapping) :
    elsewhere start (m :: ms) =
      (if m.IsElsewhere start then [m] else []) ++ elsewhere start ms := by
  rw [elsewhere, List.filter_cons, elsewhere]
  by_cases h : m.IsElsewhere start <;> simp [h]

/-- The three kinds of calls. -/
theorem Mapping.cases (start : UInt64) (m : Mapping) :
    m.ptr = 18446744073709551615 ∧ ¬m.IsFirst start ∧ ¬m.IsElsewhere start ∨
      m.IsFirst start ∧ ¬m.IsElsewhere start ∨ m.IsElsewhere start ∧ ¬m.IsFirst start := by
  by_cases hfail : m.ptr = 18446744073709551615
  · exact Or.inl ⟨hfail, fun h => h.1 hfail, fun h => h.1 hfail⟩
  · by_cases hstart : m.ptr = start
    · exact Or.inr (Or.inl ⟨⟨hfail, hstart⟩, fun h => h.2 hstart⟩)
    · exact Or.inr (Or.inr ⟨⟨hfail, hstart⟩, fun h => hstart h.2⟩)

theorem mapAll_cons (m : Mapping) (ms : List Mapping) :
    mapAll t (m :: ms) = (t.recordMmap m.id m.ptr m.length).bind fun t => mapAll t ms := rfl

/-- **After a second mapping** there is no other. -/
theorem mapAll_mapped_iff (hrec : t.recording = true) (hstart : t.pmAddrStartDup ≠ 0)
    (hend : t.pmAddrEndDup ≠ 0) :
    mapAll t ms = some t' ↔
      (∀ m ∈ elsewhere t.pmAddrStart ms, m.range = (t.pmAddrStartDup, t.pmAddrEndDup)) ∧
        t' = { t with pmAddrEnd := firstEnd t.pmAddrStart t.pmAddrEnd ms } := by
  induction ms generalizing t with
  | nil =>
    rw [mapAll, List.foldlM_nil, elsewhere, List.filter_nil, eq_comm]
    simp [firstEnd]
  | cons m ms ih =>
    rw [mapAll_cons, elsewhere_cons, firstEnd_cons]
    rcases m.cases t.pmAddrStart with ⟨hfail, hnot, hnot'⟩ | ⟨hfirst, hnot⟩ | ⟨helse, hnot⟩
    · rw [recordMmap_failed hrec hfail, Option.bind_some, ih hrec hstart hend, if_neg hnot,
        if_neg hnot', List.nil_append]
    · rw [recordMmap_first hrec hfirst, Option.bind_some, if_pos hfirst, if_neg hnot,
        List.nil_append]
      exact ih (t := { t with pmAddrEnd := m.range.2 }) hrec hstart hend
    · have hrange : m.range = (t.pmAddrStartDup, t.pmAddrEndDup) ↔
          m.ptr = t.pmAddrStartDup ∧ m.ptr + m.length = t.pmAddrEndDup := Prod.mk_inj
      rw [recordMmap_elsewhere hrec helse, if_pos helse, if_neg hnot, List.singleton_append,
        List.forall_mem_cons, hrange]
      by_cases hsame : m.ptr = t.pmAddrStartDup ∧ m.ptr + m.length = t.pmAddrEndDup
      · have ht :
            ({ t with pmAddrStartDup := m.range.1, pmAddrEndDup := m.range.2 } : Tracer) = t := by
          show ({ t with pmAddrStartDup := m.ptr, pmAddrEndDup := m.ptr + m.length } : Tracer) = t
          rw [hsame.2, hsame.1]
        rw [if_pos ⟨Or.inr hsame.1.symm, Or.inr hsame.2.symm⟩, Option.bind_some, ht,
          ih hrec hstart hend, and_iff_right hsame]
      · rw [if_neg, Option.bind_none]
        · simp [hsame]
        · rintro ⟨h₁, h₂⟩
          exact hsame ⟨(h₁.resolve_left hstart).symm, (h₂.resolve_left hend).symm⟩

/-- **The mappings of a run.**  If no mapping begins or ends at address 0, no assertion fails if and
only if all mappings elsewhere have the same range.  That is then the second mapping, and the first
one ends where the last call at its address ended it. -/
theorem mapAll_iff (hrec : t.recording = true) (hdup : t.pmAddrStartDup = 0 ∧ t.pmAddrEndDup = 0)
    (hne : ∀ m ∈ elsewhere t.pmAddrStart ms, m.range.1 ≠ 0 ∧ m.range.2 ≠ 0) :
    mapAll t ms = some t' ↔
      (∀ m ∈ elsewhere t.pmAddrStart ms, m.range = secondRange t.pmAddrStart ms) ∧
        t' = { t with
          pmAddrEnd := firstEnd t.pmAddrStart t.pmAddrEnd ms
          pmAddrStartDup := (secondRange t.pmAddrStart ms).1
          pmAddrEndDup := (secondRange t.pmAddrStart ms).2 } := by
  induction ms generalizing t with
  | nil =>
    obtain ⟨⟨start, fin, startDup, endDup⟩, recording, replayMode, noAllocBr, record⟩ := t
    obtain ⟨rfl, rfl⟩ := hdup
    rw [mapAll, List.foldlM_nil, elsewhere, List.filter_nil, eq_comm]
    simp [firstEnd, secondRange, elsewhere]
  | cons m ms ih =>
    rw [elsewhere_cons] at hne
    rw [mapAll_cons, secondRange, elsewhere_cons, firstEnd_cons]
    rcases m.cases t.pmAddrStart with ⟨hfail, hnot, hnot'⟩ | ⟨hfirst, hnot⟩ | ⟨helse, hnot⟩
    · rw [if_neg hnot', List.nil_append] at hne
      rw [recordMmap_failed hrec hfail, Option.bind_some, ih hrec hdup hne, if_neg hnot,
        if_neg hnot', List.nil_append]
      rfl
    · rw [if_neg hnot, List.nil_append] at hne
      rw [recordMmap_first hrec hfirst, Option.bind_some, if_pos hfirst, if_neg hnot,
        List.nil_append]
      exact ih (t := { t with pmAddrEnd := m.range.2 }) hrec hdup hne
    · rw [if_pos helse, List.singleton_append, List.forall_mem_cons] at hne
      rw [recordMmap_elsewhere hrec helse, if_pos helse, if_neg hnot, List.singleton_append,
        if_pos ⟨Or.inl hdup.1, Or.inl hdup.2⟩, Option.bind_some, List.forall_mem_cons,
        List.head?_cons, Option.map_some, Option.getD_some, and_iff_right rfl]
      exact mapAll_mapped_iff
        (t := { t with pmAddrStartDup := m.range.1, pmAddrEndDup := m.range.2 })
        hrec hne.1.1 hne.1.2

/-- A mapping at the hint, of the two pages that are mapped elsewhere as well. -/
theorem mapAll_iff_twice :
    (mapAll ⟨⟨0x1000, 0, 0, 0⟩, true, false, false, OStream.fresh⟩
        [⟨1, 0x1000, 0x2000⟩, ⟨2, 0x8000, 0x2000⟩, ⟨2, 0x8000, 0x2000⟩]).map Tracer.toPmRange =
      some ⟨0x1000, 0x3000, 0x8000, 0xA000⟩ := by
  rw [(mapAll_iff (t := ⟨⟨0x1000, 0, 0, 0⟩, true, false, false, OStream.fresh⟩) rfl ⟨rfl, rfl⟩
    (by decide)).2 ⟨by decide, rfl⟩]
  rfl

end Durinn
