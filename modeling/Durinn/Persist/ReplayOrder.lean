import Durinn.Persist.Cache

/-!
# The order in which the flat cache writes stores back

`GDBChecker.gen_crash_img` replays the operations of a multi-thread trace through a
`ReplayCache`.  `TraceMT` does not split stores at cacheline boundaries, so a
flush of one cacheline marks, and the next fence writes back, a store that also
covers bytes of another cacheline, whatever other stores to that line are still
waiting.  This file says exactly what follows from that.

* `replayed_eq_iff` — replaying a list of operations and then writing back what is left
  is the same as applying the stores in order if and only if no byte is *stale*:
  `NoStaleByte` compares, byte by byte, the store that is written back last with the
  store that comes last.
* `legal_of_linesInOrder` — as long as the stores touching a common line are flushed
  and fenced in order (`LinesInOrder`), every image on the way is a legal crash
  state: each line holds a prefix of the stores touching it, and that prefix
  contains every store that was flushed with its line and then fenced.

Two stores and a flush of the second one's other line are enough to break both
(`replay_stale_overwrite`, `replay_illegal_image`).
-/

namespace Durinn

open MarkBuffer

/-! ## Operations and events -/

/-- The number of fences after the first flush that reaches `s`. -/
def fencesAfterFlush (s : Store) : List Op → Nat
  | [] => 0
  | op :: v => if op.flushes s then v.countP Op.isFence else fencesAfterFlush s v

theorem hasDrain_events (v : List Op) : hasDrain (events v) = true ↔ ∃ b, Op.fence b ∈ v := by
  induction v with
  | nil => simp [hasDrain]
  | cons op v ih =>
    rw [events_cons]
    cases op <;> simp [Op.event, hasDrain, ih]

theorem drains_events (v : List Op) : drains (events v) = v.countP Op.isFence := by
  induction v with
  | nil => rfl
  | cons op v ih =>
    rw [events_cons]
    cases op <;> simp [Op.event, drains, ih, Op.isFence, List.countP_cons]

theorem drainLag_events (s : Store) (v : List Op) :
    drainLag s (events v) = fencesAfterFlush s v := by
  induction v with
  | nil => rfl
  | cons op v ih =>
    rw [events_cons, fencesAfterFlush]
    cases op with
    | flush f =>
      by_cases hf : f.isInFlush s = true <;>
        simp [Op.event, drainLag, ih, Op.flushes, drains_events, hf]
    | _ => simp [Op.event, drainLag, ih, Op.flushes]

theorem marked_events (s : Store) (v : List Op) :
    marked s (events v) = true ↔ ∃ f, Op.flush f ∈ v ∧ f.isInFlush s = true := by
  induction v with
  | nil => simp [marked]
  | cons op v ih =>
    rw [events_cons]
    cases op with
    | flush f => simp [Op.event, marked, ih, or_and_right, exists_or]
    | _ => simp [Op.event, marked, ih]

theorem gone_events (s : Store) (v : List Op) : gone s (events v) = true ↔ PersistedIn s v := by
  induction v with
  | nil => simp [gone, PersistedIn, FlushedAndFenced]
  | cons op v ih =>
    rw [events_cons, PersistedIn, flushedAndFenced_cons, ← PersistedIn, ← ih]
    cases op with
    | flush f => simp [Op.event, gone, hasDrain_events]
    | _ => simp [Op.event, gone]

theorem event_eq_put {op : Op} {s : Store} : op.event = .put s ↔ op = .store s := by
  cases op <;> simp [Op.event]

theorem events_eq_append_put {s : Store} {u' w : List (Event Store)} {ops : List Op}
    (h : events ops = u' ++ .put s :: w) :
    ∃ u v, ops = u ++ .store s :: v ∧ u' = events u ∧ w = events v :=
  map_eq_append_put (fun _ _ => event_eq_put) h

theorem mem_arrivals_events {s : Store} {w : List (Event Store)} {ops : List Op} :
    (s, w) ∈ arrivals (events ops) ↔ ∃ u v, ops = u ++ .store s :: v ∧ w = events v :=
  mem_arrivals_map fun _ _ => event_eq_put

theorem arrivals_events_store (s : Store) (v : List Op) :
    arrivals (events (.store s :: v)) = (s, events v) :: arrivals (events v) := rfl

theorem arrivals_events_fst (ops : List Op) :
    (arrivals (events ops)).map Prod.fst = storesOf ops := by
  induction ops with
  | nil => rfl
  | cons op ops ih =>
    rw [events_cons]
    cases op <;> simpa [Op.event, arrivals, storesOf, Op.store?, List.filterMap_cons] using ih

namespace ReplayCache

theorem written_append_unwritten (ops : List Op) :
    written ops ++ unwritten ops = byLag (events ops) :=
  drained_append_pending_run events_ne_drainAll

theorem mem_written_append_unwritten {ops : List Op} {s : Store}
    (h : s ∈ written ops ++ unwritten ops) : s ∈ storesOf ops := by
  rw [written_append_unwritten, byLag, List.mem_flatMap] at h
  obtain ⟨k, -, hk⟩ := h
  obtain ⟨x, hx, rfl⟩ := List.mem_map.1 hk
  rw [← arrivals_events_fst]
  exact List.mem_map_of_mem (List.mem_of_mem_filter hx)

/-- A store is written back once it was flushed and fenced. -/
theorem mem_written {ops : List Op} {s : Store} :
    s ∈ written ops ↔ ∃ u v, ops = u ++ .store s :: v ∧ PersistedIn s v := by
  rw [written, mem_drained_run]
  constructor
  · rintro ⟨w, hw, hg⟩
    obtain ⟨u, v, hops, rfl⟩ := mem_arrivals_events.1 hw
    exact ⟨u, v, hops, (gone_events s v).1 hg⟩
  · rintro ⟨u, v, hops, hv⟩
    exact ⟨events v, mem_arrivals_events.2 ⟨u, v, hops, rfl⟩, (gone_events s v).2 hv⟩

end ReplayCache

/-! ## Stale overwrites -/

/-- The image after replaying `ops` on `file` and writing back what is left, as
`gen_crash_img` does with the operations of the main thread. -/
def replayed (file : BinaryFile) (ops : List Op) : Option BinaryFile := do
  let c ← (ReplayCache.new file).acceptOps ops
  let c ← c.writeBackAllStores
  return c.binaryFile

/-- Of the stores covering the byte `a`, this `s` is written back last: no earlier one
has fewer fences after its first flush, and every later one has more. -/
structure WrittenLastAt (ops : List Op) (a : Nat) (u : List Op) (s : Store) (v : List Op) :
    Prop where
  split : ops = u ++ .store s :: v
  covers : s.covers a = true
  earlier : ∀ u' r v', u = u' ++ .store r :: v' → r.covers a = true →
    fencesAfterFlush s v ≤ fencesAfterFlush r (v' ++ .store s :: v)
  later : ∀ u' r v', v = u' ++ .store r :: v' → r.covers a = true →
    fencesAfterFlush s v < fencesAfterFlush r v'

/-- Of the stores covering the byte `a`, this `s` comes last. -/
structure StoredLastAt (ops : List Op) (a : Nat) (u : List Op) (s : Store) (v : List Op) :
    Prop where
  split : ops = u ++ .store s :: v
  covers : s.covers a = true
  later : ∀ r ∈ storesOf v, r.covers a = false

/-- At every byte, the store that is written back last writes the same value as the
store that comes last. -/
def NoStaleByte (ops : List Op) : Prop :=
  ∀ a u s v u' s' v', WrittenLastAt ops a u s v → StoredLastAt ops a u' s' v' →
    s.bytes a = s'.bytes a

theorem WrittenLastAt.getLast? {ops : List Op} {a : Nat} {u : List Op} {s : Store} {v : List Op}
    (h : WrittenLastAt ops a u s v) :
    ((byLag (events ops)).filter fun s => s.covers a).getLast? = some s := by
  have hsplit : arrivals (events ops) =
      ((arrivals (events u)).map fun x => (x.1, x.2 ++ events (.store s :: v))) ++
        (s, events v) :: arrivals (events v) := by
    rw [h.split, events_append, arrivals_append]
    rfl
  refine getLast?_byLag_filter hsplit h.covers ?_ ?_
  · intro x hx hcov
    obtain ⟨⟨r, w⟩, hy, rfl⟩ := List.mem_map.1 hx
    obtain ⟨u', v', hu, rfl⟩ := mem_arrivals_events.1 hy
    simp only [← events_append, drainLag_events]
    exact h.earlier u' r v' hu hcov
  · rintro ⟨r, w⟩ hx hcov
    obtain ⟨u', v', hv, rfl⟩ := mem_arrivals_events.1 hx
    simp only [drainLag_events]
    exact h.later u' r v' hv hcov

theorem StoredLastAt.getLast? {ops : List Op} {a : Nat} {u : List Op} {s : Store} {v : List Op}
    (h : StoredLastAt ops a u s v) :
    ((storesOf ops).filter fun s => s.covers a).getLast? = some s := by
  have hv : (storesOf v).filter (fun s => s.covers a) = [] :=
    List.filter_eq_nil_iff.2 fun r hr => by simp [h.later r hr]
  have hs : storesOf (.store s :: v) = s :: storesOf v := rfl
  rw [h.split, storesOf_append, hs, List.filter_append]
  simp [h.covers, hv]

/-- A byte that some store covers has a store that is written back last … -/
theorem exists_writtenLastAt {ops : List Op} {a : Nat}
    (h : ∃ s ∈ storesOf ops, s.covers a = true) : ∃ u s v, WrittenLastAt ops a u s v := by
  obtain ⟨s₀, hs₀, hcov₀⟩ := h
  rw [← arrivals_events_fst] at hs₀
  obtain ⟨x₀, hx₀, rfl⟩ := List.mem_map.1 hs₀
  obtain ⟨l₁, ⟨s, w⟩, l₂, hsplit, hcov, h₁, h₂⟩ :=
    exists_last_min (T := fun x => x.1.covers a = true) (fun x => drainLag x.1 x.2)
      ⟨x₀, hx₀, hcov₀⟩
  obtain ⟨u', hops, rfl, rfl⟩ := arrivals_eq_append_cons hsplit
  obtain ⟨u, v, rfl, rfl, rfl⟩ := events_eq_append_put hops
  refine ⟨u, s, v, rfl, hcov, ?_, ?_⟩
  · rintro u' r v' rfl hr
    have hx : (r, events v') ∈ arrivals (events (u' ++ .store r :: v')) :=
      mem_arrivals_events.2 ⟨u', v', rfl, rfl⟩
    have := h₁ (r, events v' ++ .put s :: events v) (List.mem_map.2 ⟨_, hx, rfl⟩) hr
    rwa [show events v' ++ Event.put s :: events v = events (v' ++ .store s :: v) by
      simp [events, Op.event], drainLag_events, drainLag_events] at this
  · rintro u' r v' rfl hr
    have hx : (r, events v') ∈ arrivals (events (u' ++ .store r :: v')) :=
      mem_arrivals_events.2 ⟨u', v', rfl, rfl⟩
    have := h₂ (r, events v') hx hr
    rwa [drainLag_events, drainLag_events] at this

/-- … and one that comes last. -/
theorem exists_storedLastAt {ops : List Op} {a : Nat}
    (h : ∃ s ∈ storesOf ops, s.covers a = true) : ∃ u s v, StoredLastAt ops a u s v := by
  induction ops with
  | nil => simp at h
  | cons op ops ih =>
    by_cases hlater : ∃ s ∈ storesOf ops, s.covers a = true
    · obtain ⟨u, s, v, hs⟩ := ih hlater
      exact ⟨op :: u, s, v, by rw [hs.split]; rfl, hs.covers, hs.later⟩
    · obtain ⟨s, hs, hcov⟩ := h
      have hop : op = .store s := by
        rcases List.mem_cons.1 (mem_storesOf.1 hs) with hop | hop
        · exact hop.symm
        · exact absurd ⟨s, mem_storesOf.2 hop, hcov⟩ hlater
      refine ⟨[], s, ops, by rw [hop]; rfl, hcov, fun r hr => ?_⟩
      cases hr' : r.covers a
      · rfl
      · exact absurd ⟨r, hr, hr'⟩ hlater

/-- **When replaying loses no update.**  Replaying a list of operations and writing back
what is left gives the image with all stores applied in order if and only if no
byte is stale. -/
theorem replayed_eq_iff (file : BinaryFile) (ops : List Op)
    (hin : ∀ s ∈ storesOf ops, file.InFile s) :
    replayed file ops = doStores file (storesOf ops) ↔ NoStaleByte ops := by
  have hinW : ∀ s ∈ ReplayCache.written ops ++ ReplayCache.unwritten ops, file.InFile s :=
    fun s hs => hin s (ReplayCache.mem_written_append_unwritten hs)
  obtain ⟨f₁, h₁, hb₁, -, -⟩ := BinaryFile.doStores_spec hinW
  obtain ⟨f₂, h₂, hb₂, -, -⟩ := BinaryFile.doStores_spec hin
  have hrep : replayed file ops = some f₁ := by
    have := ReplayCache.acceptOps_writeBackAllStores file ops
    rw [h₁] at this
    simp only [replayed, Option.bind_eq_bind, ← Option.bind_assoc, this]
    rfl
  -- what both images hold at a byte
  have hc₁ := fun a => BinaryFile.contents_doStores hinW h₁ a
  have hc₂ := fun a => BinaryFile.contents_doStores hin h₂ a
  simp only [ReplayCache.written_append_unwritten] at hc₁
  rw [hrep, h₂, Option.some.injEq]
  constructor
  · intro heq a u s v u' s' v' hw hl
    have hs : s ∈ storesOf ops := mem_storesOf.2 (by rw [hw.split]; simp)
    have hs' : s' ∈ storesOf ops := mem_storesOf.2 (by rw [hl.split]; simp)
    obtain ⟨b, hb⟩ := Option.isSome_iff_exists.1
      (((hin s hs).isSome_bytes a).trans hw.covers)
    obtain ⟨b', hb'⟩ := Option.isSome_iff_exists.1
      (((hin s' hs').isSome_bytes a).trans hl.covers)
    have h1 := hc₁ a
    rw [heq, hc₂ a, hw.getLast?, hl.getLast?, Option.bind_some, Option.bind_some, hb, hb',
      Option.some_or, Option.some_or] at h1
    rw [hb, hb', h1]
  · intro hno
    refine BinaryFile.eq_of_contents (hb₁.trans hb₂.symm) (funext fun a => ?_)
    by_cases hcov : ∃ s ∈ storesOf ops, s.covers a = true
    · obtain ⟨u, s, v, hw⟩ := exists_writtenLastAt hcov
      obtain ⟨u', s', v', hl⟩ := exists_storedLastAt hcov
      rw [hc₁ a, hc₂ a, hw.getLast?, hl.getLast?, Option.bind_some, Option.bind_some,
        hno a u s v u' s' v' hw hl]
    · have hnil : ∀ ss : List Store, (∀ s ∈ ss, s ∈ storesOf ops) →
          ss.filter (fun s => s.covers a) = [] := fun ss hss =>
        List.filter_eq_nil_iff.2 fun s hs hsa => hcov ⟨s, hss s hs, hsa⟩
      rw [hc₁ a, hc₂ a, hnil _ fun s hs => hs, hnil (byLag (events ops)) fun s hs =>
        ReplayCache.mem_written_append_unwritten (by
          rwa [ReplayCache.written_append_unwritten])]

/-! ### A stale overwrite -/

/-- Two empty cachelines. -/
def twoLines : BinaryFile := ⟨0, List.replicate 128 0⟩

/-- A store to the first line, a store across both lines that overwrites half of it, and
a flush of the second line followed by a fence. -/
def straddlingOps : List Op :=
  [.store ⟨⟨0, 1, ['1']⟩, 59, 2, [1, 1], 0⟩,
    .store ⟨⟨1, 1, ['2']⟩, 60, 8, [2, 2, 2, 2, 2, 2, 2, 2], 0⟩,
    .flush ⟨⟨2, 1, ['3']⟩, 64⟩,
    .fence ⟨3, 1, ['4']⟩]

/-- The straddling store is written back at the fence, the one it overwrote only
afterwards: the byte at address 60 ends up with the old value. -/
theorem replay_stale_overwrite :
    (∀ s ∈ storesOf straddlingOps, twoLines.InFile s ∧ 1 ≤ s.size) ∧
      replayed twoLines straddlingOps ≠ doStores twoLines (storesOf straddlingOps) := by
  decide +kernel

theorem replayed_eq_iff_straddling :
    (∀ s ∈ storesOf straddlingOps, twoLines.InFile s) ∧ ¬ NoStaleByte straddlingOps := by
  have hin : ∀ s ∈ storesOf straddlingOps, twoLines.InFile s := by decide +kernel
  refine ⟨hin, fun h => ?_⟩
  have heq := (replayed_eq_iff twoLines straddlingOps hin).2 h
  exact absurd heq (by decide +kernel)

/-! ## Legal crash states -/

/-- The line holds, in `image`, what it held in `file` with some prefix of the stores
touching it applied (those before the end of `cut`), and that prefix contains
every store touching the line that is followed by a flush of the line and a fence. -/
def LegalLine (file : BinaryFile) (ops : List Op) (image : BinaryFile) (line : Nat) : Prop :=
  ∃ cut lineImage, cut <+: ops ∧
    doStores file ((storesOf cut).filter fun s => s.touches line) = some lineImage ∧
    (∀ a, line ≤ a → a < line + cachelineBytes → image.contents a = lineImage.contents a) ∧
    ∀ u s v, ops = u ++ .store s :: v → s.touches line = true → LineFlushedIn line v →
      u ++ [.store s] <+: cut

/-- Of two stores touching a common line, the later one is never flushed and fenced
while the earlier one is not. -/
def LinesInOrder (ops : List Op) : Prop :=
  ∀ line u s v r w z, cachelineBytes ∣ line →
    ops = u ++ .store s :: (v ++ .store r :: (w ++ z)) →
    s.touches line = true → r.touches line = true →
    PersistedIn r w → PersistedIn s (v ++ .store r :: w)

theorem LinesInOrder.of_append {ops w : List Op} (h : LinesInOrder (ops ++ w)) :
    LinesInOrder ops := by
  rintro line u s v r w' z hl rfl hs hr hp
  exact h line u s v r w' (z ++ w) hl (by simp) hs hr hp

/-- A relation between two stores of a list of operations, each with what follows it. -/
theorem pairwise_arrivals_events
    {R : Store × List (Event Store) → Store × List (Event Store) → Prop} {ops : List Op}
    (h : ∀ u s v r w, ops = u ++ .store s :: (v ++ .store r :: w) →
      R (s, events (v ++ .store r :: w)) (r, events w)) :
    (arrivals (events ops)).Pairwise R := by
  induction ops with
  | nil => exact List.Pairwise.nil
  | cons op ops ih =>
    have ih := ih fun u s v r w hops => h (op :: u) s v r w (by rw [hops]; rfl)
    cases op with
    | store s =>
      refine List.pairwise_cons.2 ⟨?_, ih⟩
      rintro ⟨r, w'⟩ hr
      obtain ⟨v, w, rfl, rfl⟩ := mem_arrivals_events.1 hr
      exact h [] s v r w rfl
    | _ => exact ih

/-- Stores touching a line that are flushed and fenced in order leave the buffer in
order. -/
theorem LinesInOrder.inOrder {ops : List Op} (h : LinesInOrder ops) {line : Nat}
    (hl : cachelineBytes ∣ line) : InOrder (fun s => s.touches line) (events ops) := by
  intro pre hpre
  obtain ⟨z, hz⟩ := hpre
  obtain ⟨ops', z', rfl, rfl, -⟩ := List.map_eq_append_iff.1 hz.symm
  refine pairwise_arrivals_events ?_
  rintro u s v r w rfl hs hr hg
  exact (gone_events s _).2 (h line u s v r w z' hl (by simp) hs hr ((gone_events r w).1 hg))

/-- The operations before the first store of the class `T` that is still in the cache. -/
def cutBefore (T : Store → Bool) : List Op → List Op
  | [] => []
  | .store s :: v => if T s && !gone s (events v) then [] else .store s :: cutBefore T v
  | op :: v => op :: cutBefore T v

theorem cutBefore_prefix (T : Store → Bool) (ops : List Op) : cutBefore T ops <+: ops := by
  induction ops with
  | nil => exact List.prefix_rfl
  | cons op ops ih =>
    cases op with
    | store s =>
      rw [cutBefore]
      split
      · exact List.nil_prefix
      · exact List.cons_prefix_cons.2 ⟨rfl, ih⟩
    | _ => exact List.cons_prefix_cons.2 ⟨rfl, ih⟩

section Cut

variable {T : Store → Bool} {ops : List Op}

/-- Where the class keeps its order, the stores before the cut are those written back. -/
theorem storesOf_cutBefore
    (h : (arrivals (events ops)).Pairwise fun x y =>
      T x.1 = true → T y.1 = true → gone y.1 y.2 = true → gone x.1 x.2 = true) :
    (storesOf (cutBefore T ops)).filter T =
      ((arrivals (events ops)).filter fun x => T x.1 && gone x.1 x.2).map Prod.fst := by
  induction ops with
  | nil => rfl
  | cons op ops ih =>
    cases op with
    | store s =>
      rw [arrivals_events_store] at h ⊢
      obtain ⟨hs, htail⟩ := List.pairwise_cons.1 h
      have ih := ih htail
      rw [cutBefore]
      split
      · rename_i hcut
        simp only [Bool.and_eq_true, Bool.not_eq_true'] at hcut
        have hnone : (arrivals (events ops)).filter (fun x => T x.1 && gone x.1 x.2) = [] := by
          refine List.filter_eq_nil_iff.2 fun x hx hTg => ?_
          rw [Bool.and_eq_true] at hTg
          exact absurd (hs x hx hcut.1 hTg.1 hTg.2) (by simp [hcut.2])
        rw [List.filter_cons_of_neg (by simp [hcut.2]), hnone]
        rfl
      · rename_i hcut
        have hst : storesOf (.store s :: cutBefore T ops) = s :: storesOf (cutBefore T ops) := rfl
        rw [hst]
        cases hT : T s
        · rw [List.filter_cons_of_neg (by simp [hT]), List.filter_cons_of_neg (by simp [hT]), ih]
        · have hg : gone s (events ops) = true := by simpa [hT] using hcut
          rw [List.filter_cons_of_pos hT, List.filter_cons_of_pos (by simp [hT, hg]), ih]
          rfl
    | _ => exact ih h

/-- Where the class keeps its order, every store of the class that was written back lies
before the cut. -/
theorem append_prefix_cutBefore
    (h : (arrivals (events ops)).Pairwise fun x y =>
      T x.1 = true → T y.1 = true → gone y.1 y.2 = true → gone x.1 x.2 = true)
    {u v : List Op} {s : Store} (hsplit : ops = u ++ .store s :: v) (hT : T s = true)
    (hg : gone s (events v) = true) : u ++ [.store s] <+: cutBefore T ops := by
  induction u generalizing ops with
  | nil =>
    subst hsplit
    rw [List.nil_append, List.nil_append, cutBefore, if_neg (by simp [hg])]
    exact List.cons_prefix_cons.2 ⟨rfl, List.nil_prefix⟩
  | cons op u ih =>
    subst hsplit
    cases op with
    | store r =>
      rw [List.cons_append, arrivals_events_store] at h
      obtain ⟨hr, htail⟩ := List.pairwise_cons.1 h
      have hmem : (s, events v) ∈ arrivals (events (u ++ .store s :: v)) :=
        mem_arrivals_events.2 ⟨u, v, rfl, rfl⟩
      have hkeep : ¬ (T r && !gone r (events (u ++ .store s :: v))) = true := by
        intro hc
        rw [Bool.and_eq_true, Bool.not_eq_true'] at hc
        exact absurd (hr _ hmem hc.1 hT hg) (by simp only [hc.2, Bool.false_eq_true, not_false_iff])
      rw [List.cons_append, List.cons_append, cutBefore, if_neg hkeep]
      exact List.cons_prefix_cons.2 ⟨rfl, ih htail rfl⟩
    | _ => exact List.cons_prefix_cons.2 ⟨rfl, ih h rfl⟩

end Cut

theorem PersistedIn.of_lineFlushedIn {line : Nat} {v : List Op} {s : Store}
    (h : LineFlushedIn line v) (hs : s.touches line = true) : PersistedIn s v := by
  obtain ⟨v₁, f, v₂, hv, rfl, hb⟩ := h
  exact ⟨v₁, f, v₂, hv, (f.isInFlush_store s).trans hs, hb⟩

/-- **When the replayed image is a legal crash state.**  If stores touching a common line
are flushed and fenced in order, then after every prefix of the operations every
line of the image holds a prefix of the stores touching it, and that prefix contains
every store followed by a flush of the line and a fence. -/
theorem legal_of_linesInOrder (file : BinaryFile) (ops : List Op)
    (hin : ∀ s ∈ storesOf ops, file.InFile s) (hord : LinesInOrder ops) :
    ∀ pre, pre <+: ops → ∃ c, (ReplayCache.new file).acceptOps pre = some c ∧
      ∀ line, cachelineBytes ∣ line → LegalLine file pre c.binaryFile line := by
  rintro pre ⟨rest, rfl⟩
  have hin' : ∀ s ∈ storesOf pre, file.InFile s := fun s hs => hin s (by simp [hs])
  have hinW : ∀ s ∈ ReplayCache.written pre, file.InFile s := fun s hs =>
    hin' s (ReplayCache.mem_written_append_unwritten (List.mem_append_left _ hs))
  obtain ⟨image, himage, -⟩ := BinaryFile.doStores_spec hinW
  refine ⟨⟨Cache.ofBuffer (Buffer.empty.run (events pre)), image⟩, ?_, ?_⟩
  · rw [ReplayCache.acceptOps_eq (ReplayCache.refines_new file) pre, ← ReplayCache.written,
      himage]
    rfl
  intro line hl
  have hio := hord.of_append.inOrder hl
  have hpw := hio (events pre) List.prefix_rfl
  have hinC : ∀ s ∈ (storesOf (cutBefore (fun s => s.touches line) pre)).filter
      (fun s => s.touches line), file.InFile s := by
    intro s hs
    obtain ⟨w, hw⟩ := cutBefore_prefix (fun s => s.touches line) pre
    exact hin' s (by rw [← hw, storesOf_append]; simp [List.mem_of_mem_filter hs])
  obtain ⟨lineImage, hlineImage, -⟩ := BinaryFile.doStores_spec hinC
  refine ⟨cutBefore (fun s => s.touches line) pre, lineImage, cutBefore_prefix _ pre,
    hlineImage, ?_, ?_⟩
  · intro a h₁ h₂
    -- only the stores touching the line matter to its bytes
    have hcov : ∀ ss : List Store, ss.filter (fun s => s.covers a) =
        (ss.filter fun s => s.touches line).filter fun s => s.covers a := by
      intro ss
      rw [List.filter_filter]
      refine List.filter_congr fun s _ => ?_
      cases hs : s.covers a
      · rfl
      · simp [Store.touches_of_covers hs h₁ h₂]
    rw [BinaryFile.contents_doStores hinW himage a,
      BinaryFile.contents_doStores hinC hlineImage a, hcov, ReplayCache.written,
      drained_filter_of_inOrder hio, storesOf_cutBefore hpw]
  · intro u s v hsplit hs hflush
    exact append_prefix_cutBefore hpw hsplit hs
      ((gone_events s v).2 (PersistedIn.of_lineFlushedIn hflush hs))

/-- Stores that each lie inside one cacheline are always flushed and fenced in order. -/
theorem linesInOrder_of_inLine {ops : List Op}
    (h : ∀ s ∈ storesOf ops, s.InLine ∧ 1 ≤ s.size) : LinesInOrder ops := by
  rintro line u s v r w z hl rfl hs hr ⟨w₁, f, w₂, rfl, hf, hb⟩
  obtain ⟨hs₁, hs₂⟩ := h s (mem_storesOf.2 (by simp))
  obtain ⟨hr₁, hr₂⟩ := h r (mem_storesOf.2 (by simp))
  rw [Store.touches_iff_of_inLine hs₁ hs₂ hl] at hs
  rw [Store.touches_iff_of_inLine hr₁ hr₂ hl] at hr
  rw [f.isInFlush_iff_of_inLine hr₁ hr₂, ← hr, hs] at hf
  exact ⟨v ++ .store r :: w₁, f, w₂, by simp, (f.isInFlush_iff_of_inLine hs₁ hs₂).2 hf, hb⟩

/-- Two stores to the first line, one of them before the flush of that line. -/
def oneLineOps : List Op :=
  [.store ⟨⟨0, 1, ['1']⟩, 0, 8, [1, 1, 1, 1, 1, 1, 1, 1], 0⟩,
    .flush ⟨⟨1, 1, ['2']⟩, 8⟩,
    .store ⟨⟨2, 1, ['3']⟩, 4, 8, [2, 2, 2, 2, 2, 2, 2, 2], 0⟩,
    .fence ⟨3, 1, ['4']⟩]

example : LinesInOrder oneLineOps := linesInOrder_of_inLine (by decide +kernel)

/-- The stores of `straddlingOps` the other way round: the one across both lines comes first. -/
def straddlingFirst : List Op :=
  [.store ⟨⟨0, 1, ['1']⟩, 60, 8, [2, 2, 2, 2, 2, 2, 2, 2], 0⟩,
    .store ⟨⟨1, 1, ['2']⟩, 59, 2, [1, 1], 0⟩,
    .flush ⟨⟨2, 1, ['3']⟩, 64⟩,
    .fence ⟨3, 1, ['4']⟩]

theorem linesInOrder_straddlingFirst : LinesInOrder straddlingFirst := by
  rintro line u s v r w z - hops - - ⟨w₁, f, w₂, rfl, hf, -⟩
  -- the later store is the short one, which the flush does not reach
  have hr : Op.store r ∈ straddlingFirst.drop 1 := by
    rw [hops]
    cases u <;> simp
  have hflush : Op.flush f ∈ straddlingFirst := by
    rw [hops]
    simp
  simp only [straddlingFirst, List.drop_succ_cons, List.drop_zero, List.mem_cons, Op.store.injEq,
    Op.flush.injEq, reduceCtorEq, List.not_mem_nil, or_false, false_or] at hr hflush
  rw [hr, hflush] at hf
  exact absurd hf (by decide)

theorem legal_of_linesInOrder_straddlingFirst :
    (∃ s ∈ storesOf straddlingFirst, ¬s.InLine) ∧
      ∃ c, (ReplayCache.new twoLines).acceptOps straddlingFirst = some c ∧
        ∀ line, cachelineBytes ∣ line → LegalLine twoLines straddlingFirst c.binaryFile line :=
  ⟨by decide +kernel, legal_of_linesInOrder twoLines straddlingFirst (by decide +kernel)
    linesInOrder_straddlingFirst straddlingFirst List.prefix_rfl⟩

/-- After the straddling store was written back through its second line, the first line
holds that store but not the one before it: no prefix of the two. -/
theorem replay_illegal_image :
    (∀ s ∈ storesOf straddlingOps, twoLines.InFile s ∧ 1 ≤ s.size) ∧
      ∃ c, (ReplayCache.new twoLines).acceptOps straddlingOps = some c ∧
        ¬ LegalLine twoLines straddlingOps c.binaryFile 0 := by
  refine ⟨by decide +kernel, ?_⟩
  cases hrun : (ReplayCache.new twoLines).acceptOps straddlingOps with
  | none => exact absurd hrun (by decide +kernel)
  | some c =>
    refine ⟨c, rfl, ?_⟩
    rintro ⟨cut, lineImage, hcut, hdo, hbytes, -⟩
    -- the image differs from every prefix at address 59 or at address 60
    have hdiff : ∀ n < 5, ∃ a ∈ [59, 60],
        ((ReplayCache.new twoLines).acceptOps straddlingOps).map (·.binaryFile.contents a) ≠
          (doStores twoLines ((storesOf (straddlingOps.take n)).filter
            fun s => s.touches 0)).map (·.contents a) := by decide +kernel
    have hlen : cut.length < 5 := Nat.lt_succ_of_le (hcut.length_le.trans (by decide))
    obtain ⟨a, ha, hne⟩ := hdiff cut.length hlen
    rw [← List.prefix_iff_eq_take.1 hcut, hdo, hrun] at hne
    refine hne (congrArg some (hbytes a (Nat.zero_le a) ?_))
    simp only [List.mem_cons, List.not_mem_nil, or_false] at ha
    rcases ha with rfl | rfl <;> decide

end Durinn
