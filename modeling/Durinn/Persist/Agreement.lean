import Durinn.Persist.ReplayOrder
import Durinn.Persist.WitcherCache

/-!
# The two cache models agree

`ReplayCache` keeps one list and lets a flush mark whatever it overlaps; `WitcherCache`
keeps a list for every cacheline, and a flush marks the list of its line.  Where the second
is defined, that is, where every store lies inside one cacheline, both refine the same
mark-and-drain buffer (`run_lineEvents`), so they go through the same images with the
same pending stores (`replayCache_agrees_witcherCache`).
-/

namespace Durinn

open MarkBuffer

/-- To non-empty stores inside their cachelines, overlapping a flush and being in the
line it flushes is the same. -/
theorem run_lineEvents {ops : List Op} (hops : ∀ op ∈ ops, op.isBoundary = false)
    (hstores : ∀ s ∈ storesOf ops, s.InLine ∧ 1 ≤ s.size) :
    Buffer.empty.run (lineEvents ops) = Buffer.empty.run (events ops) := by
  induction ops using List.reverseRecOn with
  | nil => rfl
  | append_singleton ops op ih =>
    have ih := ih (fun o ho => hops o (by simp [ho])) fun s hs => hstores s (by simp [hs])
    rw [lineEvents_append, events_append, events_singleton, Buffer.run_append_singleton]
    have hrun := Buffer.run_append_singleton Buffer.empty (lineEvents ops) op.lineEvent
    rw [show lineEvents [op] = [op.lineEvent] from rfl, hrun, ih]
    cases op with
    | flush f =>
      simp only [Op.lineEvent, Op.event, Buffer.step, Buffer.mk.injEq, and_true]
      refine List.map_congr_left fun e he => ?_
      have harr : e.1 ∈ storesOf ops := by
        rw [pending_run] at he
        obtain ⟨x, hx, rfl⟩ := List.mem_map.1 he
        rw [← arrivals_events_fst]
        exact List.mem_map_of_mem (List.mem_filter.1 hx).1
      obtain ⟨hline, hsize⟩ := hstores e.1 (by simp [harr])
      have hiff := f.isInFlush_iff_of_inLine hline hsize
      simp only [Bool.eq_iff_iff.2 (hiff.trans decide_eq_true_iff.symm)]
    | apiBegin o => exact absurd (hops (.apiBegin o) (by simp)) (by simp [Op.isBoundary])
    | apiEnd o => exact absurd (hops (.apiEnd o) (by simp)) (by simp [Op.isBoundary])
    | _ => rfl

namespace WitcherCache

/-- Several operations, as `LSValidator.run` feeds them. -/
def feedAll {F : Type} [DoStore F] (c : WitcherCache F) (ops : List Op) :
    Option (WitcherCache F) :=
  ops.foldlM feed c

/-- **A run of the cache**: no assertion fails, and the cache follows the buffer. -/
theorem feedAll_spec (file : BinaryFile) {ops : List Op}
    (hops : ∀ op ∈ ops, op.isBoundary = false)
    (hgood : ∀ s ∈ storesOf ops, s.InLine ∧ file.InFile s) :
    ∃ c, (new file).feedAll ops = some c ∧
      Refines file c (Buffer.empty.run (lineEvents ops)) := by
  induction ops using List.reverseRecOn with
  | nil => exact ⟨new file, rfl, refines_new file⟩
  | append_singleton ops op ih =>
    obtain ⟨c, hc, href⟩ := ih (fun o ho => hops o (by simp [ho])) fun s hs =>
      hgood s (by simp [hs])
    obtain ⟨c', hc', href'⟩ := feed_spec href (hops op (by simp)) fun s hs =>
      hgood s (mem_storesOf.2 (by simp [hs]))
    refine ⟨c', ?_, ?_⟩
    · rw [feedAll] at hc ⊢
      simp [List.foldlM_append, hc, hc']
    · simpa using href'

end WitcherCache

/-- **The two cache models agree where both are defined.**  On stores inside their
cachelines, flushes and fences, after every operation the images are the same, the
pending stores are the same, with the same flush marks, and writing everything back
gives the same image. -/
theorem replayCache_agrees_witcherCache (file : BinaryFile) (ops : List Op)
    (hops : ∀ op ∈ ops, op.isBoundary = false)
    (hstores : ∀ s ∈ storesOf ops, s.InLine ∧ 1 ≤ s.size)
    (hfile : ∀ s ∈ storesOf ops, file.InFile s) {done : List Op} (hdone : done <+: ops) :
    ∃ r w, (ReplayCache.new file).acceptOps done = some r ∧
      (WitcherCache.new file).feedAll done = some w ∧
      r.binaryFile = w.binaryFile ∧ w.cells.Perm r.ops ∧
      ∃ r' w', r.writeBackAllStores = some r' ∧ w.writeBackAllStores = some w' ∧
        r'.binaryFile = w'.binaryFile := by
  have hsub : ∀ s ∈ storesOf done, s ∈ storesOf ops :=
    fun s hs => mem_storesOf.2 (hdone.subset (mem_storesOf.1 hs))
  have hops' : ∀ op ∈ done, op.isBoundary = false := fun op ho => hops op (hdone.subset ho)
  obtain ⟨w, hw, href⟩ := WitcherCache.feedAll_spec file hops' fun s hs =>
    ⟨(hstores s (hsub s hs)).1, hfile s (hsub s hs)⟩
  rw [run_lineEvents hops' fun s hs => hstores s (hsub s hs)] at href
  have hr := ReplayCache.acceptOps_eq (ReplayCache.refines_new file) done
  rw [href.written, Option.map_some] at hr
  obtain ⟨w', hw', href'⟩ := WitcherCache.writeBackAllStores_spec href
  have hall := href'.written
  simp only [Buffer.step, doStores_append, href.written, Option.bind_some] at hall
  refine ⟨_, w, hr, hw, rfl, ?_, ⟨Cache.empty, w'.binaryFile⟩, w', ?_, hw', rfl⟩
  · refine Dict.perm_of_filter_eq (fun e => e.op.line) fun k => ?_
    rw [href.filter_cells k]
    simp only [Cache.ofBuffer, itemsAt, List.filter_map, Function.comp_def, Cell.op_ofItem]
    rfl
  · simp [ReplayCache.writeBackAllStores, hall]

theorem replayCache_agrees_witcherCache_oneLine :
    ∃ r w, (ReplayCache.new twoLines).acceptOps oneLineOps = some r ∧
      (WitcherCache.new twoLines).feedAll oneLineOps = some w ∧
      r.binaryFile = w.binaryFile ∧ w.cells.Perm r.ops ∧
      ∃ r' w', r.writeBackAllStores = some r' ∧ w.writeBackAllStores = some w' ∧
        r'.binaryFile = w'.binaryFile :=
  replayCache_agrees_witcherCache twoLines oneLineOps (by decide) (by decide +kernel)
    (by decide +kernel) List.prefix_rfl

end Durinn
