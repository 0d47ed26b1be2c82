import Durinn.Persist.ReplayOrder
import Durinn.Trace.TraceMT

/-!
# The adversarial interleaving

The model of `GDBChecker.gen_crash_img` of `trace_checker/checker/gdb_checker.py`.  The trace
of a replayed race has three parts: the main thread, the first thread up to the point where
it was stopped, and the second thread.  The main thread's stores all reach the image; of the
first thread the operations up to the roll-back point are replayed, and then those of the
second thread, through the same cache.

* `genCrashImg_segments` — what this writes, in terms of the three parts.
* `keepsOut_iff` — the stores the first thread did not fence stay out of the image, unless
  the second thread flushes and fences them, if and only if none of them was flushed
  before the roll-back point, or the second thread has no fence.  The roll-back drops the
  flushes after the last store only; the marks of earlier flushes stay in the cache,
  and the first fence of the second thread writes them back (`unfenced_store_written`).
-/

namespace Durinn

open Image

/-- `GDBChecker.gen_crash_img`, with `file` the copy of the image of the common operations:
no image is made unless there are three threads.  What is left in the cache is what the
source writes to `unpersisted_stores.txt`. -/
def genCrashImg {F : Type} [DoStore F] (t : TraceMT) (file : F) :
    Option (Option (ReplayCache F)) :=
  if t.tids.length ≠ 3 then some none
  else
    match t.opsThreadIdx with
    | [_, idx1, idx2] => do
        let cache ← (ReplayCache.new file).acceptOps (slice t.ops 0 idx1)
        let cache ← cache.writeBackAllStores
        let rb ← t.getRollBackIdx
        let cache ← cache.acceptOps (slice t.ops idx1 (rb + 1))
        let cache ← cache.acceptOps (sliceFrom t.ops idx2)
        return some cache
    | _ => none

/-! ## The three parts -/

theorem scanBack_mem {ops : List Op} {is : List Int} {i : Int}
    (h : TraceMT.scanBack ops is = some i) : i ∈ is := by
  induction is with
  | nil => cases h
  | cons j is ih =>
    unfold TraceMT.scanBack at h
    split at h
    · cases h
    · cases h
      exact List.mem_cons_self
    · cases h
      exact List.mem_cons_self
    · exact List.mem_cons_of_mem j (ih h)

/-- The roll-back point lies in the part of the first thread. -/
theorem getRollBackIdx_bounds {t : TraceMT} {idx0 idx1 idx2 rb : Int}
    (hidx : t.opsThreadIdx = [idx0, idx1, idx2]) (h : t.getRollBackIdx = some rb) :
    idx1 < rb ∧ rb < idx2 := by
  unfold TraceMT.getRollBackIdx at h
  rw [hidx] at h
  have hmem := scanBack_mem h
  simp only [List.mem_map, List.mem_range] at hmem
  obtain ⟨k, hk, rfl⟩ := hmem
  omega

/-- The operations of the first thread that are replayed. -/
def rolledBack (main t1 : List Op) (rb : Int) : List Op := t1.take ((rb + 1).toNat - main.length)

/-- **What is written to the image**: the stores of the main thread, and then those that a
replay of the rolled-back first thread followed by the second one writes. -/
theorem genCrashImg_segments {F : Type} [DoStore F] {t : TraceMT} {main t1 t2 : List Op} {rb : Int}
    (hseg : Segments t.ops main t1 t2) (hstarts : (t.tids, t.opsThreadIdx) = threadStarts t.ops)
    (hrb : t.getRollBackIdx = some rb) (file : F) :
    ∃ cells, genCrashImg t file =
      (doStores file (ReplayCache.written main ++ ReplayCache.unwritten main ++
        ReplayCache.written (rolledBack main t1 rb ++ t2))).map fun f => some ⟨cells, f⟩ := by
  obtain ⟨hlen, hidx⟩ := threadStarts_segments hseg
  rw [← hstarts] at hlen hidx
  have hlen : t.tids.length = 3 := hlen
  have hidx : t.opsThreadIdx = [0, (main.length : Int), (main.length + t1.length : Nat)] := hidx
  have hb := getRollBackIdx_bounds hidx hrb
  have hs0 : slice t.ops 0 main.length = main := by
    have h := slice_append (u := []) (v := main) (w := t1 ++ t2) (i := main.length)
      (by simp) (by simp)
    rw [hseg.ops_eq]
    simpa using h
  have hs1 : slice t.ops main.length (rb + 1) = rolledBack main t1 rb := by
    rw [hseg.ops_eq]
    exact slice_append (by omega) (by push_cast at hb; omega)
  have hs2 : sliceFrom t.ops (main.length + t1.length : Nat) = t2 := by
    have h := sliceFrom_append (u := main ++ t1) (v := t2)
    rw [hseg.ops_eq]
    simpa using h
  refine ⟨Cache.ofBuffer (MarkBuffer.Buffer.empty.run (events (rolledBack main t1 rb ++ t2))), ?_⟩
  have hmain := ReplayCache.acceptOps_writeBackAllStores file main
  unfold genCrashImg
  rw [if_neg (by simp [hlen]), hidx]
  simp only [hs0, hs1, hs2, hrb, Option.bind_eq_bind, Option.bind_some, ← Option.bind_assoc, hmain]
  rw [doStores_append file (ReplayCache.written main ++ ReplayCache.unwritten main)]
  cases doStores file (ReplayCache.written main ++ ReplayCache.unwritten main) with
  | none => rfl
  | some f =>
    have hrest := ReplayCache.acceptOps_eq (ReplayCache.refines_new f) (rolledBack main t1 rb ++ t2)
    rw [ReplayCache.acceptOps_append] at hrest
    simp only [Option.map_some, Option.bind_some]
    have hnew : (⟨Cache.empty, f⟩ : ReplayCache F) = ReplayCache.new f := rfl
    rw [hnew, hrest, ← ReplayCache.written]
    cases doStores f (ReplayCache.written (rolledBack main t1 rb ++ t2)) <;> rfl

/-! ## Which stores of the first thread are written -/

/-- A store of the first thread that the first thread did not fence is written if it was
flushed before the roll-back point and the second thread has a fence, or if the second thread
flushes and fences it. -/
theorem mem_written_iff {ops main t1 t2 u v : List Op} {s : Store} {rb : Int}
    (hnodup : ops.Nodup) (hops : ops = main ++ t1 ++ t2)
    (hs : rolledBack main t1 rb = u ++ .store s :: v) (hnot : ¬ PersistedIn s v) :
    s ∈ ReplayCache.written main ++ ReplayCache.unwritten main ++
        ReplayCache.written (rolledBack main t1 rb ++ t2) ↔
      ((∃ f, Op.flush f ∈ v ∧ f.isInFlush s = true) ∧ ∃ b, Op.fence b ∈ t2) ∨
        PersistedIn s t2 := by
  obtain ⟨w, hw⟩ : ∃ w, t1 = rolledBack main t1 rb ++ w := ⟨_, (List.take_append_drop _ t1).symm⟩
  rw [hs] at hw
  have hwhole : ops = (main ++ u) ++ .store s :: (v ++ w ++ t2) := by
    rw [hops, hw]
    simp
  -- `s` is no store of the main thread
  have hmain : s ∉ ReplayCache.written main ++ ReplayCache.unwritten main := by
    intro hmem
    obtain ⟨m, m', hm⟩ := List.append_of_mem (mem_storesOf.1
      (ReplayCache.mem_written_append_unwritten hmem))
    have hother : ops = m ++ .store s :: (m' ++ t1 ++ t2) := by
      rw [hops, hm]
      simp
    have hlen := congrArg List.length (split_unique hnodup hwhole hother).1
    rw [hm] at hlen
    simp only [List.length_append, List.length_cons] at hlen
    omega
  have hreplay : s ∈ ReplayCache.written (rolledBack main t1 rb ++ t2) ↔
      PersistedIn s (v ++ t2) := by
    rw [ReplayCache.mem_written]
    constructor
    · rintro ⟨u', v', hsplit, hp⟩
      have hsub : (rolledBack main t1 rb ++ t2).Sublist ops := by
        rw [hops, List.append_assoc]
        exact ((List.take_sublist _ t1).append (List.Sublist.refl t2)).trans
          (List.sublist_append_right main _)
      have hown : rolledBack main t1 rb ++ t2 = u ++ .store s :: (v ++ t2) := by
        rw [hs]
        simp
      rw [(split_unique (hnodup.sublist hsub) hown hsplit).2]
      exact hp
    · intro hp
      exact ⟨u, v ++ t2, by rw [hs]; simp, hp⟩
  rw [List.mem_append, or_iff_right hmain, hreplay, PersistedIn, flushedAndFenced_append]
  exact or_iff_right hnot

/-- The stores that the first thread did not fence are written to the image only if the second
thread flushes and fences them. -/
def KeepsOut (rolled t2 : List Op) (written : List Store) : Prop :=
  ∀ u s v, rolled = u ++ .store s :: v → ¬ PersistedIn s v → s ∈ written → PersistedIn s t2

/-- **When the un-fenced stores stay out.**  The list of stores written to the image keeps the
un-fenced stores of the first thread out if and only if for each of them that was flushed
before the roll-back point, the second thread has no fence or flushes and fences it
itself. -/
theorem keepsOut_iff {entries : List Text} {t : TraceMT}
    (ht : TraceMT.extractOperations entries = some t) (hplain : ∀ e ∈ entries, isPlain e)
    {main t1 t2 : List Op} (hseg : Segments t.ops main t1 t2) {rb : Int}
    (hrb : t.getRollBackIdx = some rb) :
    ∃ c, genCrashImg t ([] : List Store) = some (some c) ∧
      (KeepsOut (rolledBack main t1 rb) t2 c.binaryFile ↔
        ∀ u s v, rolledBack main t1 rb = u ++ .store s :: v → ¬ PersistedIn s v →
          (∃ f, Op.flush f ∈ v ∧ f.isInFlush s = true) → (∃ b, Op.fence b ∈ t2) →
            PersistedIn s t2) := by
  obtain ⟨hids, hstarts⟩ := plain_extractOperations hplain ht
  have hnodup : t.ops.Nodup := List.Nodup.of_map Op.id (hids ▸ List.nodup_range)
  obtain ⟨cells, hrun⟩ := genCrashImg_segments hseg hstarts hrb ([] : List Store)
  rw [doStores_log, List.nil_append, Option.map_some] at hrun
  refine ⟨_, hrun, ?_⟩
  constructor
  · intro h u s v hs hnot hflush hfence
    exact h u s v hs hnot ((mem_written_iff hnodup hseg.ops_eq hs hnot).2 (Or.inl ⟨hflush, hfence⟩))
  · intro h u s v hs hnot hmem
    rcases (mem_written_iff hnodup hseg.ops_eq hs hnot).1 hmem with ⟨hflush, hfence⟩ | hp
    · exact h u s v hs hnot hflush hfence
    · exact hp

/-- The first thread stores, flushes what it stored, and stores elsewhere; the second thread
executes a fence. -/
def unfencedEntries : List Text :=
  ["APIBegin,0,1".toList, "APIBegin,1,2".toList, "Store,1,0,2,01 01,3,0".toList,
    "Flush,1,0,4".toList, "Store,1,40,2,02 02,5,0".toList, "APIBegin,2,6".toList,
    "Fence,2,7".toList]

/-- The store that the first thread flushes. -/
def unfencedStore : Store := ⟨⟨2, 1, ['3']⟩, 0, 2, [1, 1], 0⟩

/-- The operations of the first thread. -/
def unfencedThread : List Op :=
  [.apiBegin ⟨1, 1, ['2']⟩, .store unfencedStore, .flush ⟨⟨3, 1, ['4']⟩, 0⟩,
    .store ⟨⟨4, 1, ['5']⟩, 64, 2, [2, 2], 0⟩]

/-- The operations of the second thread. -/
def fencingThread : List Op := [.apiBegin ⟨5, 2, ['6']⟩, .fence ⟨6, 2, ['7']⟩]

/-- The trace. -/
def unfencedTrace : TraceMT :=
  ⟨[.apiBegin ⟨0, 0, ['1']⟩] ++ unfencedThread ++ fencingThread, [0, 1, 2], [0, 1, 5]⟩

theorem segments_unfencedTrace :
    Segments unfencedTrace.ops [.apiBegin ⟨0, 0, ['1']⟩] unfencedThread fencingThread where
  ops_eq := rfl
  ne_nil := by decide
  tids := ⟨0, 1, 2, by decide, by decide, by decide, by decide, by decide, by decide⟩

theorem keepsOut_iff_unfenced :
    ∃ c, genCrashImg unfencedTrace ([] : List Store) = some (some c) ∧
      (KeepsOut (rolledBack [.apiBegin ⟨0, 0, ['1']⟩] unfencedThread 4) fencingThread c.binaryFile ↔
        ∀ u s v, rolledBack [.apiBegin ⟨0, 0, ['1']⟩] unfencedThread 4 = u ++ .store s :: v →
          ¬ PersistedIn s v → (∃ f, Op.flush f ∈ v ∧ f.isInFlush s = true) →
            (∃ b, Op.fence b ∈ fencingThread) → PersistedIn s fencingThread) := by
  have hextract : TraceMT.extractOperations unfencedEntries = some unfencedTrace := by
    decide +kernel
  exact keepsOut_iff hextract (by decide +kernel) segments_unfencedTrace (by decide +kernel)

/-- The second thread's fence writes back the store that the first thread flushed and did
not fence, although the second thread never flushes it. -/
theorem unfenced_store_written :
    TraceMT.extractOperations unfencedEntries = some unfencedTrace ∧
      (∀ e ∈ unfencedEntries, isPlain e) ∧
      Segments unfencedTrace.ops [.apiBegin ⟨0, 0, ['1']⟩] unfencedThread fencingThread ∧
      unfencedTrace.getRollBackIdx = some 4 ∧
      ∃ c, genCrashImg unfencedTrace ([] : List Store) = some (some c) ∧
        ¬ KeepsOut (rolledBack [.apiBegin ⟨0, 0, ['1']⟩] unfencedThread 4) fencingThread
          c.binaryFile := by
  refine ⟨by decide +kernel, by decide +kernel, segments_unfencedTrace, by decide +kernel, ?_⟩
  cases hrun : genCrashImg unfencedTrace ([] : List Store) with
  | none => exact absurd hrun (by decide +kernel)
  | some c? =>
    cases c? with
    | none => exact absurd hrun (by decide +kernel)
    | some c =>
      refine ⟨c, rfl, fun h => ?_⟩
      have hwritten : (genCrashImg unfencedTrace ([] : List Store)).map
          (Option.map fun c => decide (unfencedStore ∈ c.binaryFile)) = some (some true) := by
        decide +kernel
      rw [hrun] at hwritten
      simp only [Option.map_some, Option.some.injEq, decide_eq_true_eq] at hwritten
      have hunfenced : ¬ PersistedIn unfencedStore
          [.flush ⟨⟨3, 1, ['4']⟩, 0⟩, .store ⟨⟨4, 1, ['5']⟩, 64, 2, [2, 2], 0⟩] :=
        fun hp => absurd ((gone_events _ _).2 hp) (by decide +kernel)
      have hp := h [.apiBegin ⟨1, 1, ['2']⟩] unfencedStore _ rfl hunfenced hwritten
      exact absurd ((gone_events _ _).2 hp) (by decide +kernel)

end Durinn
