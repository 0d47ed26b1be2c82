import Durinn.Lib.Grouping
import Durinn.Oracle.Validate
import Durinn.Race.StopPoint
import Durinn.Threads.CrashImg

/-!
# The results of the two-thread phase

For each pair of calls the second phase runs the program under the debugger, once for each operation
at which a race was found.  The results of the runs that show a bug are collected by the signature
of their traces, a text made from the instructions of the two threads, by `ResAnalyzer` of
`lib/resanalyzer.py`.  It finds the directories of the phase in whatever order, and adds up the
numbers that were left for each pair.

* `joinSorted_inj` — a set of instruction numbers can be told from its part of the signature.
* `TraceMT.genSignature_eq_iff` — the results under one signature are those in which each of the two
  threads went through the same instructions.
* `Validated.names`, `nodup_names` — no two directories of the phase have the same name.
* `ResAnalyzer.phase_spec` — the numbers of all pairs are added up, each bug is collected once,
  under its signature, and there are as many as the numbers say.
-/

namespace Durinn

open PyText

/-! ## Signatures -/

/-- `isinstance(op, Load)`, `Store`, `Flush` or `Fence`. -/
def Op.isAccess : Op → Bool
  | .store _ | .load _ | .flush _ | .fence _ => true
  | _ => false

/-- The instructions of the memory accesses among some operations. -/
def accessSrcs (ops : List Op) : Finset Text :=
  ((ops.filter Op.isAccess).map fun op => op.base.srcInfo).toFinset

/-- `','.join(sorted(srcs))`. -/
def joinSorted (srcs : Finset Text) : Text := [','].intercalate (srcs.sort (· ≤ ·))

/-- `TraceMT.gen_signature`; `none` is an `IndexError`. -/
def TraceMT.genSignature (t : TraceMT) : Option Text := do
  let idx1 ← t.opsThreadIdx[1]?
  let idx2 ← t.opsThreadIdx[2]?
  return "t1:".toList ++ joinSorted (accessSrcs (Image.slice t.ops idx1 idx2)) ++
    (",t2:".toList ++ joinSorted (accessSrcs (Image.sliceFrom t.ops idx2)))

/-- The accesses carry the numbers of their instructions. -/
def Numbered (ops : List Op) : Prop :=
  ∀ src ∈ accessSrcs ops, ∃ n, src = Nat.toDigits 10 n

variable {srcs srcs' : Finset Text}

theorem notMem_digits {c : Char} (hc : c.isDigit = false) (n : Nat) : c ∉ Nat.toDigits 10 n :=
  fun h => absurd (Nat.isDigit_of_mem_toDigits (by decide) (by decide) h) (by simp [hc])

theorem isDigit_of_mem_joinSorted (h : ∀ src ∈ srcs, ∃ n, src = Nat.toDigits 10 n) {ch : Char}
    (hch : ch ∈ joinSorted srcs) : ch.isDigit = true ∨ ch = ',' := by
  by_contra hno
  rw [not_or] at hno
  refine notMem_intercalate (by simpa using hno.2) (fun src hsrc hmem => ?_) hch
  obtain ⟨n, rfl⟩ := h src ((Finset.mem_sort _).1 hsrc)
  exact hno.1 (Nat.isDigit_of_mem_toDigits (by decide) (by decide) hmem)

/-- The numbers are nothing, or what stands between the commas. -/
theorem splitOn_joinSorted (h : ∀ src ∈ srcs, ∃ n, src = Nat.toDigits 10 n) :
    (if joinSorted srcs = [] then [] else (joinSorted srcs).splitOn ',') = srcs.sort (· ≤ ·) := by
  have hmem : ∀ src ∈ srcs.sort (· ≤ ·), ',' ∉ src ∧ src ≠ [] := by
    intro src hsrc
    obtain ⟨n, rfl⟩ := h src ((Finset.mem_sort _).1 hsrc)
    exact ⟨notMem_digits (by decide) n, Nat.toDigits_ne_nil⟩
  unfold joinSorted
  cases hsort : srcs.sort (· ≤ ·) with
  | nil => rfl
  | cons src rest =>
    rw [hsort] at hmem
    have hne : [','].intercalate (src :: rest) ≠ [] := by
      intro hnil
      cases rest with
      | nil => exact (hmem src List.mem_cons_self).2 (by simpa using hnil)
      | cons src' rest =>
        rw [List.intercalate_cons_cons] at hnil
        simp at hnil
    rw [if_neg hne, List.splitOn_intercalate ',' (fun x hx => (hmem x hx).1) (by simp)]

/-- A set of numbers can be told from the text. -/
theorem joinSorted_inj (h : ∀ src ∈ srcs, ∃ n, src = Nat.toDigits 10 n)
    (h' : ∀ src ∈ srcs', ∃ n, src = Nat.toDigits 10 n) (heq : joinSorted srcs = joinSorted srcs') :
    srcs = srcs' := by
  have hsort : srcs.sort (· ≤ ·) = srcs'.sort (· ≤ ·) := by
    rw [← splitOn_joinSorted h, ← splitOn_joinSorted h', heq]
  rw [← Finset.sort_toFinset srcs (· ≤ ·), hsort, Finset.sort_toFinset]

namespace TraceMT

variable {t t' : TraceMT} {main t1 t2 main' t1' t2' : List Op}

/-- The signature of a trace in three parts. -/
theorem genSignature_segments (hidx : t.opsThreadIdx = (threadStarts t.ops).2)
    (hseg : Segments t.ops main t1 t2) :
    t.genSignature = some ("t1:".toList ++ joinSorted (accessSrcs t1) ++
      (",t2:".toList ++ joinSorted (accessSrcs t2))) := by
  have hstarts := (threadStarts_segments hseg).2
  have hslice : Image.slice t.ops (main.length : Int) ((main.length + t1.length : Nat) : Int) =
      t1 := by
    rw [hseg.ops_eq, Image.slice_append (by omega) (by omega)]
    exact List.take_of_length_le (by omega)
  have hrest : Image.sliceFrom t.ops ((main.length + t1.length : Nat) : Int) = t2 := by
    rw [hseg.ops_eq, ← List.length_append, Image.sliceFrom_append]
  rw [genSignature, hidx, hstarts]
  simp only [List.getElem?_cons_succ, List.getElem?_cons_zero, Option.bind_eq_bind,
    Option.bind_some, Option.pure_def, hslice, hrest]

/-- **Which traces have the same signature**: those in which the first thread goes through the same
instructions, and the second one as well. -/
theorem genSignature_eq_iff (hidx : t.opsThreadIdx = (threadStarts t.ops).2)
    (hidx' : t'.opsThreadIdx = (threadStarts t'.ops).2) (hseg : Segments t.ops main t1 t2)
    (hseg' : Segments t'.ops main' t1' t2') (hnum : Numbered t1 ∧ Numbered t2)
    (hnum' : Numbered t1' ∧ Numbered t2') :
    t.genSignature = t'.genSignature ↔
      accessSrcs t1 = accessSrcs t1' ∧ accessSrcs t2 = accessSrcs t2' := by
  rw [genSignature_segments hidx hseg, genSignature_segments hidx' hseg', Option.some.injEq]
  constructor
  · intro heq
    have hcut : ∀ {u v u' v' : Text}, 't' ∉ u → 't' ∉ v →
        "t1:".toList ++ u ++ (",t2:".toList ++ v) = "t1:".toList ++ u' ++ (",t2:".toList ++ v') →
        u = u' ∧ v = v' := by
      intro u v u' v' hu hv h
      have h₁ : (u ++ [',']) ++ 't' :: ('2' :: ':' :: v) =
          (u' ++ [',']) ++ 't' :: ('2' :: ':' :: v') := by
        rw [List.append_assoc, List.append_assoc] at h
        simpa using List.append_cancel_left h
      obtain ⟨hl, -, hr⟩ := (List.append_cons_inj_of_notMem (by simpa using hu)
        (by simpa using hv)).1 h₁
      exact ⟨List.append_cancel_right hl, by simpa using hr⟩
    have hno : ∀ ops, Numbered ops → 't' ∉ joinSorted (accessSrcs ops) := fun ops hops ht =>
      absurd (isDigit_of_mem_joinSorted hops ht) (by decide)
    obtain ⟨h₁, h₂⟩ := hcut (hno t1 hnum.1) (hno t2 hnum.2) heq
    exact ⟨joinSorted_inj hnum.1 hnum'.1 h₁, joinSorted_inj hnum.2 hnum'.2 h₂⟩
  · rintro ⟨h₁, h₂⟩
    rw [h₁, h₂]

/-- The run of `unfencedTrace` once more, in which the first thread does its last store twice. -/
def unfencedAgain : TraceMT :=
  ⟨[.apiBegin ⟨0, 0, ['1']⟩] ++ (unfencedThread ++ [.store ⟨⟨5, 1, ['5']⟩, 72, 2, [3, 3], 0⟩]) ++
    [.apiBegin ⟨6, 2, ['6']⟩, .fence ⟨7, 2, ['7']⟩], [0, 1, 2], [0, 1, 6]⟩

theorem segments_unfencedAgain :
    Segments unfencedAgain.ops [.apiBegin ⟨0, 0, ['1']⟩]
      (unfencedThread ++ [.store ⟨⟨5, 1, ['5']⟩, 72, 2, [3, 3], 0⟩])
      [.apiBegin ⟨6, 2, ['6']⟩, .fence ⟨7, 2, ['7']⟩] where
  ops_eq := rfl
  ne_nil := by decide
  tids := ⟨0, 1, 2, by decide, by decide, by decide, by decide, by decide, by decide⟩

theorem genSignature_eq_iff_unfenced :
    unfencedTrace.genSignature = unfencedAgain.genSignature := by
  have hfirst : ∀ src ∈ ({['3'], ['4'], ['5']} : Finset Text), ∃ n, src = Nat.toDigits 10 n := by
    simp only [Finset.mem_insert, Finset.mem_singleton]
    rintro src (rfl | rfl | rfl)
    exacts [⟨3, by decide⟩, ⟨4, by decide⟩, ⟨5, by decide⟩]
  have hsecond : ∀ src ∈ ({['7']} : Finset Text), ∃ n, src = Nat.toDigits 10 n := by
    simp only [Finset.mem_singleton]
    rintro src rfl
    exact ⟨7, by decide⟩
  have h₁ : accessSrcs unfencedThread = {['3'], ['4'], ['5']} := by decide +kernel
  have h₂ : accessSrcs fencingThread = {['7']} := by decide +kernel
  have h₁' : accessSrcs (unfencedThread ++ [.store ⟨⟨5, 1, ['5']⟩, 72, 2, [3, 3], 0⟩]) =
      {['3'], ['4'], ['5']} := by decide +kernel
  have h₂' : accessSrcs [.apiBegin ⟨6, 2, ['6']⟩, .fence ⟨7, 2, ['7']⟩] = {['7']} := by
    decide +kernel
  have hidx : unfencedTrace.opsThreadIdx = (threadStarts unfencedTrace.ops).2 := by decide +kernel
  have hidx' : unfencedAgain.opsThreadIdx = (threadStarts unfencedAgain.ops).2 := by decide +kernel
  refine (genSignature_eq_iff hidx hidx' segments_unfencedTrace
    segments_unfencedAgain ⟨?_, ?_⟩ ⟨?_, ?_⟩).2 ⟨h₁.trans h₁'.symm, h₂.trans h₂'.symm⟩
  · rwa [Numbered, h₁]
  · rwa [Numbered, h₂]
  · rwa [Numbered, h₁']
  · rwa [Numbered, h₂']

end TraceMT

/-! ## Runs under the debugger -/

/-- A run under the debugger: whether it was killed, the trace, and what `validate` of the validator
returns for the crash image. -/
structure GDBRun where
  timeout : Bool
  trace : TraceMT
  verdict : Option BuggyType

/-- `GDBRes`: what the analysis uses of it. -/
structure GDBRes where
  workspace : Text
  traceSignature : Text
  buggyType : BuggyType
  deriving DecidableEq

/-- Numbers with dashes between them: the names of directories. -/
def dashed (ns : List Nat) : Text := ['-'].intercalate (ns.map (Nat.toDigits 10))

namespace GDBChecker

/-- `buggy_type`: no image is validated after a timeout, or unless there are three threads. -/
def buggyType (run : GDBRun) : Option BuggyType :=
  if run.timeout then none else if run.trace.tids.length ≠ 3 then none else run.verdict

/-- `gen_res`: the result that is left in the directory, if there is a bug; the outer `none` is an
`IndexError`. -/
def genRes (pair : Nat × Nat) (opId : Nat) (run : GDBRun) : Option (Option GDBRes) :=
  match buggyType run with
  | none => some none
  | some buggyType => run.trace.genSignature.map fun traceSignature =>
      some ⟨dashed [pair.1, pair.2, opId], traceSignature, buggyType⟩

end GDBChecker

/-- A directory of the phase: its name, its file `res.txt` and its pickled result, if it has
them. -/
structure ResDir where
  name : Text
  resTxt : Option Text
  gdbRes : Option GDBRes

namespace MTChecker

/-- `validate_race`: `total_gdb_tests`, and the results of the tests that show a bug.  `gdb` stands
for the runs under the debugger; `none` is an exception. -/
def validateRace (gdb : Nat × Text × Nat → GDBRun) (order : SetOrder Op) (d : Dict Text Text)
    (pair : Nat × Nat) (trace : Trace) (races : List RacePair) : Option (Nat × List GDBRes) := do
  let gdbOps := order.toList (races.map fun race => race.raceSt.op).toFinset
  let found ← gdbOps.mapM fun gdbOp => do
    let stop ← stopPoint trace d gdbOp
    GDBChecker.genRes pair stop.1 (gdb stop)
  return (gdbOps.length, found.reduceOption)

/-- The lines of `res.txt`. -/
def resLines (tests buggy : Nat) : List Text :=
  ["total_gdb_tests:".toList ++ Nat.toDigits 10 tests,
    "total_gdb_tests_buggy:".toList ++ Nat.toDigits 10 buggy]

/-- `clean_up`: the directory of the pair is removed if there was no test. -/
def cleanUp (pair : Nat × Nat) (tests buggy : Nat) : List ResDir :=
  if tests = 0 then [] else [⟨dashed [pair.1, pair.2], some (unlines (resLines tests buggy)), none⟩]

/-- The directories that are left for a pair. -/
def dirs (x : (Nat × Nat) × Nat × List GDBRes) : List ResDir :=
  cleanUp x.1 x.2.1 x.2.2.length ++ x.2.2.map fun r => ⟨r.workspace, none, some r⟩

end MTChecker

/-! ## The analysis -/

namespace ResAnalyzer

/-- `key` and `val` of a line; `none` is an `IndexError` or a `ValueError`. -/
def parseStat (line : Text) : Option (Text × Int) := do
  let entry := line.splitOn ':'
  let key ← entry[0]?
  let val ← (entry[1]?).bind (intOfText 10)
  return (key, val)

/-- The numbers that `get_res_stats` finds in a directory. -/
def statsOf (d : ResDir) : Option (List (Text × Int)) :=
  if d.name.count '-' ≠ 1 then some []
  else match d.resTxt with
    | none => some []
    | some txt => (terminated '\n' (universalNewlines txt)).mapM parseStat

/-- `get_res_stats`. -/
def getResStats (dirs : List ResDir) : Option (Dict Text Int) :=
  dirs.foldlM (fun res d => (statsOf d).map fun stats =>
    stats.foldl (fun res stat => res.tally stat.1 stat.2) res) Dict.empty

/-- The result that `grep_gdb_res` finds in a directory. -/
def foundIn (d : ResDir) : Option GDBRes := if d.name.count '-' ≠ 2 then none else d.gdbRes

/-- `grep_gdb_res`, with `gdb_res_pickle_analysis`: `res_map`. -/
def grepGdbRes (dirs : List ResDir) : Dict Text (List GDBRes) :=
  dirs.foldl (fun resMap d =>
    match foundIn d with
    | none => resMap
    | some r => resMap.push r.traceSignature r) Dict.empty

end ResAnalyzer

/-! ## The names -/

theorem dashed_inj {ns ms : List Nat} (hn : ns ≠ []) (hm : ms ≠ []) (h : dashed ns = dashed ms) :
    ns = ms := by
  have hsplit : ∀ ks : List Nat, ks ≠ [] → (dashed ks).splitOn '-' = ks.map (Nat.toDigits 10) := by
    intro ks hks
    refine List.splitOn_intercalate '-' (fun t ht => ?_) (by simpa using hks)
    obtain ⟨n, -, rfl⟩ := List.mem_map.1 ht
    exact notMem_digits (by decide) n
  have hmap : ns.map (Nat.toDigits 10) = ms.map (Nat.toDigits 10) := by
    rw [← hsplit ns hn, ← hsplit ms hm, h]
  refine List.map_injective_iff.2 (fun a b hab => ?_) hmap
  have hread := congrArg (natOfText 10) hab
  rw [natOfText_toDigits (Or.inl rfl), natOfText_toDigits (Or.inl rfl)] at hread
  exact Option.some.inj hread

theorem count_dashed (n : Nat) (ns : List Nat) : (dashed (n :: ns)).count '-' = ns.length := by
  induction ns generalizing n with
  | nil => simpa [dashed] using List.count_eq_zero.2 (notMem_digits (by decide) n)
  | cons m ns ih =>
    have hcons : dashed (n :: m :: ns) = Nat.toDigits 10 n ++ '-' :: dashed (m :: ns) := by
      simp [dashed]
    rw [hcons, List.count_append, List.count_cons_self, ih,
      List.count_eq_zero.2 (notMem_digits (by decide) n), List.length_cons, Nat.zero_add]

namespace MTChecker

/-- The pair was validated: its races were found in a trace, and the tests raised no exception. -/
def Validated (x : (Nat × Nat) × Nat × List GDBRes) : Prop :=
  ∃ entries trace lps races gdb order d, Trace.extractOperations false entries = some trace ∧
    checkRace trace lps = some races ∧ validateRace gdb order d x.1 trace races = some x.2

theorem stopPoint_id {trace : Trace} {d : Dict Text Text} {op : Op} {stop : Nat × Text × Nat}
    (h : stopPoint trace d op = some stop) : stop.1 = op.id := by
  unfold stopPoint at h
  split at h
  · rw [Option.ite_none_right_eq_some] at h
    cases h.2
    rfl
  · cases op with
    | fence b =>
      obtain ⟨line, -, h⟩ := Option.bind_eq_some_iff.1 h
      obtain ⟨count, -, h⟩ := Option.bind_eq_some_iff.1 h
      cases h
      rfl
    | _ => cases h

theorem workspace_of_genRes {pair : Nat × Nat} {opId : Nat} {run : GDBRun} {r : GDBRes}
    (h : GDBChecker.genRes pair opId run = some (some r)) :
    r.workspace = dashed [pair.1, pair.2, opId] := by
  unfold GDBChecker.genRes at h
  cases hb : GDBChecker.buggyType run with
  | none =>
    rw [hb] at h
    cases h
  | some b =>
    rw [hb] at h
    obtain ⟨sig, -, heq⟩ := Option.map_eq_some_iff.1 h
    cases heq
    rfl

/-- The tests that show a bug are some of the tests. -/
theorem workspaces_sublist {pair : Nat × Nat} {ops : List Op} {found : List (Option GDBRes)}
    (h : List.Forall₂ (fun op out => ∀ r, out = some r →
      r.workspace = dashed [pair.1, pair.2, op.id]) ops found) :
    (found.reduceOption.map fun r => r.workspace).Sublist
      (ops.map fun op => dashed [pair.1, pair.2, op.id]) := by
  induction h with
  | nil => exact List.Sublist.slnil
  | @cons op out ops found hout _ ih =>
    cases out with
    | none => exact ih.cons _
    | some r =>
      rw [List.reduceOption_cons_of_some, List.map_cons, List.map_cons, hout r rfl]
      exact ih.cons_cons _

/-- **The tests of a pair**: as many as there are results, or more, and the results are in
directories of different operations. -/
theorem Validated.names {x : (Nat × Nat) × Nat × List GDBRes} (h : Validated x) :
    x.2.2.length ≤ x.2.1 ∧ ∃ ids : List Nat, ids.Nodup ∧
      (x.2.2.map fun r => r.workspace).Sublist (ids.map fun id => dashed [x.1.1, x.1.2, id]) := by
  obtain ⟨pair, tests, results⟩ := x
  obtain ⟨entries, trace, lps, races, gdb, order, d, htrace, hraces, hrun⟩ := h
  obtain ⟨found, hfound, heq⟩ := Option.bind_eq_some_iff.1 hrun
  cases heq
  have hall := Runs.mapM_eq_some_iff.1 hfound
  refine ⟨(List.reduceOption_length_le _).trans_eq hall.length_eq.symm,
    (order.toList (races.map fun race => race.raceSt.op).toFinset).map Op.id, ?_, ?_⟩
  · -- operations of a trace have different ids
    refine List.Nodup.map_on (fun op hop op' hop' hid => ?_) (order.nodup_toList _)
    have hget : ∀ o ∈ order.toList (races.map fun race => race.raceSt.op).toFinset,
        trace.ops[o.id]? = some o := by
      intro o ho
      obtain ⟨race, hrace, rfl⟩ :=
        List.mem_map.1 (List.mem_toFinset.1 ((order.mem_toList _ _).1 ho))
      obtain ⟨r, -, hmem⟩ := mem_perApi_of_checkRace hraces hrace
      obtain ⟨i, hi⟩ := List.mem_iff_getElem?.1 (List.mem_of_mem_drop (List.mem_of_mem_take hmem))
      rwa [id_of_getElem? htrace hi]
    exact Option.some.inj ((hget op hop).symm.trans (hid ▸ hget op' hop'))
  · rw [List.map_map]
    refine workspaces_sublist (hall.imp fun op out hout r hr => ?_)
    obtain ⟨stop, hstop, hres⟩ := Option.bind_eq_some_iff.1 hout
    rw [← stopPoint_id hstop]
    exact workspace_of_genRes (hr ▸ hres)

/-- Every directory of a pair begins with its numbers. -/
theorem Validated.mem_names {x : (Nat × Nat) × Nat × List GDBRes} (h : Validated x) {name : Text}
    (hname : name ∈ (dirs x).map ResDir.name) : ∃ rest, name = dashed (x.1.1 :: x.1.2 :: rest) := by
  obtain ⟨-, ids, -, hsub⟩ := h.names
  rw [dirs, List.map_append, List.mem_append, List.map_map] at hname
  rcases hname with hname | hname
  · unfold cleanUp at hname
    split at hname
    · cases hname
    · exact ⟨[], List.mem_singleton.1 hname⟩
  · obtain ⟨id, -, rfl⟩ := List.mem_map.1 (hsub.subset hname)
    exact ⟨[id], rfl⟩

/-- **No two directories have the same name.** -/
theorem nodup_names {runs : List ((Nat × Nat) × Nat × List GDBRes)}
    (hpairs : (runs.map Prod.fst).Nodup) (hruns : ∀ x ∈ runs, Validated x) :
    ((runs.flatMap dirs).map ResDir.name).Nodup := by
  rw [List.map_flatMap, List.nodup_flatMap]
  refine ⟨fun x hx => ?_, ?_⟩
  · obtain ⟨-, ids, hids, hsub⟩ := (hruns x hx).names
    have hall : (([x.1.1, x.1.2] :: ids.map fun id => [x.1.1, x.1.2, id]).map dashed).Nodup := by
      refine List.Nodup.map_on (fun a ha b hb hab => ?_) ?_
      · have hne : ∀ c ∈ [x.1.1, x.1.2] :: ids.map fun id => [x.1.1, x.1.2, id], c ≠ [] := by
          simp
        exact dashed_inj (hne a ha) (hne b hb) hab
      · exact List.nodup_cons.2 ⟨by simp, hids.map fun a b hab => by simpa using hab⟩
    refine hall.sublist ?_
    rw [dirs, List.map_append, List.map_map, List.map_cons, List.map_map, cleanUp]
    split
    · exact hsub.cons _
    · exact hsub.cons_cons _
  · refine (List.pairwise_map.1 hpairs).imp_of_mem fun {x y} hx hy hne name hname hname' => hne ?_
    obtain ⟨rest, rfl⟩ := (hruns x hx).mem_names hname
    obtain ⟨rest', heq⟩ := (hruns y hy).mem_names hname'
    have hnums := dashed_inj (by simp) (by simp) heq
    simp only [List.cons.injEq] at hnums
    exact Prod.ext hnums.1 hnums.2.1

end MTChecker

/-! ## What is collected -/

namespace ResAnalyzer

/-- The numbers that are added up for a pair. -/
def statsOfPair (x : (Nat × Nat) × Nat × List GDBRes) : List (Text × Int) :=
  if x.2.1 = 0 then []
  else [("total_gdb_tests".toList, x.2.1), ("total_gdb_tests_buggy".toList, x.2.2.length)]

theorem parseStat_line (key : Text) (hkey : ':' ∉ key) (n : Nat) :
    parseStat (key ++ ':' :: Nat.toDigits 10 n) = some (key, (n : Int)) := by
  have hdigits : ':' ∉ Nat.toDigits 10 n := notMem_digits (by decide) n
  have hnat : natOfText 10 (Nat.toDigits 10 n) = some n := natOfText_toDigits (Or.inl rfl) n
  have hread := intOfText_of_natOfText hnat
  unfold parseStat
  rw [List.splitOn_append_cons_self_of_not_mem hkey, splitOn_of_notMem hdigits]
  simp [hread]

/-- The file of a pair is read back. -/
theorem statsOf_cleanUp {pair : Nat × Nat} {tests buggy : Nat} :
    statsOf ⟨dashed [pair.1, pair.2], some (unlines (MTChecker.resLines tests buggy)), none⟩ =
      some [("total_gdb_tests".toList, (tests : Int)),
        ("total_gdb_tests_buggy".toList, (buggy : Int))] := by
  have hline : ∀ (key : Text) (n : Nat), '\n' ∉ key → '\r' ∉ key →
      '\n' ∉ key ++ Nat.toDigits 10 n ∧ '\r' ∉ key ++ Nat.toDigits 10 n := by
    intro key n hn hr
    simp only [List.mem_append, hn, hr, false_or]
    exact ⟨notMem_digits (by decide) n, notMem_digits (by decide) n⟩
  have hlines : ∀ l ∈ MTChecker.resLines tests buggy, '\n' ∉ l ∧ '\r' ∉ l := by
    intro l hl
    rcases List.mem_cons.1 hl with rfl | hl
    · exact hline _ _ (by decide) (by decide)
    · rw [List.mem_singleton.1 hl]
      exact hline _ _ (by decide) (by decide)
  have hcount : (dashed [pair.1, pair.2]).count '-' = 1 := count_dashed _ _
  rw [statsOf, if_neg (not_not.2 hcount)]
  show (terminated '\n' (universalNewlines (unlines (MTChecker.resLines tests buggy)))).mapM
    parseStat = _
  rw [terminated_universalNewlines_unlines hlines]
  have hkey₁ : "total_gdb_tests:".toList = "total_gdb_tests".toList ++ [':'] := by decide +kernel
  have hkey₂ : "total_gdb_tests_buggy:".toList = "total_gdb_tests_buggy".toList ++ [':'] := by
    decide +kernel
  have h₁ := parseStat_line "total_gdb_tests".toList (by decide) tests
  have h₂ := parseStat_line "total_gdb_tests_buggy".toList (by decide) buggy
  simp only [MTChecker.resLines, hkey₁, hkey₂, List.append_assoc, List.singleton_append,
    List.mapM_cons, List.mapM_nil, h₁, h₂]
  rfl

/-- The directory of a result. -/
theorem found_result {x : (Nat × Nat) × Nat × List GDBRes} (h : MTChecker.Validated x) {r : GDBRes}
    (hr : r ∈ x.2.2) : statsOf ⟨r.workspace, none, some r⟩ = some [] ∧
      foundIn ⟨r.workspace, none, some r⟩ = some r := by
  obtain ⟨-, ids, -, hsub⟩ := h.names
  obtain ⟨id, -, hid⟩ := List.mem_map.1 (hsub.subset (List.mem_map_of_mem hr))
  have hcount : r.workspace.count '-' = 2 := by
    rw [← hid]
    exact count_dashed _ _
  rw [statsOf, foundIn, if_pos (by simp [hcount]), if_neg (by simp [hcount])]
  exact ⟨rfl, rfl⟩

theorem found_results {x : (Nat × Nat) × Nat × List GDBRes} (h : MTChecker.Validated x)
    {rs : List GDBRes} (hrs : ∀ r ∈ rs, r ∈ x.2.2) :
    ((rs.map fun r => (⟨r.workspace, none, some r⟩ : ResDir)).flatMap fun d =>
        (statsOf d).getD []) = [] ∧
      (rs.map fun r => (⟨r.workspace, none, some r⟩ : ResDir)).filterMap foundIn = rs := by
  induction rs with
  | nil => exact ⟨rfl, rfl⟩
  | cons r rs ih =>
    obtain ⟨hr, hrest⟩ := List.forall_mem_cons.1 hrs
    obtain ⟨hstats, hfound⟩ := found_result h hr
    obtain ⟨ih₁, ih₂⟩ := ih hrest
    rw [List.map_cons, List.flatMap_cons, hstats, ih₁, List.filterMap_cons_some hfound, ih₂]
    exact ⟨rfl, rfl⟩

/-- What is found in the directories of a pair. -/
theorem found_dirs {x : (Nat × Nat) × Nat × List GDBRes} (h : MTChecker.Validated x) :
    (∀ d ∈ MTChecker.dirs x, (statsOf d).isSome = true) ∧
      ((MTChecker.dirs x).flatMap fun d => (statsOf d).getD []) = statsOfPair x ∧
      (MTChecker.dirs x).filterMap foundIn = x.2.2 := by
  obtain ⟨hnone, hall⟩ := found_results h fun r hr => hr
  have hpair : foundIn ⟨dashed [x.1.1, x.1.2],
      some (unlines (MTChecker.resLines x.2.1 x.2.2.length)), none⟩ = none := by
    rw [foundIn]
    split <;> rfl
  refine ⟨fun d hd => ?_, ?_, ?_⟩
  · rcases List.mem_append.1 hd with hd | hd
    · unfold MTChecker.cleanUp at hd
      split at hd
      · cases hd
      · rw [List.mem_singleton.1 hd, statsOf_cleanUp]
        rfl
    · obtain ⟨r, hr, rfl⟩ := List.mem_map.1 hd
      rw [(found_result h hr).1]
      rfl
  · rw [MTChecker.dirs, List.flatMap_append, hnone, List.append_nil, MTChecker.cleanUp, statsOfPair]
    split
    · rfl
    · rw [List.flatMap_singleton, statsOf_cleanUp, Option.getD_some]
  · rw [MTChecker.dirs, List.filterMap_append, hall, MTChecker.cleanUp]
    split
    · rfl
    · rw [List.filterMap_cons_none hpair]
      rfl

/-- The numbers of all directories are added up, if they can be read. -/
theorem getResStats_eq {dirs : List ResDir} (h : ∀ d ∈ dirs, (statsOf d).isSome = true) :
    getResStats dirs = some ((dirs.flatMap fun d => (statsOf d).getD []).foldl
      (fun res stat => res.tally stat.1 stat.2) Dict.empty) := by
  have hfrom : ∀ res : Dict Text Int, dirs.foldlM (fun res d => (statsOf d).map fun stats =>
      stats.foldl (fun res stat => res.tally stat.1 stat.2) res) res =
        some ((dirs.flatMap fun d => (statsOf d).getD []).foldl
          (fun res stat => res.tally stat.1 stat.2) res) := by
    induction dirs with
    | nil => exact fun _ => rfl
    | cons d dirs ih =>
      intro res
      obtain ⟨hd, hdirs⟩ := List.forall_mem_cons.1 h
      obtain ⟨stats, hstats⟩ := Option.isSome_iff_exists.1 hd
      rw [List.foldlM_cons, hstats, Option.map_some, List.flatMap_cons, hstats, Option.getD_some,
        List.foldl_append]
      exact ih hdirs _
  exact hfrom Dict.empty

theorem grepGdbRes_eq (dirs : List ResDir) :
    grepGdbRes dirs = (dirs.filterMap foundIn).foldl (fun d r => d.push r.traceSignature r)
      Dict.empty := by
  rw [grepGdbRes, List.foldl_filterMap]
  congr 1
  funext resMap d
  cases foundIn d <;> rfl

/-- The sums over the pairs, of which one without tests contributes nothing. -/
theorem sum_statsOfPair {runs : List ((Nat × Nat) × Nat × List GDBRes)}
    (hruns : ∀ x ∈ runs, MTChecker.Validated x) :
    (((runs.flatMap statsOfPair).filter fun x => x.1 = "total_gdb_tests".toList).map Prod.snd).sum =
        (runs.map fun x => (x.2.1 : Int)).sum ∧
      (((runs.flatMap statsOfPair).filter fun x =>
        x.1 = "total_gdb_tests_buggy".toList).map Prod.snd).sum =
        (runs.flatMap fun x => x.2.2).length := by
  have hkeys : ∀ k k' : Text, k ≠ k' → ∀ a b : Int,
      (([(k, a), (k', b)].filter fun x => x.1 = k).map Prod.snd).sum = a ∧
        (([(k, a), (k', b)].filter fun x => x.1 = k').map Prod.snd).sum = b := by
    intro k k' hne a b
    simp [hne, hne.symm]
  induction runs with
  | nil => exact ⟨rfl, rfl⟩
  | cons x runs ih =>
    obtain ⟨hx, hrest⟩ := List.forall_mem_cons.1 hruns
    obtain ⟨ih₁, ih₂⟩ := ih hrest
    have hle := hx.names.1
    simp only [List.flatMap_cons, List.filter_append, List.map_append, List.sum_append, ih₁, ih₂,
      List.map_cons, List.sum_cons, List.length_append, Nat.cast_add]
    by_cases hzero : x.2.1 = 0
    · have hnil : x.2.2.length = 0 := by omega
      simp [statsOfPair, hzero, hnil]
    · obtain ⟨h₁, h₂⟩ := hkeys "total_gdb_tests".toList "total_gdb_tests_buggy".toList (by decide)
        (x.2.1 : Int) (x.2.2.length : Int)
      rw [statsOfPair, if_neg hzero, h₁, h₂]
      exact ⟨rfl, rfl⟩

/-- **The results of the phase.**  If the pairs are different and no exception was raised, no two
directories have the same name, and in whatever order they are found, the numbers are read and added
up: all tests of all pairs, and as many bugs as are collected.  Under a signature there are just the
results with this signature, each once. -/
theorem phase_spec (runs : List ((Nat × Nat) × Nat × List GDBRes))
    (hpairs : (runs.map Prod.fst).Nodup) (hruns : ∀ x ∈ runs, MTChecker.Validated x)
    {dirs : List ResDir} (hdirs : dirs.Perm (runs.flatMap MTChecker.dirs)) :
    (dirs.map ResDir.name).Nodup ∧ ∃ stats, getResStats dirs = some stats ∧
      (stats.get? "total_gdb_tests".toList).getD 0 = (runs.map fun x => (x.2.1 : Int)).sum ∧
      (stats.get? "total_gdb_tests_buggy".toList).getD 0 =
        ((grepGdbRes dirs).values.map List.length).sum ∧
      ∀ sig, ((grepGdbRes dirs).listAt sig).Perm
        ((runs.flatMap fun x => x.2.2).filter fun r => r.traceSignature = sig) := by
  have hsome : ∀ d ∈ dirs, (statsOf d).isSome = true := by
    intro d hd
    obtain ⟨x, hx, hd⟩ := List.mem_flatMap.1 (hdirs.subset hd)
    exact (found_dirs (hruns x hx)).1 d hd
  have hstats : (dirs.flatMap fun d => (statsOf d).getD []).Perm (runs.flatMap statsOfPair) := by
    refine (hdirs.flatMap_right _).trans (.of_eq ?_)
    rw [List.flatMap_assoc]
    exact List.flatMap_congr fun x hx => (found_dirs (hruns x hx)).2.1
  have hfound : (dirs.filterMap foundIn).Perm (runs.flatMap fun x => x.2.2) := by
    refine (hdirs.filterMap _).trans (.of_eq ?_)
    rw [List.filterMap_flatMap]
    exact List.flatMap_congr fun x hx => (found_dirs (hruns x hx)).2.2
  have hsum : ∀ key, (((dirs.flatMap fun d => (statsOf d).getD []).foldl
      (fun res stat => res.tally stat.1 stat.2) (Dict.empty : Dict Text Int)).get? key).getD 0 =
        (((runs.flatMap statsOfPair).filter fun x => x.1 = key).map Prod.snd).sum := by
    intro key
    rw [Dict.get?_foldl_tally, Dict.get?_empty, Option.getD_none, zero_add]
    exact ((hstats.filter _).map _).sum_eq
  obtain ⟨htests, hbuggy⟩ := sum_statsOfPair hruns
  refine ⟨(hdirs.map _).nodup_iff.2 (MTChecker.nodup_names hpairs hruns), _, getResStats_eq hsome,
    (hsum _).trans htests, ?_, fun sig => ?_⟩
  · rw [hsum, hbuggy, grepGdbRes_eq, Dict.sum_length_foldl_push, hfound.length_eq]
    exact congrArg _ (Nat.zero_add _).symm
  · rw [grepGdbRes_eq, Dict.listAt_foldl_push, Dict.listAt_empty, List.nil_append]
    exact hfound.filter _

/-- For a pair of calls one operation is tested, and its run shows a bug. -/
def fenceRun (sig : Text) (pair : Nat × Nat) : (Nat × Nat) × Nat × List GDBRes :=
  (pair, 1, [⟨dashed [pair.1, pair.2, 4], sig, .noOutFile⟩])

/-- The race of `twoFences` is tested in the run of `unfencedTrace`, after which nothing is
printed. -/
theorem validated_twoFences {sig : Text} (hsig : unfencedTrace.genSignature = some sig)
    (pair : Nat × Nat) : MTChecker.Validated (fenceRun sig pair) := by
  have hread : (Trace.extractOperations false MTChecker.twoFences).isSome = true := by
    decide +kernel
  have hfacts : ∀ trace ∈ Trace.extractOperations false MTChecker.twoFences,
      (MTChecker.checkRace trace {0x100}).map (List.map fun race => race.raceSt.op) =
          some [.fence ⟨4, 1, ['6']⟩] ∧
        MTChecker.stopPoint trace MTChecker.twoFencesLines (.fence ⟨4, 1, ['6']⟩) =
          some (4, "a.c:9".toList, 2) := by
    decide +kernel
  obtain ⟨trace, htrace⟩ := Option.isSome_iff_exists.1 hread
  obtain ⟨hops, hstop⟩ := hfacts trace htrace
  obtain ⟨races, hraces, hops⟩ := Option.map_eq_some_iff.1 hops
  refine ⟨MTChecker.twoFences, trace, {0x100}, races,
    fun _ => ⟨false, unfencedTrace, some .noOutFile⟩, default, MTChecker.twoFencesLines, htrace,
    hraces, ?_⟩
  have hset : (default : SetOrder Op).toList {.fence ⟨4, 1, ['6']⟩} = [.fence ⟨4, 1, ['6']⟩] :=
    Finset.toList_singleton _
  have hres : GDBChecker.genRes pair 4 ⟨false, unfencedTrace, some .noOutFile⟩ =
      some (some ⟨dashed [pair.1, pair.2, 4], sig, .noOutFile⟩) := by
    have hbuggy : GDBChecker.buggyType ⟨false, unfencedTrace, some .noOutFile⟩ =
        some .noOutFile := by
      decide
    rw [GDBChecker.genRes, hbuggy]
    show unfencedTrace.genSignature.map _ = _
    rw [hsig]
    rfl
  simp only [fenceRun, MTChecker.validateRace, hops, List.toFinset_cons, List.toFinset_nil,
    insert_empty_eq, hset, List.mapM_cons, List.mapM_nil, hstop, hres, Option.bind_eq_bind,
    Option.bind_some, Option.pure_def]
  rfl

theorem phase_spec_twoFences :
    ∃ sig stats, let dirs := ([(0, 1), (0, 2)].map (fenceRun sig)).flatMap MTChecker.dirs |>.reverse
      getResStats dirs = some stats ∧ (stats.get? "total_gdb_tests".toList).getD 0 = 2 ∧
      (stats.get? "total_gdb_tests_buggy".toList).getD 0 =
        ((grepGdbRes dirs).values.map List.length).sum ∧
      ((grepGdbRes dirs).listAt sig).Perm
        [⟨dashed [0, 1, 4], sig, .noOutFile⟩, ⟨dashed [0, 2, 4], sig, .noOutFile⟩] ∧
      ∀ sig' ≠ sig, (grepGdbRes dirs).listAt sig' = [] := by
  obtain ⟨sig, hsig⟩ : ∃ sig, unfencedTrace.genSignature = some sig :=
    ⟨_, TraceMT.genSignature_segments (by decide +kernel) segments_unfencedTrace⟩
  obtain ⟨-, stats, hstats, htests, hbuggy, hlists⟩ :=
    phase_spec ([(0, 1), (0, 2)].map (fenceRun sig)) (by simp [fenceRun])
      (List.forall_mem_map.2 fun pair _ => validated_twoFences hsig pair) (List.reverse_perm _)
  refine ⟨sig, stats, hstats, htests, hbuggy, (hlists _).trans (.of_eq ?_), fun sig' hne => ?_⟩
  · simp [fenceRun]
  · have hperm := hlists sig'
    rw [List.filter_eq_nil_iff.2] at hperm
    · exact hperm.eq_nil
    · simp [fenceRun, hne.symm]

end ResAnalyzer

end Durinn
