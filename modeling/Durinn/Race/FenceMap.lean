import Durinn.Lib.CText
import Durinn.Passes.SrcMap
import Durinn.Race.StopPoint

/-!
# The source lines of fences

`FenceSrcMap` of `lib/fencesrcmap.py` hands the numbers of the fences of the main trace to the
compiler pass `FenceSrcMap` of `tracer/fence_src_map.cpp`, and reads their source lines from the
file that the pass writes.  `MTChecker` looks up in this map the fences of another trace: that of
the two operations of a race, which are run on their own.

* `srcMapOf_spec` — the map has the source lines, up to the first comma, of the instructions asked
  for, and nothing else.
* `hitLoop_isSome_iff`, `stopPoint_eq` — the debugger is started for the fence of a race if and only
  if the main trace has all the fences of the call up to it.
-/

namespace Durinn

open PyText

/-! ## The pass -/

namespace FenceSrcMap

/-- A number of type `long`, as it is printed. -/
def intText (n : Int) : Text :=
  if 0 ≤ n then Nat.toDigits 10 n.toNat else '-' :: Nat.toDigits 10 (-n).toNat

/-- The loop body of `run`: the line that is printed for a number.  `none` is an exception of
`stol`, or a null pointer. -/
def outputLine (m : Bitcode) (q : QueryLoadStoreNumbers) (idStr : Text) : Option Text := do
  let id ← CText.stol idStr
  let place ← q.getInstByID (UInt32.ofInt id)
  let inst ← m.insts[place]?
  return intText id ++ ',' :: inst.locateSrcInfo

/-- `run`, on the option `-fence-ids`. -/
def run (m : Bitcode) (q : QueryLoadStoreNumbers) (fenceIds : Text) : Option Text :=
  ((CText.getlines ',' fenceIds).mapM (outputLine m q)).map unlines

/-- `runOnModule`, after the numbers of the module are read. -/
def runOnModule (m : Bitcode) (fenceIds : Text) : Option Text := do
  let q ← QueryLoadStoreNumbers.run (loadStoreNumbers m)
  run m q fenceIds

/-- The loop body of `gen_src_mapping_pickle`; `none` is an `IndexError`. -/
def mappingStep (d : Dict Text Text) (entry : Text) : Option (Dict Text Text) :=
  ((entry.splitOn ',')[1]?).map fun srcInfo => d.set ((entry.splitOn ',').headD []) srcInfo

/-- `gen_src_mapping_pickle`, on the contents of the file. -/
def genSrcMappingPickle (file : Text) : Option (Dict Text Text) :=
  (terminated '\n' (universalNewlines file)).foldlM mappingStep Dict.empty

end FenceSrcMap

/-- The map of source lines for a set of numbers: the pass, and the reading of its output. -/
def srcMapOf (m : Bitcode) (order : SetOrder Text) (srcs : Finset Text) : Option (Dict Text Text) :=
  (FenceSrcMap.runOnModule m ([','].intercalate (order.toList srcs))).bind
    FenceSrcMap.genSrcMappingPickle

/-- `brk_id_set`: the numbers of the fences. -/
def fenceSrcs (ops : List Op) : Finset Text :=
  ((ops.filter Op.isFence).map fun op => op.base.srcInfo).toFinset

theorem fenceSrcs_mono {u v : List Op} (h : u ⊆ v) : fenceSrcs u ⊆ fenceSrcs v := by
  intro src hsrc
  rw [fenceSrcs, List.mem_toFinset] at hsrc ⊢
  exact List.map_subset _ (List.filter_subset _ h) hsrc

/-- The class `FenceSrcMap`: the map for the fences of a trace. -/
def fenceSrcMap (m : Bitcode) (order : SetOrder Text) (trace : Trace) : Option (Dict Text Text) :=
  srcMapOf m order (fenceSrcs trace.ops)

/-! ## What the pass prints, and what is read of it -/

/-- What is read of a source line. -/
def shownSrc (src : Text) : Text := src.takeWhile (· ≠ ',')

/-- The text is the number of an instruction, whose source line has no line ends. -/
def Names (m : Bitcode) (src : Text) (inst : Instr) : Prop :=
  ∃ place id, (place, id) ∈ loadStoreNumbers m ∧ m.insts[place]? = some inst ∧
    src = Nat.toDigits 10 (UInt32.toNat id) ∧ '\n' ∉ inst.locateSrcInfo ∧ '\r' ∉ inst.locateSrcInfo

namespace FenceSrcMap

variable {m : Bitcode} {q : QueryLoadStoreNumbers}

theorem outputLine_of_names
    (hq : ∀ x ∈ loadStoreNumbers m, q.getInstByID x.2 = some x.1) {src : Text} {inst : Instr}
    (h : Names m src inst) : outputLine m q src = some (src ++ ',' :: inst.locateSrcInfo) := by
  obtain ⟨place, id, hid, hinst, rfl, -⟩ := h
  have hlt := id.toNat_lt
  rw [outputLine, CText.stol_toDigits (by omega), Option.bind_eq_bind, Option.bind_some,
    CText.ofInt_toNat, hq _ hid, Option.bind_eq_bind, Option.bind_some, hinst]
  simp [intText]

theorem splitOn_comma (src : Text) : ∃ rest, src.splitOn ',' = shownSrc src :: rest := by
  by_cases hmem : ',' ∈ src
  · obtain ⟨l, rest, rfl, hl⟩ := List.eq_append_cons_of_mem hmem
    have hshown : shownSrc (l ++ ',' :: rest) = l := by
      rw [shownSrc, List.takeWhile_append_of_pos fun c hc => by
        simpa using fun h : c = ',' => hl (h ▸ hc)]
      simp
    rw [hshown, List.splitOn_append_cons_self_of_not_mem hl]
    exact ⟨_, rfl⟩
  · have hshown : shownSrc src = src := List.takeWhile_eq_self_iff.2 fun c hc => by
      simpa using fun h : c = ',' => hmem (h ▸ hc)
    exact ⟨[], by rw [splitOn_of_notMem hmem, hshown]⟩

/-- A line that the pass printed. -/
theorem mappingStep_line {src : Text} {inst : Instr} (h : Names m src inst) (d : Dict Text Text) :
    mappingStep d (src ++ ',' :: inst.locateSrcInfo) =
      some (d.set src (shownSrc inst.locateSrcInfo)) := by
  obtain ⟨place, id, -, -, rfl, -⟩ := h
  obtain ⟨rest, hrest⟩ := splitOn_comma inst.locateSrcInfo
  rw [mappingStep, List.splitOn_append_cons_self_of_not_mem (notMem_toDigits (by decide) _), hrest]
  rfl

/-- What is read of the lines that the pass printed. -/
theorem foldlM_mappingStep {srcs : List Text} {inst : Text → Instr}
    (h : ∀ src ∈ srcs, Names m src (inst src)) (d : Dict Text Text) :
    ∃ d', (srcs.map fun src => src ++ ',' :: (inst src).locateSrcInfo).foldlM mappingStep d =
        some d' ∧
      ∀ src, d'.get? src =
        if src ∈ srcs then some (shownSrc (inst src).locateSrcInfo) else d.get? src := by
  induction srcs generalizing d with
  | nil => exact ⟨d, rfl, by simp⟩
  | cons src srcs ih =>
    rw [List.forall_mem_cons] at h
    obtain ⟨d', hd', hget⟩ := ih h.2 (d.set src (shownSrc (inst src).locateSrcInfo))
    refine ⟨d', ?_, fun src' => ?_⟩
    · rw [List.map_cons, List.foldlM_cons, mappingStep_line h.1]
      exact hd'
    · rw [hget, Dict.get?_set]
      by_cases hsrcs : src' ∈ srcs
      · simp [hsrcs]
      · by_cases heq : src' = src
        · simp [heq]
        · simp [hsrcs, heq]

end FenceSrcMap

/-- **The map of source lines** has those of the instructions asked for, and no others. -/
theorem srcMapOf_spec {m : Bitcode} (hnumbers : (loadStoreNumbers m).length < 2 ^ 32)
    {srcs : Finset Text} (hne : srcs.Nonempty) {inst : Text → Instr}
    (hsrcs : ∀ src ∈ srcs, Names m src (inst src)) (order : SetOrder Text) :
    ∃ d, srcMapOf m order srcs = some d ∧ ∀ src, d.get? src =
      if src ∈ srcs then some (shownSrc (inst src).locateSrcInfo) else none := by
  obtain ⟨q, hq, hquery⟩ := query_spec hnumbers
  have hlist : ∀ src ∈ order.toList srcs, Names m src (inst src) := fun src hsrc =>
    hsrcs src ((order.mem_toList _ _).1 hsrc)
  have hnil : order.toList srcs ≠ [] := by
    obtain ⟨src, hsrc⟩ := hne
    exact List.ne_nil_of_mem ((order.mem_toList _ _).2 hsrc)
  have hdigits : ∀ src ∈ order.toList srcs, src ≠ [] ∧ ',' ∉ src := by
    intro src hsrc
    obtain ⟨place, id, -, -, rfl, -⟩ := hlist src hsrc
    exact ⟨Nat.toDigits_ne_nil, notMem_toDigits (by decide) _⟩
  have hrun : FenceSrcMap.run m q ([','].intercalate (order.toList srcs)) =
      some (unlines ((order.toList srcs).map fun src =>
        src ++ ',' :: (inst src).locateSrcInfo)) := by
    rw [FenceSrcMap.run, CText.getlines_intercalate hnil hdigits, Runs.mapM_eq_some fun src hsrc =>
      FenceSrcMap.outputLine_of_names (fun x hx => (hquery x hx).2.2) (hlist src hsrc)]
    rfl
  have hplain : ∀ l ∈ (order.toList srcs).map fun src => src ++ ',' :: (inst src).locateSrcInfo,
      '\n' ∉ l ∧ '\r' ∉ l := by
    intro l hl
    obtain ⟨src, hsrc, rfl⟩ := List.mem_map.1 hl
    obtain ⟨place, id, -, -, rfl, hn, hr⟩ := hlist src hsrc
    exact ⟨by simp [notMem_toDigits, hn], by simp [notMem_toDigits, hr]⟩
  obtain ⟨d, hd, hget⟩ := FenceSrcMap.foldlM_mappingStep hlist Dict.empty
  refine ⟨d, ?_, fun src => ?_⟩
  · rw [srcMapOf, FenceSrcMap.runOnModule, hq, Option.bind_eq_bind, Option.bind_some, hrun,
      Option.bind_some, FenceSrcMap.genSrcMappingPickle,
      terminated_universalNewlines_unlines hplain,
      hd]
  · simp [hget, order.mem_toList]

/-! ## Where the debugger is started -/

namespace MTChecker

variable {ops : List Op} {d : Dict Text Text} {line : Text} {a n : Nat}

theorem mapped_append {u v : List Op} : Mapped d (u ++ v) ↔ Mapped d u ∧ Mapped d v := by
  simp only [Mapped, List.mem_append, or_imp, forall_and]

/-- A fence that is not in the map is a `KeyError`. -/
theorem hitLoop_cons_none {i opId hitCount : Nat} {positions : List Nat} {op : Op}
    (hget : ops[i]? = some op) (hd : ¬ Mapped d [op]) :
    hitLoop ops d line opId (i :: positions) hitCount = none := by
  rw [hitLoop, hget]
  cases op with
  | fence b =>
    have hnone : d.get? b.srcInfo = none := by
      cases hb : d.get? b.srcInfo with
      | none => rfl
      | some line' =>
        refine absurd (fun b' hb' => ?_) hd
        cases List.mem_singleton.1 hb'
        exact Option.isSome_of_eq_some hb
    simp [hnone]
  | _ => exact absurd (fun b hb => by cases List.mem_singleton.1 hb) hd

/-- **When the count is found**: if the map has the fences up to the one in question. -/
theorem hitLoop_isSome_iff {pre post : List Op} {op : Op} {hitCount : Nat}
    (h : (ops.drop a).take n = pre ++ op :: post) :
    (hitLoop ops d line (a + pre.length) (List.range' a n) hitCount).isSome = true ↔
      Mapped d (pre ++ [op]) := by
  refine ⟨fun hsome => ?_, fun hd => by rw [hitLoop_spec h hd]; rfl⟩
  induction pre generalizing a n hitCount with
  | nil =>
    obtain ⟨k, rfl, hget, -⟩ := drop_take_cons h
    by_contra hd
    rw [List.range'_succ, hitLoop_cons_none hget hd] at hsome
    cases hsome
  | cons op' pre ih =>
    obtain ⟨k, rfl, hget, hrest⟩ := drop_take_cons h
    have hfirst : Mapped d [op'] := by
      by_contra hd
      rw [List.range'_succ, hitLoop_cons_none hget hd] at hsome
      cases hsome
    have hpos : a + (op' :: pre).length = a + 1 + pre.length := by
      rw [List.length_cons]
      omega
    rw [List.range'_succ, hitLoop_cons hget hfirst, if_neg (by simp), hpos] at hsome
    exact (mapped_append (u := [op'])).2 ⟨hfirst, ih hrest hsome⟩

/-- The fences are in a map that has those of a trace. -/
theorem mapped_iff {srcs : Finset Text} (hd : ∀ src, (d.get? src).isSome = true ↔ src ∈ srcs) :
    Mapped d ops ↔ fenceSrcs ops ⊆ srcs := by
  constructor
  · intro h src hsrc
    obtain ⟨op, hop, rfl⟩ := List.mem_map.1 (List.mem_toFinset.1 hsrc)
    obtain ⟨hmem, hfence⟩ := List.mem_filter.1 hop
    cases op with
    | fence b => exact (hd _).1 (h b hmem)
    | _ => cases hfence
  · intro h b hb
    exact (hd _).2 (h (List.mem_toFinset.2 (List.mem_map.2 ⟨_, List.mem_filter.2 ⟨hb, rfl⟩, rfl⟩)))

variable {m : Bitcode} {main trace : Trace} {onlyPersist : Bool} {entries : List Text}
  {b : BaseOperation}

/-- A number is not `NA`. -/
theorem srcInfo_ne_na {src : Text} {inst : Instr} (h : Names m src inst) : src ≠ "NA".toList := by
  obtain ⟨place, id, -, -, rfl, -⟩ := h
  intro hna
  have hdigit : 'N'.isDigit = true :=
    Nat.isDigit_of_mem_toDigits (b := 10) (n := id.toNat) (by decide)
    (by decide) (by rw [hna]; decide)
  cases hdigit

theorem stopPoint_fence (h : b.srcInfo ≠ "NA".toList) :
    stopPoint trace d (.fence b) = (d.get? b.srcInfo).bind fun srcLine =>
      (getHitCount trace b d srcLine).bind fun hitCount => some (b.id, srcLine, hitCount) :=
  if_neg h

theorem getHitCount_eq_hitLoop {r : Nat × Nat} (hr : trace.opsApiRanges[0]? = some r)
    (hrange : r.1 < b.id ∧ b.id < r.2) : getHitCount trace b d line =
      hitLoop trace.ops d line b.id (List.range' r.1 (r.2 + 1 - r.1)) 0 := by
  rw [getHitCount, hr, Option.bind_eq_bind, Option.bind_some]
  exact if_pos hrange

/-- **The stop point of a race.**  The map is made for the fences of the main trace, each of which
has the number of an instruction; there is at least one.  The race is found in a trace of its own.
The debugger is started for the fence of the race if and only if the main trace has that fence and
all fences before it in the call; it is given the source line of the fence, up to a comma in it, and
the number of times that the call has fenced on this line so far. -/
theorem stopPoint_eq (hnumbers : (loadStoreNumbers m).length < 2 ^ 32)
    (hne : (fenceSrcs main.ops).Nonempty) {inst : Text → Instr}
    (hmain : ∀ src ∈ fenceSrcs main.ops, Names m src (inst src)) (order : SetOrder Text)
    (htrace : Trace.extractOperations onlyPersist entries = some trace) {lps : Finset Nat}
    {races : List RacePair} {race : RacePair} (hraces : checkRace trace lps = some races)
    (hrace : race ∈ races) (hfence : race.raceSt.op = .fence b) :
    ∃ d r pre post, fenceSrcMap m order main = some d ∧ trace.opsApiRanges[0]? = some r ∧
      trace.perApi r = pre ++ .fence b :: post ∧
      stopPoint trace d race.raceSt.op =
        if fenceSrcs (pre ++ [.fence b]) ⊆ fenceSrcs main.ops then
          some (b.id, shownSrc (inst b.srcInfo).locateSrcInfo,
            (fencesOn d (shownSrc (inst b.srcInfo).locateSrcInfo) pre).length + 1)
        else none := by
  obtain ⟨d, hd, hget⟩ := srcMapOf_spec hnumbers hne hmain order
  obtain ⟨r, hr, hmem⟩ := mem_perApi_of_checkRace hraces hrace
  rw [hfence] at hmem ⊢
  obtain ⟨pre, post, hsplit⟩ := List.append_of_mem hmem
  obtain ⟨hid, hlo, hhi⟩ := fence_position htrace (List.mem_of_getElem? hr) hsplit
  have hkeys : ∀ src, (d.get? src).isSome = true ↔ src ∈ fenceSrcs main.ops := by
    intro src
    rw [hget]
    by_cases hsrc : src ∈ fenceSrcs main.ops <;> simp [hsrc]
  have hself : fenceSrcs (pre ++ [.fence b]) ⊆ fenceSrcs main.ops →
      b.srcInfo ∈ fenceSrcs main.ops :=
    fun h => h (List.mem_toFinset.2 (List.mem_map.2 ⟨.fence b, by simp [Op.isFence], rfl⟩))
  refine ⟨d, r, pre, post, hd, hr, hsplit, ?_⟩
  by_cases hsub : fenceSrcs (pre ++ [.fence b]) ⊆ fenceSrcs main.ops
  · have hline : d.get? b.srcInfo = some (shownSrc (inst b.srcInfo).locateSrcInfo) := by
      rw [hget, if_pos (hself hsub)]
    have hcount : getHitCount trace b d (shownSrc (inst b.srcInfo).locateSrcInfo) =
        some ((fencesOn d (shownSrc (inst b.srcInfo).locateSrcInfo) pre).length + 1) := by
      rw [getHitCount_eq_hitLoop hr ⟨hlo, hhi⟩, hid,
        hitLoop_spec hsplit ((mapped_iff hkeys).2 hsub), fencesOn_append]
      simp [fencesOn, hline]
    rw [if_pos hsub, stopPoint_fence (srcInfo_ne_na (hmain _ (hself hsub))), hline,
      Option.bind_some, hcount]
    rfl
  · rw [if_neg hsub]
    by_cases hna : b.srcInfo = "NA".toList
    · exact if_pos hna
    · rw [stopPoint_fence hna]
      cases hline : d.get? b.srcInfo with
      | none => rfl
      | some line =>
        have hnone : getHitCount trace b d line = none := by
          rw [getHitCount_eq_hitLoop hr ⟨hlo, hhi⟩, hid, ← Option.not_isSome_iff_eq_none,
            hitLoop_isSome_iff hsplit, mapped_iff hkeys]
          exact hsub
        rw [Option.bind_some, hnone]
        rfl

/-- Six calls on one source line. -/
def sixCalls : Bitcode :=
  ⟨[[List.replicate 6 ⟨.call .indirect, some ("a.c".toList, 9)⟩]]⟩

theorem stopPoint_eq_twoFences :
    ∃ trace races race d, Trace.extractOperations false twoFences = some trace ∧
      checkRace trace {0x100} = some races ∧ race ∈ races ∧
      fenceSrcMap sixCalls default trace = some d ∧
      ∃ h, stopPoint trace d race.raceSt.op = some (4, "a.c:9".toList, h) := by
  have hread : (Trace.extractOperations false twoFences).isSome = true := by decide +kernel
  have hfacts : ∀ trace ∈ Trace.extractOperations false twoFences,
      (checkRace trace {0x100}).map (List.map fun race => race.raceSt.op) =
          some [.fence ⟨4, 1, ['6']⟩] ∧
        fenceSrcs trace.ops = {['3'], ['6']} ∧
        ∀ r ∈ trace.opsApiRanges[0]?, fenceSrcs (trace.perApi r) ⊆ {['3'], ['6']} := by
    decide +kernel
  obtain ⟨trace, htrace⟩ := Option.isSome_iff_exists.1 hread
  obtain ⟨hops, hfences, hcall⟩ := hfacts trace htrace
  obtain ⟨races, hraces, hops⟩ := Option.map_eq_some_iff.1 hops
  obtain ⟨race, hrace, hfence⟩ := List.mem_map.1 (hops ▸ List.mem_singleton_self _ :
    Op.fence ⟨4, 1, ['6']⟩ ∈ races.map fun race => race.raceSt.op)
  have hnames : ∀ src ∈ fenceSrcs trace.ops,
      Names sixCalls src ⟨.call .indirect, some ("a.c".toList, 9)⟩ := by
    intro src hsrc
    rw [hfences, Finset.mem_insert, Finset.mem_singleton] at hsrc
    rcases hsrc with rfl | rfl
    · exact ⟨2, 3, by decide, rfl, rfl, by decide, by decide⟩
    · exact ⟨5, 6, by decide, rfl, rfl, by decide, by decide⟩
  obtain ⟨d, r, pre, post, hd, hr, hsplit, hstop⟩ := stopPoint_eq
    (show (loadStoreNumbers sixCalls).length < 2 ^ 32 by decide)
    (hfences ▸ Finset.insert_nonempty _ _) hnames default htrace hraces hrace hfence
  have hsub : fenceSrcs (pre ++ [.fence ⟨4, 1, ['6']⟩]) ⊆ fenceSrcs trace.ops := by
    have hmem : pre ++ [.fence ⟨4, 1, ['6']⟩] ⊆ trace.perApi r := by
      rw [hsplit]
      simp
    exact (fenceSrcs_mono hmem).trans (hfences ▸ hcall r hr)
  rw [if_pos hsub] at hstop
  exact ⟨trace, races, race, d, htrace, hraces, hrace, hd, _, hstop⟩

end MTChecker

end Durinn
