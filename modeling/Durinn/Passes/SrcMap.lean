import Durinn.Lib.PyText
import Durinn.Passes.Numbering

/-!
# The source map

`PrintSrcMap` writes the numbers of the instructions with their source lines into
`print_src_map.txt`, and `init_src_mapping` of `res_analysis_ls.py` reads from it the source
lines of the instructions that store.  The fields of a line are separated by commas, and a file name
is written as it is.

* `initSrcMapping_iff` — the entry of an instruction is right if and only if its source line
  `Survives` the file: it has no comma and no line end, every line of the file can be read, and no
  later line gives another source line for the number.
* `idsAgree_iff` — when the numbers mean the same in all three passes and in the source map: for
  file names without line ends, this is a matter of commas in the names of the files that store.
-/

namespace Durinn

open PyText

/-! ## The file -/

/-- The line that `print_src_map_to_output` writes. -/
def srcLine (x : SrcInst × UInt32) : Text :=
  Nat.toDigits 10 x.2.toNat ++ ',' :: (x.1.inst.locateSrcInfo ++ ',' :: x.1.suffix)

/-- `print_src_map.txt`. -/
def srcMapFile (m : Bitcode) : Text := unlines ((printSrcMap m).map srcLine)

/-- `src_num`, `src_line` and `src_type` of a line; `none` is a `ValueError` or an `IndexError`. -/
def srcEntry (line : Text) : Option (Int × Text × Text) := do
  let entry := line.splitOn ','
  let srcNum ← intOfText 10 (entry.headD [])
  let srcLine ← entry[1]?
  let srcType ← entry[2]?
  return (srcNum, srcLine, srcType)

/-- The types of the instructions that store. -/
def storeTypes : List Text := ["store", "atomic_rmw", "atomic_cmp", "call"].map String.toList

/-- The loop body of `init_src_mapping`. -/
def srcMappingStep (srcMapping : Dict Int Text) (line : Text) : Option (Dict Int Text) :=
  (srcEntry line).map fun e => if e.2.2 ∈ storeTypes then srcMapping.set e.1 e.2.1 else srcMapping

/-- `init_src_mapping`, on the contents of the file. -/
def initSrcMapping (file : Text) : Option (Dict Int Text) :=
  (terminated '\n' (universalNewlines file)).foldlM srcMappingStep Dict.empty

/-! ## Reading lines -/

/-- The source line that a line of the file gives for a number, if it gives one. -/
def givenSrc (num : Int) (line : Text) : Option Text :=
  (srcEntry line).bind fun e => if e.2.2 ∈ storeTypes ∧ e.1 = num then some e.2.1 else none

theorem isSome_foldlM_srcMappingStep (lines : List Text) (srcMapping : Dict Int Text) :
    (lines.foldlM srcMappingStep srcMapping).isSome = true ↔
      ∀ line ∈ lines, (srcEntry line).isSome = true := by
  induction lines generalizing srcMapping with
  | nil => simp
  | cons line lines ih =>
    rw [List.foldlM_cons, List.forall_mem_cons]
    cases hentry : srcEntry line with
    | none => simp [srcMappingStep, hentry]
    | some e => simpa [srcMappingStep, hentry] using ih _

/-- The last line for a number counts. -/
theorem get?_of_foldlM_srcMappingStep {lines : List Text} {srcMapping : Dict Int Text}
    (h : lines.foldlM srcMappingStep Dict.empty = some srcMapping) (num : Int) :
    srcMapping.get? num = (lines.filterMap (givenSrc num)).getLast? := by
  refine Runs.invariant (fun done d => d.get? num = (done.filterMap (givenSrc num)).getLast?) rfl
    ?_ h
  intro done line d d' _ hd hstep
  obtain ⟨e, he, rfl⟩ := Option.map_eq_some_iff.1 hstep
  rw [List.filterMap_append, List.getLast?_append, ← hd]
  by_cases htype : e.2.2 ∈ storeTypes
  · rw [if_pos htype, Dict.get?_set]
    by_cases hnum : num = e.1
    · simp [givenSrc, he, htype, hnum]
    · simp [givenSrc, he, Ne.symm hnum, hnum]
  · simp [givenSrc, he, htype]

/-- **What is read**: every line must be readable, and the last line for a number counts. -/
theorem initSrcMapping_lines {lines : List Text} {num : Int} {src : Text} :
    (∃ srcMapping, lines.foldlM srcMappingStep Dict.empty = some srcMapping ∧
        srcMapping.get? num = some src) ↔
      (∀ line ∈ lines, (srcEntry line).isSome = true) ∧
        (lines.filterMap (givenSrc num)).getLast? = some src := by
  rw [← isSome_foldlM_srcMappingStep lines Dict.empty]
  constructor
  · rintro ⟨srcMapping, hrun, hget⟩
    exact ⟨by rw [hrun]; rfl, (get?_of_foldlM_srcMappingStep hrun num).symm.trans hget⟩
  · rintro ⟨hsome, hlast⟩
    obtain ⟨srcMapping, hrun⟩ := Option.isSome_iff_exists.1 hsome
    exact ⟨srcMapping, hrun, (get?_of_foldlM_srcMappingStep hrun num).trans hlast⟩

/-! ## What is written, and what is read of it -/

/-- The source line has nothing that separates fields or lines. -/
def PlainSrc (src : Text) : Prop := ',' ∉ src ∧ '\n' ∉ src ∧ '\r' ∉ src

/-- The lines of the file that are read of the line written for an instruction. -/
def recordLines (x : SrcInst × UInt32) : List Text := (universalNewlines (srcLine x)).splitOn '\n'

theorem suffix_plain {kind : InstKind} {suffix : Text}
    (h : PrintSrcMap.suffix kind = some suffix) : PlainSrc suffix ∧ suffix ≠ [] := by
  unfold PlainSrc
  cases kind with
  | br isConditional =>
    cases isConditional with
    | false => cases h
    | true => cases h; decide
  | other => cases h
  | _ => cases h; decide

/-- The digits of a number, and those of a line, separate nothing. -/
theorem notMem_toDigits {c : Char} (hc : c ∈ [',', '\n', '\r']) (n : Nat) :
    c ∉ Nat.toDigits 10 n := by
  intro hmem
  obtain ⟨hblank, hne⟩ := (isDigitChar_of_mem (by decide) (by decide) hmem).ne
  simp only [List.mem_cons, List.not_mem_nil, or_false] at hc
  rcases hc with rfl | rfl | rfl
  · exact hne (by decide)
  · exact hne (by decide)
  · exact absurd hblank (by decide)

theorem suffix_of_mem {m : Bitcode} {x : SrcInst × UInt32} (hx : x ∈ printSrcMap m) :
    PrintSrcMap.suffix x.1.inst.kind = some x.1.suffix :=
  (mem_printSrcMap.1 ⟨x.2, hx⟩).2

/-- The lines of the file, instruction by instruction. -/
theorem lines_srcMapFile (m : Bitcode) :
    terminated '\n' (universalNewlines (srcMapFile m)) = (printSrcMap m).flatMap recordLines := by
  rw [srcMapFile, terminated_universalNewlines, List.flatMap_map]
  · rfl
  · intro l hl hlast
    obtain ⟨x, hx, rfl⟩ := List.mem_map.1 hl
    obtain ⟨hplain, hne⟩ := suffix_plain (suffix_of_mem hx)
    have hsuffix : (srcLine x).getLast? = x.1.suffix.getLast? := by
      rw [srcLine, List.append_cons, ← List.append_assoc, List.append_cons]
      exact List.getLast?_append_of_ne_nil _ hne
    rw [hsuffix] at hlast
    exact hplain.2.2 (List.mem_of_getLast? hlast)

theorem splitOn_srcLine {x : SrcInst × UInt32} (hsuffix : ',' ∉ x.1.suffix) :
    (srcLine x).splitOn ',' = Nat.toDigits 10 x.2.toNat ::
      (x.1.inst.locateSrcInfo.splitOn ',' ++ [x.1.suffix]) := by
  rw [srcLine, List.splitOn_append_cons_self_of_not_mem (notMem_toDigits (by decide) _),
    List.splitOn_append_cons_self, splitOn_of_notMem hsuffix]

theorem recordLines_of_oneLine {m : Bitcode} {x : SrcInst × UInt32} (hx : x ∈ printSrcMap m)
    (hn : '\n' ∉ x.1.inst.locateSrcInfo) (hr : '\r' ∉ x.1.inst.locateSrcInfo) :
    recordLines x = [srcLine x] := by
  obtain ⟨hplain, -⟩ := suffix_plain (suffix_of_mem hx)
  have hnotMem : ∀ c ∈ [',', '\n', '\r'], c ≠ ',' → c ∉ x.1.inst.locateSrcInfo → c ∉ x.1.suffix →
      c ∉ srcLine x := by
    intro c hc hcomma hsrc hsuffix
    simp only [srcLine, List.mem_append, List.mem_cons, not_or]
    exact ⟨notMem_toDigits hc _, hcomma, hsrc, hcomma, hsuffix⟩
  rw [recordLines, universalNewlines_eq_self (hnotMem '\r' (by decide) (by decide) hr hplain.2.2),
    splitOn_of_notMem (hnotMem '\n' (by decide) (by decide) hn hplain.2.1)]

theorem srcEntry_srcLine {m : Bitcode} {x : SrcInst × UInt32} (hx : x ∈ printSrcMap m) :
    ∃ src rest, x.1.inst.locateSrcInfo.splitOn ',' = src :: rest ∧
      srcEntry (srcLine x) = some ((x.2.toNat : Int), src, rest.headD x.1.suffix) := by
  obtain ⟨hplain, -⟩ := suffix_plain (suffix_of_mem hx)
  have hnum : intOfText 10 (Nat.toDigits 10 x.2.toNat) = some (x.2.toNat : Int) :=
    intOfText_of_natOfText (natOfText_toDigits (Or.inl rfl) _)
  cases hsplit : x.1.inst.locateSrcInfo.splitOn ',' with
  | nil => exact absurd hsplit (List.splitOn_ne_nil _ _)
  | cons src rest =>
    refine ⟨src, rest, rfl, ?_⟩
    unfold srcEntry
    rw [splitOn_srcLine hplain.1, hsplit]
    cases rest <;> simp [hnum]

/-- A source line that is read has nothing that separates fields or lines. -/
theorem plainSrc_of_givenSrc {x : SrcInst × UInt32} {line src : Text} {num : Int}
    (hline : line ∈ recordLines x) (h : givenSrc num line = some src) : PlainSrc src := by
  obtain ⟨e, he, hsrc⟩ := Option.bind_eq_some_iff.1 h
  have hfield : e.2.1 ∈ line.splitOn ',' := by
    unfold srcEntry at he
    simp only [Option.bind_eq_bind, Option.bind_eq_some_iff] at he
    obtain ⟨num', -, field, hfield, type, -, heq⟩ := he
    cases heq
    exact List.mem_of_getElem? hfield
  have hchars : ∀ c ∈ src, c ∈ universalNewlines (srcLine x) ∧ c ≠ '\n' ∧ c ≠ ',' := by
    intro c hc
    split at hsrc
    · cases hsrc
      obtain ⟨hcline, hcomma⟩ := mem_of_mem_splitOn hfield hc
      obtain ⟨hcfile, hn⟩ := mem_of_mem_splitOn hline hcline
      exact ⟨hcfile, hn, hcomma⟩
    · cases hsrc
  refine ⟨fun hc => (hchars _ hc).2.2 rfl, fun hc => (hchars _ hc).2.1 rfl, fun hc => ?_⟩
  exact notMem_universalNewlines _ (hchars _ hc).1

/-! ## The source lines of the instructions that store -/

/-- The source line of the instruction `x` is found in the file, where `after` are the instructions
printed after it. -/
structure Survives (m : Bitcode) (x : SrcInst × UInt32) (after : List (SrcInst × UInt32)) :
    Prop where
  /-- The file name has no comma and no line end. -/
  plain : PlainSrc x.1.inst.locateSrcInfo
  /-- Every line of the file can be read. -/
  readable : ∀ y ∈ printSrcMap m, ∀ line ∈ recordLines y, (srcEntry line).isSome = true
  /-- The last of the later lines that give a source line for the number gives the same one. -/
  last : ∀ src, ((after.flatMap recordLines).filterMap (givenSrc x.2.toNat)).getLast? = some src →
    src = x.1.inst.locateSrcInfo

/-- The line of an instruction with a plain source line gives that source line. -/
theorem givenSrc_recordLines {m : Bitcode} {x : SrcInst × UInt32} (hx : x ∈ printSrcMap m)
    (htype : x.1.suffix ∈ storeTypes) (hplain : PlainSrc x.1.inst.locateSrcInfo) :
    (recordLines x).filterMap (givenSrc x.2.toNat) = [x.1.inst.locateSrcInfo] := by
  obtain ⟨src, rest, hsplit, hentry⟩ := srcEntry_srcLine hx
  rw [splitOn_of_notMem hplain.1] at hsplit
  cases hsplit
  rw [recordLines_of_oneLine hx hplain.2.1 hplain.2.2]
  simp [givenSrc, hentry, htype]

/-- **The entry of an instruction** is right if and only if its source line survives the file. -/
theorem initSrcMapping_iff {m : Bitcode} {before after : List (SrcInst × UInt32)}
    {x : SrcInst × UInt32} (hsplit : printSrcMap m = before ++ x :: after)
    (htype : x.1.suffix ∈ storeTypes) :
    (∃ srcMapping, initSrcMapping (srcMapFile m) = some srcMapping ∧
        srcMapping.get? x.2.toNat = some x.1.inst.locateSrcInfo) ↔ Survives m x after := by
  have hx : x ∈ printSrcMap m := by simp [hsplit]
  unfold initSrcMapping
  rw [initSrcMapping_lines, lines_srcMapFile, List.forall_mem_flatMap]
  have hlines : PlainSrc x.1.inst.locateSrcInfo →
      ((printSrcMap m).flatMap recordLines).filterMap (givenSrc x.2.toNat) =
        (before.flatMap recordLines).filterMap (givenSrc x.2.toNat) ++
          x.1.inst.locateSrcInfo :: (after.flatMap recordLines).filterMap (givenSrc x.2.toNat) := by
    intro hplain
    rw [hsplit, List.flatMap_append, List.flatMap_cons, List.filterMap_append,
      List.filterMap_append, givenSrc_recordLines hx htype hplain]
    rfl
  constructor
  · rintro ⟨hread, hlast⟩
    obtain ⟨line, hline, hgiven⟩ := List.mem_filterMap.1 (List.mem_of_getLast? hlast)
    obtain ⟨y, -, hline⟩ := List.mem_flatMap.1 hline
    have hplain := plainSrc_of_givenSrc hline hgiven
    refine ⟨hplain, hread, fun src hsrc => ?_⟩
    rw [hlines hplain, List.getLast?_append, List.getLast?_cons, hsrc] at hlast
    simpa using hlast
  · rintro ⟨hplain, hread, hlast⟩
    refine ⟨hread, ?_⟩
    rw [hlines hplain, List.getLast?_append, List.getLast?_cons]
    cases hafter : ((after.flatMap recordLines).filterMap (givenSrc x.2.toNat)).getLast? with
    | none => rfl
    | some src => simp [hlast src hafter]

/-! ## The numbers mean the same everywhere -/

/-- **The numbers of instructions mean the same everywhere.** -/
structure IdsAgree (demangle : Text → Option Text) (m : Bitcode) : Prop where
  /-- `PrintSrcMap` prints the numbers that `LoadStoreNumberPass` assigns. -/
  printed : (printSrcMap m).map (fun x => (x.1.place, x.2)) = loadStoreNumbers m
  /-- They are `1` to `n`. -/
  consecutive : (loadStoreNumbers m).map (fun x => x.2.toNat) =
    List.range' 1 (loadStoreNumbers m).length
  /-- `QueryLoadStoreNumbers` reads them back, and an instruction that emits a store record has a
  number under which the source map has its own source line. -/
  read : ∃ q, QueryLoadStoreNumbers.run (loadStoreNumbers m) = some q ∧
    (∀ x ∈ loadStoreNumbers m, q.getID x.1 = x.2 ∧ q.getInstByID (q.getID x.1) = some x.1) ∧
    ∀ place i, m.insts[place]? = some i → CiriTracerPass.emitsStore demangle i.kind = true →
      q.getID place ≠ 0 ∧ ∃ srcMapping, initSrcMapping (srcMapFile m) = some srcMapping ∧
        srcMapping.get? (q.getID place).toNat = some i.locateSrcInfo

/-- An instruction that emits a store record is printed, as one that stores. -/
theorem exists_printed {demangle : Text → Option Text} {m : Bitcode} {place : Nat} {i : Instr}
    (hi : m.insts[place]? = some i) (hemits : CiriTracerPass.emitsStore demangle i.kind = true) :
    ∃ suffix id, (⟨i, place, suffix⟩, id) ∈ printSrcMap m ∧ suffix ∈ storeTypes := by
  obtain ⟨suffix, hsuffix, htype⟩ := CiriTracerPass.suffix_of_emitsStore hemits
  obtain ⟨id, hmem⟩ := mem_printSrcMap (s := ⟨i, place, suffix⟩).2 ⟨hi, hsuffix⟩
  exact ⟨suffix, id, hmem, htype⟩

/-- The numbers agree if the counter does not overflow and the source lines survive. -/
theorem idsAgree_iff_survives (demangle : Text → Option Text) (m : Bitcode) :
    IdsAgree demangle m ↔ (loadStoreNumbers m).length < 2 ^ 32 ∧
      ∀ before x after, printSrcMap m = before ++ x :: after →
        CiriTracerPass.emitsStore demangle x.1.inst.kind = true → Survives m x after := by
  have hnumber : ∀ x ∈ printSrcMap m, (x.1.place, x.2) ∈ loadStoreNumbers m := by
    intro x hx
    rw [← printSrcMap_numbers]
    exact List.mem_map.2 ⟨x, hx, rfl⟩
  constructor
  · rintro ⟨-, hrange, q, -, hq, hsrc⟩
    refine ⟨(numbers_eq_range'_iff m).1 hrange, fun before x after hsplit hemits => ?_⟩
    have hx : x ∈ printSrcMap m := by simp [hsplit]
    obtain ⟨suffix, hsuffix, htype⟩ := CiriTracerPass.suffix_of_emitsStore hemits
    cases hsuffix.symm.trans (suffix_of_mem hx)
    have hentry := (hsrc x.1.place x.1.inst (mem_printSrcMap.1 ⟨x.2, hx⟩).1 hemits).2
    rw [(hq _ (hnumber x hx)).1] at hentry
    exact (initSrcMapping_iff hsplit htype).1 hentry
  · rintro ⟨hlen, hsurvives⟩
    obtain ⟨q, hrun, hq⟩ := query_spec hlen
    refine ⟨printSrcMap_numbers m, (numbers_eq_range'_iff m).2 hlen, q, hrun, ?_, ?_⟩
    · intro x hx
      obtain ⟨-, hid, hinst⟩ := hq x hx
      exact ⟨hid, by rw [hid, hinst]⟩
    · intro place i hi hemits
      obtain ⟨suffix, id, hmem, htype⟩ := exists_printed hi hemits
      obtain ⟨hpos, hid, -⟩ := hq _ (hnumber _ hmem)
      obtain ⟨before, after, hsplit⟩ := List.append_of_mem hmem
      rw [hid]
      exact ⟨hpos, (initSrcMapping_iff hsplit htype).2 (hsurvives before _ after hsplit hemits)⟩

/-- Different instructions have different numbers. -/
theorem number_ne {m : Bitcode} (h : (loadStoreNumbers m).length < 2 ^ 32)
    {before after : List (SrcInst × UInt32)} {x y : SrcInst × UInt32}
    (hsplit : printSrcMap m = before ++ x :: after) (hy : y ∈ after) : y.2.toNat ≠ x.2.toNat := by
  have hnodup : ((printSrcMap m).map fun x => x.2.toNat).Nodup := by
    have hnumbers := (numbers_eq_range'_iff m).2 h
    rw [← printSrcMap_numbers, List.map_map, List.length_map] at hnumbers
    exact hnumbers ▸ List.nodup_range'
  rw [hsplit, List.map_append, List.map_cons, List.nodup_append, List.nodup_cons] at hnodup
  exact fun heq => hnodup.2.1.1 (List.mem_map.2 ⟨y, hy, heq⟩)

/-- For file names without line ends, what survives is a matter of commas. -/
theorem survives_iff_of_oneLine (demangle : Text → Option Text) {m : Bitcode}
    (hlen : (loadStoreNumbers m).length < 2 ^ 32)
    (hline : ∀ i ∈ m.insts, '\n' ∉ i.locateSrcInfo ∧ '\r' ∉ i.locateSrcInfo) :
    (∀ before x after, printSrcMap m = before ++ x :: after →
        CiriTracerPass.emitsStore demangle x.1.inst.kind = true → Survives m x after) ↔
      ∀ i ∈ m.insts, CiriTracerPass.emitsStore demangle i.kind = true →
        ',' ∉ i.locateSrcInfo := by
  have hone : ∀ x ∈ printSrcMap m, recordLines x = [srcLine x] := fun x hx =>
    have hi := hline x.1.inst (List.mem_of_getElem? (mem_printSrcMap.1 ⟨x.2, hx⟩).1)
    recordLines_of_oneLine hx hi.1 hi.2
  refine ⟨fun h i hi hemits => ?_, fun h before x after hsplit hemits => ?_⟩
  · obtain ⟨place, hplace⟩ := List.mem_iff_getElem?.1 hi
    obtain ⟨suffix, id, hmem, -⟩ := exists_printed hplace hemits
    obtain ⟨before, after, hsplit⟩ := List.append_of_mem hmem
    exact (h before _ after hsplit hemits).plain.1
  · have hx : x ∈ printSrcMap m := by simp [hsplit]
    have hi := List.mem_of_getElem? (mem_printSrcMap.1 ⟨x.2, hx⟩).1
    refine ⟨⟨h _ hi hemits, hline _ hi⟩, fun y hy line hmem => ?_, fun src hsrc => ?_⟩
    · rw [hone y hy, List.mem_singleton] at hmem
      obtain ⟨src, rest, -, hentry⟩ := srcEntry_srcLine hy
      rw [hmem, hentry]
      rfl
    · -- a later line has another number
      obtain ⟨line, hmem, hgiven⟩ := List.mem_filterMap.1 (List.mem_of_getLast? hsrc)
      obtain ⟨y, hy, hmem⟩ := List.mem_flatMap.1 hmem
      have hyprinted : y ∈ printSrcMap m := by simp [hsplit, hy]
      rw [hone y hyprinted, List.mem_singleton] at hmem
      obtain ⟨field, rest, -, hentry⟩ := srcEntry_srcLine hyprinted
      have hne : (y.2.toNat : Int) ≠ x.2.toNat := by exact_mod_cast number_ne hlen hsplit hy
      simp [givenSrc, hmem, hentry, hne] at hgiven

/-- **When the numbers agree.**  They do if and only if the counter does not overflow and the source
line of every instruction that emits a store record survives the file.  For file names without
line ends, that is: no such instruction is in a file whose name has a comma. -/
theorem idsAgree_iff (demangle : Text → Option Text) (m : Bitcode) :
    (IdsAgree demangle m ↔ (loadStoreNumbers m).length < 2 ^ 32 ∧
      ∀ before x after, printSrcMap m = before ++ x :: after →
        CiriTracerPass.emitsStore demangle x.1.inst.kind = true → Survives m x after) ∧
    ((∀ i ∈ m.insts, '\n' ∉ i.locateSrcInfo ∧ '\r' ∉ i.locateSrcInfo) →
      (IdsAgree demangle m ↔ (loadStoreNumbers m).length < 2 ^ 32 ∧
        ∀ i ∈ m.insts, CiriTracerPass.emitsStore demangle i.kind = true →
          ',' ∉ i.locateSrcInfo)) := by
  refine ⟨idsAgree_iff_survives demangle m, fun hline => ?_⟩
  rw [idsAgree_iff_survives]
  exact and_congr_right fun hlen => survives_iff_of_oneLine demangle hlen hline

/-- A module with one store, in the file `a,b.c`. -/
def commaModule : Bitcode := ⟨[[[⟨.store, some ("a,b.c".toList, 7)⟩]]]⟩

/-- The store has the number `1`, and the source map has no entry for it. -/
theorem commaModule_not_mapped :
    loadStoreNumbers commaModule = [(0, 1)] ∧ srcMapFile commaModule = "1,a,b.c:7,store\n".toList ∧
      (initSrcMapping (srcMapFile commaModule)).map (fun srcMapping => srcMapping.get? 1) =
        some none ∧ ¬IdsAgree (fun _ => none) commaModule := by
  have hlost : (initSrcMapping (srcMapFile commaModule)).map (fun srcMapping => srcMapping.get? 1) =
      some none := by decide +kernel
  refine ⟨by decide +kernel, by decide +kernel, hlost, fun h => ?_⟩
  have hsurvives := ((idsAgree_iff_survives _ _).1 h).2 [] (⟨_, 0, "store".toList⟩, 1) [] rfl rfl
  exact hsurvives.plain.1 (by decide)

end Durinn
