import Durinn.LastStore.Phase
import Durinn.Oracle.Validate
import Durinn.Passes.SrcMap

/-!
# The results of the last-store phase

Each validator writes a line for each crash image that does not pass into the file `BUG` of its
directory, or removes the directory if there is none; `ResAnalyzerLS` of `lib/resanalyzerls.py`
reads the files of all directories, in whatever order it finds them, and collects the lines by
operations and by source lines.

* `Report.parse_line` — the line of a report is read back.
* `analyzeDir_spec` — the file of a directory: its first line decides on the type and the signature
  of the operation for all its lines, which is right because all of them are of one API call.
* `results_spec` — from the trace to the collected results: nothing is lost, invented or listed
  twice.
-/

namespace Durinn

open PyText

/-! ## Reports -/

/-- `BUGGY_TYPE_0`, `BUGGY_TYPE_1` and `BUGGY_TYPE_2`, as they are printed. -/
def BuggyType.text : BuggyType → Text
  | .noOutFile => "no_out_file".toList
  | .outFileLenMismatch => "out_file_len_mismatch".toList
  | .outFileValMismatch => "out_file_val_mismatch".toList

/-- A test that did not pass. -/
structure Report where
  idx : Nat
  store : Store
  crashInfo : Nat
  buggyType : BuggyType
  deriving DecidableEq

/-- The line that `LSValidator.validate` adds to `res`, without its end. -/
def Report.line (r : Report) : Text :=
  "op_idx:".toList ++ Nat.toDigits 10 r.idx ++ ',' ::
    ("store_id:".toList ++ Nat.toDigits 10 r.store.id ++ ',' ::
      ("store_src_info:".toList ++ r.store.srcInfo ++ ',' ::
        ("crash_info:".toList ++ Nat.toDigits 10 r.crashInfo ++ ',' ::
          ("buggy_type:".toList ++ r.buggyType.text))))

/-- The crash tests of an API call that do not pass.  `verdict` stands for the execution of the
program on an image and `op_validator.validate`. -/
def failures (verdict : Nat → CrashTest → Option BuggyType) (idx : Nat) (tests : List CrashTest) :
    List Report :=
  tests.filterMap fun t => (verdict idx t).map fun b => ⟨idx, t.store, t.crashInfo, b⟩

namespace Job

/-- The name of the directory of a job. -/
def workspace (job : Job) : Text :=
  Nat.toDigits 10 job.idx ++
    '-' :: (Nat.toDigits 10 job.idStart ++ '-' :: Nat.toDigits 10 job.idEnd)

/-- `main_last_store_unit.py`: the directory that is left, with its file `BUG`, if there is one. -/
def unit (verdict : Nat → CrashTest → Option BuggyType) (files : List (Job × List Nat))
    (pmaddr pmsize : Nat) (ops : List Op) (job : Job) : Option (Option (Text × Text)) := do
  let v ← job.validator files pmaddr pmsize
  let tests ← v.run ops
  let res := (failures verdict job.idx tests).map Report.line
  return if res.length ≠ 0 then some (job.workspace, unlines res) else none

end Job

/-- The directories that the jobs leave. -/
def runUnits (verdict : Nat → CrashTest → Option BuggyType) (files : List (Job × List Nat))
    (pmaddr pmsize : Nat) (ops : List Op) (jobs : List Job) : Option (List (Text × Text)) :=
  (jobs.mapM (Job.unit verdict files pmaddr pmsize ops)).map List.reduceOption

/-! ## The analysis -/

/-- `gen_signature_ls`. -/
def Trace.genSignatureLs (trace : Trace) (order : SetOrder Text) (opIdx : Nat) : Option Text :=
  (trace.opsApiRanges[opIdx]?).map fun r =>
    (order.toList ((storesOf (trace.perApi r)).map fun s => s.srcInfo).toFinset).flatMap
      (· ++ [','])

/-- `entry[i].split(':')[-1]`. -/
def lastField (entry : List Text) (i : Nat) : Option Text :=
  (entry[i]?).bind fun e => (e.splitOn ':').getLast?

/-- The numbers of a line of `BUG`: `op_idx`, `store_id` and `store_src_num`. -/
def parseBug (line : Text) : Option (Nat × Nat × Int) := do
  let entry := line.splitOn ','
  let opIdx ← (lastField entry 0).bind (natOfText 10)
  let storeId ← (lastField entry 1).bind (natOfText 10)
  let storeSrcNum ← (lastField entry 2).bind (intOfText 10)
  let _crashInfo ← lastField entry 3
  let _buggyType ← lastField entry 4
  return (opIdx, storeId, storeSrcNum)

/-- `ResAnalyzerLS`: what it loads. -/
structure ResAnalyzerLS where
  opFile : OPFile
  trace : Trace
  srcMapping : Dict Int Text

/-- What `ResAnalyzerLS` collects. -/
structure Analysis where
  /-- By type, signature and index of the operation. -/
  resMap0 : Dict Text (Dict Text (Dict Nat (List Text)))
  /-- By source line of the store. -/
  resMap1 : Dict Text (List Text)
  storeIds : Finset Nat

namespace Analysis

/-- Nothing is collected. -/
def empty : Analysis := ⟨Dict.empty, Dict.empty, ∅⟩

/-- The end of the loop body of `run`. -/
def add (a : Analysis) (opType opSig srcLine fullStr : Text) (opIdx storeId : Nat) : Analysis where
  resMap0 := a.resMap0.set opType
    ((a.resMap0.sub opType).set opSig (((a.resMap0.sub opType).sub opSig).push opIdx fullStr))
  resMap1 := a.resMap1.push srcLine fullStr
  storeIds := insert storeId a.storeIds

/-- What is listed for an operation. -/
def listed (a : Analysis) (opType opSig : Text) (opIdx : Nat) : List Text :=
  ((a.resMap0.sub opType).sub opSig).listAt opIdx

end Analysis

namespace ResAnalyzerLS

/-- `op_file.ops[op_idx][0]`. -/
def opTypeOf (an : ResAnalyzerLS) (opIdx : Nat) : Option Text :=
  (an.opFile.ops[opIdx]?).bind fun op => op.head?.map fun c => [c]

/-- `full_str`. -/
def fullStr (line opType srcLine : Text) : Text :=
  line ++ ",op_type:".toList ++ opType ++ ",src_line:".toList ++ srcLine

/-- The loop body over the lines of a file; with `op_type` and `op_sig`, which are computed if they
are `None` or empty. -/
def step (an : ResAnalyzerLS) (order : SetOrder Text) (st : Analysis × Option Text × Option Text)
    (line : Text) : Option (Analysis × Option Text × Option Text) := do
  let (opIdx, storeId, storeSrcNum) ← parseBug line
  let srcLine ← an.srcMapping.get? storeSrcNum
  let opType ← (st.2.1.filter (· ≠ [])).or (an.opTypeOf opIdx)
  let opSig ← (st.2.2.filter (· ≠ [])).or (an.trace.genSignatureLs order opIdx)
  return (st.1.add opType opSig srcLine (fullStr line opType srcLine) opIdx storeId, some opType,
    some opSig)

/-- The loop body of `run` over the directories. -/
def analyzeDir (an : ResAnalyzerLS) (order : Text → SetOrder Text) (a : Analysis)
    (dir : Text × Text) : Option Analysis :=
  ((terminated '\n' (universalNewlines dir.2)).foldlM (an.step (order dir.1)) (a, none, none)).map
    Prod.fst

/-- `run`, over the directories that have a file `BUG`. -/
def run (an : ResAnalyzerLS) (order : Text → SetOrder Text) (dirs : List (Text × Text)) :
    Option Analysis :=
  dirs.foldlM (an.analyzeDir order) Analysis.empty

end ResAnalyzerLS

/-! ## Reading a line -/

/-- The text has nothing that separates fields or lines. -/
def PlainField (t : Text) : Prop := ',' ∉ t ∧ ':' ∉ t ∧ '\n' ∉ t ∧ '\r' ∉ t

instance (t : Text) : Decidable (PlainField t) := inferInstanceAs (Decidable (_ ∧ _))

theorem plainField_toDigits (n : Nat) : PlainField (Nat.toDigits 10 n) := by
  have hdigit : ∀ c ∈ Nat.toDigits 10 n, c.isDigit = true := fun c hc =>
    Nat.isDigit_of_mem_toDigits (by decide) (by decide) hc
  refine ⟨?_, ?_, ?_, ?_⟩
  all_goals exact fun hc => absurd (hdigit _ hc) (by decide)

theorem BuggyType.plainField_text (b : BuggyType) : PlainField b.text := by cases b <;> decide

namespace Report

variable {r : Report} {id : Nat}

/-- The fields of a line, each with its name. -/
def fields (r : Report) : List (Text × Text) :=
  [("op_idx".toList, Nat.toDigits 10 r.idx), ("store_id".toList, Nat.toDigits 10 r.store.id),
    ("store_src_info".toList, r.store.srcInfo), ("crash_info".toList, Nat.toDigits 10 r.crashInfo),
    ("buggy_type".toList, r.buggyType.text)]

theorem line_eq (r : Report) :
    r.line = [','].intercalate (r.fields.map fun f => f.1 ++ ':' :: f.2) := by
  have hjoin : ∀ a b c d e : Text, a ++ ',' :: (b ++ ',' :: (c ++ ',' :: (d ++ ',' :: e))) =
      [','].intercalate [a, b, c, d, e] := by
    intro a b c d e
    simp [List.intercalate, List.intersperse]
  exact hjoin _ _ _ _ _

theorem plain_fields (hid : r.store.srcInfo = Nat.toDigits 10 id) :
    ∀ f ∈ r.fields, PlainField f.1 ∧ PlainField f.2 := by
  simp only [fields, hid, List.forall_mem_cons, plainField_toDigits, BuggyType.plainField_text,
    and_true]
  decide

theorem splitOn_line (hid : r.store.srcInfo = Nat.toDigits 10 id) :
    r.line.splitOn ',' = r.fields.map fun f => f.1 ++ ':' :: f.2 := by
  rw [line_eq]
  refine List.splitOn_intercalate ',' (fun t ht => ?_) (by simp [fields])
  obtain ⟨f, hf, rfl⟩ := List.mem_map.1 ht
  obtain ⟨hname, hvalue⟩ := plain_fields hid f hf
  simp [hname.1, hvalue.1]

theorem line_plain (hid : r.store.srcInfo = Nat.toDigits 10 id) :
    '\n' ∉ r.line ∧ '\r' ∉ r.line := by
  have hfield : ∀ t ∈ r.fields.map fun f => f.1 ++ ':' :: f.2, '\n' ∉ t ∧ '\r' ∉ t := by
    intro t ht
    obtain ⟨f, hf, rfl⟩ := List.mem_map.1 ht
    obtain ⟨hname, hvalue⟩ := plain_fields hid f hf
    simp [hname.2.2, hvalue.2.2]
  rw [line_eq]
  exact ⟨notMem_intercalate (by decide) fun t ht => (hfield t ht).1,
    notMem_intercalate (by decide) fun t ht => (hfield t ht).2⟩

theorem lastField_line (hid : r.store.srcInfo = Nat.toDigits 10 id) {i : Nat} {f : Text × Text}
    (hf : r.fields[i]? = some f) : lastField (r.line.splitOn ',') i = some f.2 := by
  obtain ⟨hname, hvalue⟩ := plain_fields hid f (List.mem_of_getElem? hf)
  rw [splitOn_line hid, lastField, List.getElem?_map, hf, Option.map_some, Option.bind_some,
    List.splitOn_append_cons_self_of_not_mem hname.2.1, splitOn_of_notMem hvalue.2.1]
  rfl

/-- **The line of a report is read back.** -/
theorem parse_line (hid : r.store.srcInfo = Nat.toDigits 10 id) :
    parseBug r.line = some (r.idx, r.store.id, (id : Int)) := by
  have hnat : ∀ n, natOfText 10 (Nat.toDigits 10 n) = some n := natOfText_toDigits (Or.inl rfl)
  rw [parseBug]
  simp only [lastField_line hid (i := 0) rfl, lastField_line hid (i := 1) rfl,
    lastField_line hid (i := 2) rfl, lastField_line hid (i := 3) rfl,
    lastField_line hid (i := 4) rfl, Option.bind_eq_bind, Option.bind_some, hnat, hid,
    intOfText_of_natOfText (hnat id)]
  rfl

end Report

/-! ## Collecting -/

theorem Analysis.listed_add (a : Analysis) (opType opSig srcLine fullStr : Text)
    (opIdx storeId : Nat) (opType' opSig' : Text) (opIdx' : Nat) :
    (a.add opType opSig srcLine fullStr opIdx storeId).listed opType' opSig' opIdx' =
      a.listed opType' opSig' opIdx' ++
        if opType' = opType ∧ opSig' = opSig ∧ opIdx' = opIdx then [fullStr] else [] := by
  rw [listed, add, Dict.sub_set]
  by_cases htype : opType' = opType
  · subst htype
    rw [if_pos rfl, Dict.sub_set]
    by_cases hsig : opSig' = opSig
    · subst hsig
      rw [if_pos rfl, Dict.listAt_push]
      simp [listed]
    · simp [hsig, listed]
  · simp [htype, listed]

namespace ResAnalyzerLS

variable {an : ResAnalyzerLS}

/-- The source line of a store. -/
def srcOf (an : ResAnalyzerLS) (s : Store) : Text :=
  ((natOfText 10 s.srcInfo).bind fun id => an.srcMapping.get? (id : Int)).getD []

/-- The type of an operation. -/
def typeOf (an : ResAnalyzerLS) (opIdx : Nat) : Text := (an.opTypeOf opIdx).getD []

/-- What is printed for a report. -/
def full (an : ResAnalyzerLS) (r : Report) : Text :=
  fullStr r.line (an.typeOf r.idx) (an.srcOf r.store)

/-- Collect a report. -/
def addReport (an : ResAnalyzerLS) (sigOf : Nat → Text) (a : Analysis) (r : Report) : Analysis :=
  a.add (an.typeOf r.idx) (sigOf r.idx) (an.srcOf r.store) (an.full r) r.idx r.store.id

/-- The number of the store is in the source map. -/
def Mapped (an : ResAnalyzerLS) (s : Store) : Prop :=
  ∃ (id : Nat) (line : Text),
    s.srcInfo = Nat.toDigits 10 id ∧ an.srcMapping.get? (id : Int) = some line

theorem opTypeOf_eq_some {idx : Nat} {op : Text} (hop : an.opFile.ops[idx]? = some op)
    (hne : op ≠ []) :
    an.opTypeOf idx = some (an.typeOf idx) ∧ an.typeOf idx ≠ [] := by
  cases op with
  | nil => exact absurd rfl hne
  | cons c op => simp [typeOf, opTypeOf, hop]

/-- One line, after none or some of the same operation. -/
theorem step_line {order : SetOrder Text} {sigOf : Nat → Text} {r : Report} {a : Analysis}
    {opType opSig : Option Text} (hsrc : an.Mapped r.store)
    (htype : an.opTypeOf r.idx = some (an.typeOf r.idx))
    (hsig : an.trace.genSignatureLs order r.idx = some (sigOf r.idx))
    (hcached : opType = none ∧ opSig = none ∨
      opType = some (an.typeOf r.idx) ∧ opSig = some (sigOf r.idx)) :
    an.step order (a, opType, opSig) r.line =
      some (an.addReport sigOf a r, some (an.typeOf r.idx), some (sigOf r.idx)) := by
  obtain ⟨id, line, hid, hline⟩ := hsrc
  have hsrcOf : an.srcOf r.store = line := by
    simp [srcOf, hid, natOfText_toDigits (Or.inl rfl), hline]
  -- an empty text is computed again, with the same result
  have hor : ∀ (o : Option Text) (t : Text), o = none ∨ o = some t →
      (o.filter (· ≠ [])).or (some t) = some t := by
    rintro o t (rfl | rfl)
    · rfl
    · by_cases ht : t = [] <;> simp [Option.filter, ht]
  rw [step, Report.parse_line hid]
  simp only [Option.bind_eq_bind, Option.bind_some, hline, htype, hsig,
    hor _ _ (hcached.imp And.left And.left), hor _ _ (hcached.imp And.right And.right)]
  rw [addReport, full, hsrcOf]
  rfl

/-- **The file of a directory.** -/
theorem analyzeDir_spec {order : Text → SetOrder Text} {sigOf : Nat → Text} {name : Text}
    {rs : List Report} {idx : Nat} (hrs : ∀ r ∈ rs, r.idx = idx ∧ an.Mapped r.store)
    (htype : an.opTypeOf idx = some (an.typeOf idx))
    (hsig : an.trace.genSignatureLs (order name) idx = some (sigOf idx)) (a : Analysis) :
    an.analyzeDir order a (name, unlines (rs.map Report.line)) =
      some (rs.foldl (an.addReport sigOf) a) := by
  have hplain : ∀ l ∈ rs.map Report.line, '\n' ∉ l ∧ '\r' ∉ l := by
    intro l hl
    obtain ⟨r, hr, rfl⟩ := List.mem_map.1 hl
    obtain ⟨id, _, hid, -⟩ := (hrs r hr).2
    exact Report.line_plain hid
  have hlines : ∀ (rs : List Report), (∀ r ∈ rs, r.idx = idx ∧ an.Mapped r.store) →
      ∀ (a : Analysis) (opType opSig : Option Text), opType = none ∧ opSig = none ∨
        opType = some (an.typeOf idx) ∧ opSig = some (sigOf idx) →
      ((rs.map Report.line).foldlM (an.step (order name)) (a, opType, opSig)).map Prod.fst =
        some (rs.foldl (an.addReport sigOf) a) := by
    intro rs
    induction rs with
    | nil => exact fun _ _ _ _ _ => rfl
    | cons r rs ih =>
      intro hrs a opType opSig hcached
      rw [List.forall_mem_cons] at hrs
      obtain ⟨⟨rfl, hsrc⟩, hrs⟩ := hrs
      rw [List.map_cons, List.foldlM_cons, step_line hsrc htype hsig hcached, List.foldl_cons]
      exact ih hrs _ _ _ (Or.inr ⟨rfl, rfl⟩)
  rw [analyzeDir, terminated_universalNewlines_unlines hplain]
  exact hlines rs hrs a none none (Or.inl ⟨rfl, rfl⟩)

/-- What was collected by source lines, by operations, and of the stores. -/
theorem foldl_addReport (an : ResAnalyzerLS) (sigOf : Nat → Text) (rs : List Report)
    (a : Analysis) :
    (∀ src, (rs.foldl (an.addReport sigOf) a).resMap1.listAt src =
      a.resMap1.listAt src ++ (rs.filter fun r => src = an.srcOf r.store).map an.full) ∧
    (∀ opType opSig idx, (rs.foldl (an.addReport sigOf) a).listed opType opSig idx =
      a.listed opType opSig idx ++ (rs.filter fun r => opType = an.typeOf r.idx ∧
        opSig = sigOf r.idx ∧ idx = r.idx).map an.full) ∧
    ∀ i, i ∈ (rs.foldl (an.addReport sigOf) a).storeIds ↔
      i ∈ a.storeIds ∨ ∃ r ∈ rs, r.store.id = i := by
  induction rs generalizing a with
  | nil => simp
  | cons r rs ih =>
    obtain ⟨hsrc, hop, hids⟩ := ih (an.addReport sigOf a r)
    rw [List.foldl_cons]
    refine ⟨fun src => ?_, fun opType opSig idx => ?_, fun i => ?_⟩
    · rw [hsrc, addReport, Analysis.add, Dict.listAt_push, List.append_assoc, List.filter_cons]
      by_cases h : src = an.srcOf r.store <;> simp [h]
    · rw [hop, addReport, Analysis.listed_add, List.append_assoc, List.filter_cons]
      by_cases h : opType = an.typeOf r.idx ∧ opSig = sigOf r.idx ∧ idx = r.idx
      · simp [h]
      · simp [h]
    · rw [hids, addReport, Analysis.add, Finset.mem_insert, or_comm (a := i = r.store.id), or_assoc,
        List.exists_mem_cons_iff, eq_comm (a := i)]

end ResAnalyzerLS

/-! ## From the trace to the results -/

/-- The directory of a job is known by its API call. -/
theorem Job.idx_of_workspace {job job' : Job} (h : job.workspace = job'.workspace) :
    job.idx = job'.idx := by
  have hhead : ∀ j : Job, (j.workspace.splitOn '-').head? = some (Nat.toDigits 10 j.idx) := by
    intro j
    have hdigit : '-' ∉ Nat.toDigits 10 j.idx := fun hc =>
      absurd (Nat.isDigit_of_mem_toDigits (by decide) (by decide) hc) (by decide)
    rw [workspace, List.splitOn_append_cons_self_of_not_mem hdigit]
    rfl
  have heq := (hhead job).symm.trans (h ▸ hhead job')
  have hnat := congrArg (natOfText 10) (Option.some.inj heq)
  rw [natOfText_toDigits (Or.inl rfl), natOfText_toDigits (Or.inl rfl)] at hnat
  exact Option.some.inj hnat

namespace LSChecker

variable (c : LSChecker) (verdict : Nat → CrashTest → Option BuggyType) (pmaddr pmsize : Nat)

/-- The crashes of an API call that are to be reported. -/
def reportsOf (x : (Nat × Nat) × Nat) : List Report :=
  (bothCases (c.selected x)).filterMap fun s =>
    (crashTest pmaddr pmsize c.trace.ops s).bind fun t =>
      (verdict x.2 t).map fun b => ⟨x.2, t.store, t.crashInfo, b⟩

/-- Those of all calls. -/
def reports : List Report :=
  c.trace.opsApiRanges.zipIdx.flatMap (c.reportsOf verdict pmaddr pmsize)

/-- The directory that is left for an API call. -/
def dirOf (x : (Nat × Nat) × Nat) : Option (Text × Text) :=
  (c.jobOf x).bind fun b =>
    if ((c.reportsOf verdict pmaddr pmsize x).map Report.line).length ≠ 0 then
      some (b.1.workspace, unlines ((c.reportsOf verdict pmaddr pmsize x).map Report.line))
    else none

variable {c verdict pmaddr pmsize}

theorem mem_reportsOf {x : (Nat × Nat) × Nat} {r : Report}
    (hr : r ∈ c.reportsOf verdict pmaddr pmsize x) : r.idx = x.2 ∧ r.store ∈ c.selected x := by
  obtain ⟨⟨s, k⟩, hs, hr⟩ := List.mem_filterMap.1 hr
  obtain ⟨t, ht, hr⟩ := Option.bind_eq_some_iff.1 hr
  obtain ⟨b, -, rfl⟩ := Option.map_eq_some_iff.1 hr
  obtain ⟨img, -, rfl⟩ := Option.map_eq_some_iff.1 ht
  obtain ⟨s', hs', hmem⟩ := List.mem_flatMap.1 hs
  simp only [List.mem_cons, Prod.mk.injEq, List.not_mem_nil, or_false] at hmem
  rcases hmem with ⟨rfl, -⟩ | ⟨rfl, -⟩ <;> exact ⟨rfl, hs'⟩

/-- What the validator of a job reports. -/
theorem failures_testsOf (x : (Nat × Nat) × Nat) :
    failures verdict x.2 (c.testsOf pmaddr pmsize x) = c.reportsOf verdict pmaddr pmsize x := by
  rw [failures, testsOf, List.filterMap_filterMap]
  rfl

/-- The directories of the jobs. -/
theorem runUnits_resultOf (hops : Replayable pmaddr pmsize c.trace.ops) :
    runUnits verdict (c.resultOf c.trace.opsApiRanges.zipIdx).files pmaddr pmsize c.trace.ops
        (c.resultOf c.trace.opsApiRanges.zipIdx).jobs =
      some (c.trace.opsApiRanges.zipIdx.filterMap (c.dirOf verdict pmaddr pmsize)) := by
  have hunit : ∀ x ∈ c.trace.opsApiRanges.zipIdx, ∀ b, c.jobOf x = some b →
      b.1.unit verdict (c.resultOf c.trace.opsApiRanges.zipIdx).files pmaddr pmsize c.trace.ops =
        some (c.dirOf verdict pmaddr pmsize x) := by
    intro x hx b hjob
    rw [Job.unit, validator_of_jobOf hx hjob, Option.bind_eq_bind, Option.bind_some,
      (run_job hops hjob).1, Option.bind_eq_bind, Option.bind_some, idx_of_jobOf hjob,
      failures_testsOf, dirOf, hjob]
    rfl
  rw [runUnits, show (c.resultOf c.trace.opsApiRanges.zipIdx).jobs =
      (c.trace.opsApiRanges.zipIdx.filterMap c.jobOf).map Prod.fst from rfl, mapM_jobs hunit,
    Option.map_some, List.reduceOption, List.filterMap_filterMap]
  refine congrArg some (List.filterMap_congr fun x _ => ?_)
  cases hjob : c.jobOf x with
  | none => simp [dirOf, hjob]
  | some b => rfl

/-- No two directories have the same name. -/
theorem nodup_dirs :
    ((c.trace.opsApiRanges.zipIdx.filterMap (c.dirOf verdict pmaddr pmsize)).map
      Prod.fst).Nodup := by
  have hidx : (c.trace.opsApiRanges.zipIdx.map Prod.snd).Nodup := by
    rw [List.zipIdx_map_snd]
    exact List.nodup_range'
  rw [List.Nodup, List.pairwise_map, List.pairwise_filterMap]
  refine (List.pairwise_map.1 hidx).imp fun {x y} hne d hd d' hd' heq => hne ?_
  obtain ⟨b, hb, hd⟩ := Option.bind_eq_some_iff.1 hd
  obtain ⟨b', hb', hd'⟩ := Option.bind_eq_some_iff.1 hd'
  rw [Option.ite_none_right_eq_some] at hd hd'
  cases hd.2
  cases hd'.2
  rw [← idx_of_jobOf hb, ← idx_of_jobOf hb']
  exact Job.idx_of_workspace heq

end LSChecker

namespace ResAnalyzerLS

variable {c : LSChecker} {an : ResAnalyzerLS} {verdict : Nat → CrashTest → Option BuggyType}
  {pmaddr pmsize : Nat}

/-- What the analysis needs to know about the operations and the stores of a trace. -/
structure Covers (an : ResAnalyzerLS) (trace : Trace) : Prop where
  trace_eq : an.trace = trace
  op : ∀ idx < trace.opsApiRanges.length, ∃ op, an.opFile.ops[idx]? = some op ∧ op ≠ []
  src : ∀ s ∈ storesOf trace.ops, an.Mapped s

/-- The signature under which the reports of an operation are listed. -/
def sigOf (an : ResAnalyzerLS) (c : LSChecker) (verdict : Nat → CrashTest → Option BuggyType)
    (pmaddr pmsize : Nat) (order : Text → SetOrder Text) (idx : Nat) : Text :=
  ((c.trace.opsApiRanges[idx]?).bind fun r => (c.dirOf verdict pmaddr pmsize (r, idx)).bind fun d =>
    an.trace.genSignatureLs (order d.1) idx).getD []

/-- **Some directories**, in any order. -/
theorem run_dirs (han : an.Covers c.trace) (order : Text → SetOrder Text)
    {dirs : List (Text × Text)} {xs : List ((Nat × Nat) × Nat)}
    (hxs : ∀ x ∈ xs, x ∈ c.trace.opsApiRanges.zipIdx)
    (hdirs : List.Forall₂ (fun d x => c.dirOf verdict pmaddr pmsize x = some d) dirs xs)
    (a : Analysis) :
    dirs.foldlM (an.analyzeDir order) a =
      some ((xs.flatMap (c.reportsOf verdict pmaddr pmsize)).foldl
        (an.addReport (an.sigOf c verdict pmaddr pmsize order)) a) := by
  induction hdirs generalizing a with
  | nil => rfl
  | @cons d x dirs xs hd _ ih =>
    rw [List.forall_mem_cons] at hxs
    obtain ⟨r, idx⟩ := x
    have hr : c.trace.opsApiRanges[idx]? = some r := List.mem_zipIdx_iff_getElem?.1 hxs.1
    obtain ⟨op, hop, hne⟩ := han.op idx (List.getElem?_eq_some_iff.1 hr).1
    obtain ⟨b, hb, hd'⟩ := Option.bind_eq_some_iff.1 hd
    rw [Option.ite_none_right_eq_some] at hd'
    obtain ⟨-, hd'⟩ := hd'
    cases hd'
    have hsig : an.trace.genSignatureLs (order b.1.workspace) idx =
        some (an.sigOf c verdict pmaddr pmsize order idx) := by
      rw [sigOf, hr, Option.bind_some, hd, Option.bind_some, han.trace_eq, Trace.genSignatureLs, hr]
      rfl
    rw [List.foldlM_cons, List.flatMap_cons, List.foldl_append,
      analyzeDir_spec (fun r hr => ?_) (opTypeOf_eq_some hop hne).1 hsig]
    · exact ih hxs.2 _
    · obtain ⟨hidx, hstore⟩ := LSChecker.mem_reportsOf hr
      exact ⟨hidx, han.src _ ((c.selected_sublist _).subset hstore)⟩

/-- Where no directory is left there is nothing to report. -/
theorem reportsOf_eq_nil {x : (Nat × Nat) × Nat} (h : c.dirOf verdict pmaddr pmsize x = none) :
    c.reportsOf verdict pmaddr pmsize x = [] := by
  cases hjob : c.jobOf x with
  | none =>
    rw [LSChecker.reportsOf, LSChecker.selected_eq_nil hjob]
    rfl
  | some b =>
    by_contra hne
    rw [LSChecker.dirOf, hjob, Option.bind_some, if_pos (by simpa using hne)] at h
    cases h

/-- The directories that are found belong to API calls, whose reports are all that there are. -/
theorem exists_calls {dirs : List (Text × Text)} (h : dirs.Perm
      (c.trace.opsApiRanges.zipIdx.filterMap (c.dirOf verdict pmaddr pmsize))) :
    ∃ xs, (∀ x ∈ xs, x ∈ c.trace.opsApiRanges.zipIdx) ∧
      List.Forall₂ (fun d x => c.dirOf verdict pmaddr pmsize x = some d) dirs xs ∧
      (xs.flatMap (c.reportsOf verdict pmaddr pmsize)).Perm (c.reports verdict pmaddr pmsize) := by
  have hall : ∀ ys : List ((Nat × Nat) × Nat), List.Forall₂
      (fun d x => c.dirOf verdict pmaddr pmsize x = some d)
      (ys.filterMap (c.dirOf verdict pmaddr pmsize))
      (ys.filter fun x => (c.dirOf verdict pmaddr pmsize x).isSome) ∧
      (ys.filter fun x => (c.dirOf verdict pmaddr pmsize x).isSome).flatMap
        (c.reportsOf verdict pmaddr pmsize) = ys.flatMap (c.reportsOf verdict pmaddr pmsize) := by
    intro ys
    induction ys with
    | nil => exact ⟨.nil, rfl⟩
    | cons x ys ih =>
      cases hdir : c.dirOf verdict pmaddr pmsize x with
      | none =>
        rw [List.filterMap_cons_none hdir, List.filter_cons_of_neg (by simp [hdir]),
          List.flatMap_cons, reportsOf_eq_nil hdir]
        exact ih
      | some d =>
        rw [List.filterMap_cons_some hdir, List.filter_cons_of_pos (by simp [hdir]),
          List.flatMap_cons, List.flatMap_cons, ih.2]
        exact ⟨.cons hdir ih.1, rfl⟩
  obtain ⟨xs, hdirs, hperm⟩ := List.perm_comp_forall₂ h (hall c.trace.opsApiRanges.zipIdx).1
  refine ⟨xs, fun x hx => (List.mem_filter.1 (hperm.subset hx)).1, hdirs, ?_⟩
  rw [LSChecker.reports, ← (hall c.trace.opsApiRanges.zipIdx).2]
  exact hperm.flatMap_right _

/-- **The results of the phase.**  If no API call reaches the threshold, the jobs leave directories
with different names, and whatever the order in which the analysis finds them, it raises no
exception.  A report is listed once under the source line of its store and once under its operation,
for each selected store and each case in which its crash image does not pass, and for nothing else.
The stores counted as inconsistent are those with such an image; they are no more than the selected
ones. -/
theorem results_spec {onlyPersist : Bool} {entries : List Text}
    (htrace : Trace.extractOperations onlyPersist entries = some c.trace)
    (hsmall : c.BelowThreshold) (hline : ∀ s ∈ storesOf c.trace.ops, s.InLine)
    (hfile : ∀ s ∈ storesOf c.trace.ops, (BinaryFile.zero pmaddr pmsize).InFile s)
    (han : an.Covers c.trace) (verdict : Nat → CrashTest → Option BuggyType)
    (order : Text → SetOrder Text) :
    ∃ res dirs, c.initJobs = some res ∧
      runUnits verdict res.files pmaddr pmsize c.trace.ops res.jobs = some dirs ∧
      (dirs.map Prod.fst).Nodup ∧
      ∀ dirs', dirs'.Perm dirs → ∃ a, an.run order dirs' = some a ∧
        (∀ src, (a.resMap1.listAt src).Perm
          (((c.reports verdict pmaddr pmsize).filter fun r => src = an.srcOf r.store).map
            an.full)) ∧
        (∀ opType opSig idx, (a.listed opType opSig idx).Perm
          (((c.reports verdict pmaddr pmsize).filter fun r => opType = an.typeOf r.idx ∧
            opSig = an.sigOf c verdict pmaddr pmsize order r.idx ∧ idx = r.idx).map an.full)) ∧
        (∀ i, i ∈ a.storeIds ↔ ∃ r ∈ c.reports verdict pmaddr pmsize, r.store.id = i) ∧
        a.storeIds.card ≤ res.totalLps := by
  refine ⟨_, _, LSChecker.initJobs_eq hsmall,
    LSChecker.runUnits_resultOf ⟨map_id_of_trace htrace, hline, hfile⟩, LSChecker.nodup_dirs,
    fun dirs' hperm => ?_⟩
  obtain ⟨xs, hxs, hdirs, hreports⟩ := exists_calls hperm
  obtain ⟨hsrc, hop, hstores⟩ := foldl_addReport an (an.sigOf c verdict pmaddr pmsize order)
    (xs.flatMap (c.reportsOf verdict pmaddr pmsize)) Analysis.empty
  refine ⟨_, run_dirs han order hxs hdirs Analysis.empty, fun src => ?_, fun opType opSig idx => ?_,
    fun i => ?_, ?_⟩
  · rw [hsrc]
    exact (hreports.filter _).map _
  · rw [hop]
    exact (hreports.filter _).map _
  · rw [hstores]
    simp [Analysis.empty, hreports.mem_iff]
  · have hsub : (List.foldl (an.addReport (an.sigOf c verdict pmaddr pmsize order)) Analysis.empty
        (xs.flatMap (c.reportsOf verdict pmaddr pmsize))).storeIds ⊆
        ((c.trace.opsApiRanges.zipIdx.flatMap c.selected).map fun s => s.id).toFinset := by
      intro i hi
      obtain ⟨r, hr, rfl⟩ := ((hstores i).1 hi).resolve_left (Finset.notMem_empty i)
      obtain ⟨x, hx, hr⟩ := List.mem_flatMap.1 hr
      exact List.mem_toFinset.2 (List.mem_map_of_mem
        (List.mem_flatMap.2 ⟨x, hxs x hx, (LSChecker.mem_reportsOf hr).2⟩))
    refine (Finset.card_le_card hsub).trans ((List.toFinset_card_le _).trans_eq ?_)
    rw [List.length_map, List.length_flatMap]
    rfl

/-- The op file and the source lines of the two calls. -/
def twoCallsAnalyzer (trace : Trace) : ResAnalyzerLS where
  opFile := ⟨["i;1;2;".toList, "g;1;".toList]⟩
  trace := trace
  srcMapping := (Dict.empty.set 3 "a.c:9".toList).set 6 "a.c:12".toList

theorem results_spec_twoCallsStores :
    ∃ trace res dirs a, Trace.extractOperations true LSChecker.twoCallsStores = some trace ∧
      (LSChecker.mk trace 0 0 [] []).initJobs = some res ∧
      runUnits (fun _ _ => some .noOutFile) res.files 0 1 trace.ops res.jobs = some dirs ∧
      (twoCallsAnalyzer trace).run (fun _ => default) dirs.reverse = some a ∧
      a.storeIds.card ≤ res.totalLps := by
  obtain ⟨trace, htrace, hsmall, hline, hfile, -, hranges, hsrcs⟩ := LSChecker.exists_twoCallsStores
  have hcovers : (twoCallsAnalyzer trace).Covers trace := by
    refine ⟨rfl, fun idx hidx => ?_, fun s hs => ?_⟩
    · obtain rfl | rfl : idx = 0 ∨ idx = 1 := by omega
      · exact ⟨_, rfl, by decide⟩
      · exact ⟨_, rfl, by decide⟩
    · rcases hsrcs s hs with h | h
      · exact ⟨3, _, h, rfl⟩
      · exact ⟨6, _, h, rfl⟩
  obtain ⟨res, dirs, hres, hdirs, -, hall⟩ :=
    results_spec (c := LSChecker.mk trace 0 0 [] []) htrace hsmall hline hfile hcovers
      (fun _ _ => some .noOutFile) fun _ => default
  obtain ⟨a, ha, -, -, -, hcard⟩ := hall dirs.reverse dirs.reverse_perm
  exact ⟨trace, res, dirs, a, htrace, hres, hdirs, ha, hcard⟩

end ResAnalyzerLS

end Durinn
