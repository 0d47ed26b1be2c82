import Durinn.Oracle.Validate

/-!
# The queue oracles

The model of `lib/op_file_q.py`.  The op file has lines `E;value;` and `D;`.  For a queue the
validators keep the queues that may have been recovered, dequeue as many elements as the
shortest of them has and compare each with the elements that the queues have there; then they
enqueue ten times `999`, dequeue two elements without looking at them, since so many may have
been left over, and expect eight times `999`.

* `queue_no_false_alarm` — whatever legal queue was recovered, a correct FIFO driver never
  dequeues from an empty queue, and no bug is reported.
-/

namespace Durinn

open PyText OPValidator

/-! ## Operations and lines -/

/-- An operation on a queue. -/
inductive QueueOp where
  | enq (v : Value)
  | deq

/-- A line of the op file. -/
abbrev QueueLine := LineOf QueueOp

/-- The text of the line. -/
def QueueLine.text (l : QueueLine) : Text :=
  match l.op with
  | .enq v => 'E' :: ';' :: (v.1 ++ ';' :: l.rest)
  | .deq => 'D' :: ';' :: l.rest

/-- The operation on a queue; a dequeue on an empty queue changes nothing. -/
def QueueOp.apply (op : QueueOp) (q : List Text) : List Text :=
  match op with
  | .enq v => q ++ [v.1]
  | .deq => q.tail

/-- The queue after some operations, from the empty queue. -/
def queueAfter (lines : List QueueLine) : List Text := lines.foldl (fun q l => l.op.apply q) []

theorem queueAfter_append_singleton (lines : List QueueLine) (l : QueueLine) :
    queueAfter (lines ++ [l]) = l.op.apply (queueAfter lines) := by
  simp [queueAfter]

/-- Does the queue hold values only? -/
def HoldsValues (q : List Text) : Prop := ∀ t ∈ q, ∃ v : Value, t = v.1

theorem HoldsValues.apply {q : List Text} (h : HoldsValues q) (op : QueueOp) :
    HoldsValues (op.apply q) := by
  cases op with
  | enq v =>
    intro t ht
    rcases List.mem_append.1 ht with ht | ht
    · exact h t ht
    · exact ⟨v, List.mem_singleton.1 ht⟩
  | deq =>
    intro t ht
    exact h t (List.mem_of_mem_tail ht)

theorem holdsValues_queueAfter (lines : List QueueLine) : HoldsValues (queueAfter lines) := by
  induction lines using List.reverseRecOn with
  | nil => simp [HoldsValues, queueAfter]
  | append_singleton lines l ih =>
    rw [queueAfter_append_singleton]
    exact ih.apply l.op

/-- The types of operations. -/
inductive QueueOpType where
  | enq
  | deq
  deriving DecidableEq, Repr

/-- The comparisons of `op_type` with `'E'` and `'D'`. -/
def queueOpType (t : Text) : Option QueueOpType :=
  if t = ['E'] then some .enq else if t = ['D'] then some .deq else none

/-- What `split` makes of a line. -/
theorem QueueLine.entriesOf_text (l : QueueLine) :
    entriesOf l.text =
      match l.op with
      | .enq v => ['E'] :: v.1 :: entriesOf l.rest
      | .deq => ['D'] :: entriesOf l.rest := by
  unfold QueueLine.text
  split
  · rename_i v _
    rw [entriesOf_type (by decide), entriesOf_append v.no_semicolon]
  · rw [entriesOf_type (by decide)]

theorem QueueLine.line (l : QueueLine) : '\n' ∉ l.text := by
  have hrest := l.rest_line
  unfold QueueLine.text
  split
  · rename_i v _
    simp [v.line, hrest]
  · simp [hrest]

/-! ## The validators -/

/-- `PrefixOPFileQueue`. -/
structure PrefixOPFileQueue where
  ops : List Text

namespace PrefixOPFileQueue

/-- `PrefixOPFileQueue.__init__`, on the contents of the file. -/
def new (content : Text) : PrefixOPFileQueue := ⟨terminated '\n' content⟩

/-- The loop body of `PrefixOPFileQueue.gen_model`. -/
def genModelStep (model : List Text) (op : Text) : Option (List Text) := do
  let entries := entriesOf op
  let ty ← entries[0]?
  match queueOpType ty with
  | some .enq => do
      let opVal ← entries[1]?
      return model ++ [opVal]
  | some .deq => return if 0 < model.length then model.drop 1 else model
  | none => none

/-- `PrefixOPFileQueue.gen_model`. -/
def genModel (f : PrefixOPFileQueue) : Option (List Text) := f.ops.foldlM genModelStep []

end PrefixOPFileQueue

/-- `RaceOPFileQueue`: the two lines, the recorded output, and the type of the race. -/
structure RaceOPFileQueue where
  ops : List Text
  outputs : List Text
  raceType : Text
  firstOpDone : Bool

namespace RaceOPFileQueue

/-- `RaceOPTypeQueue.init_type`. -/
def initType (ops : List Text) : Option Text := do
  let ty₀ ← (entriesOf (← ops[0]?))[0]?
  let ty₁ ← (entriesOf (← ops[1]?))[0]?
  return ty₀ ++ ty₁

/-- `RaceOPFileQueue.__init__`, on the contents of the two files, with its two assertions. -/
def new (opFile outputFile : Text) (firstOpDone : Bool) : Option RaceOPFileQueue := do
  let ops := terminated '\n' opFile
  let outputs := terminated '\n' outputFile
  if ops.length = 2 ∧ outputs.length = 1 then
    let raceType ← initType ops
    return ⟨ops, outputs, raceType, firstOpDone⟩
  else none

/-- `RaceOPFileQueue.gen_model`: the queues to compare with. -/
def genModel (f : RaceOPFileQueue) (model : List Text) : Option (List (List Text)) := do
  let ty₀ ← (entriesOf (← f.ops[0]?))[0]?
  let ty₁ ← (entriesOf (← f.ops[1]?))[0]?
  match queueOpType ty₀, queueOpType ty₁ with
  | some .enq, some .enq => return [model]
  | some .deq, some .deq => return [model.drop 1, model.drop 2]
  | some .enq, some .deq => return [model.drop 1]
  | some .deq, some .enq => return [model, model.drop 1]
  | _, _ => none

end RaceOPFileQueue

/-- `OPValidatorQueue`. -/
structure OPValidatorQueue where
  prefixOpFile : PrefixOPFileQueue
  raceOpFile : RaceOPFileQueue
  needDel : Bool

/-- `'D;'`. -/
def deqLine : Text := ['D', ';']

/-- `'E;999;'`. -/
def enqLine : Text := ['E', ';', '9', '9', '9', ';']

/-- The value that is enqueued. -/
def marker : Value := ⟨['9', '9', '9'], by simp⟩

namespace OPValidatorQueue

/-- `OPValidatorQueue.__init__`, on the contents of the three files. -/
def new (prefixOpFile raceOpFile raceOutputFile : Text) (needDel firstOpDone : Bool) :
    Option OPValidatorQueue :=
  (RaceOPFileQueue.new raceOpFile raceOutputFile firstOpDone).map fun race =>
    ⟨PrefixOPFileQueue.new prefixOpFile, race, needDel⟩

/-- `OPValidatorQueue.gen_model`. -/
def genModel (v : OPValidatorQueue) : Option (List (List Text)) :=
  v.prefixOpFile.genModel.bind v.raceOpFile.genModel

/-- `min_l`: the length of the shortest queue, -1 if there are none. -/
def minL (models : List (List Text)) : Int :=
  models.foldl (fun l model =>
    let l := if l = -1 then (model.length : Int) else l
    if model.length < l then (model.length : Int) else l) (-1)

/-- The oracle for the element `i`: `'!!!' + model[i]` for every queue, without the first
`'!!!'`; `none` is an `IndexError`. -/
def oracleAt (models : List (List Text)) (i : Nat) : Option Text :=
  (models.mapM fun model => model[i]?).map fun elems =>
    (elems.flatMap fun elem => magic ++ elem).drop 3

/-- `OPValidatorQueue.gen_val_input_and_oracle`: the lines of `val_inputs`, each with its line
of `val_oracles`. -/
def genValInputAndOracle (models : List (List Text)) : Option (List (Text × Text)) := do
  let oracles ← (List.range (minL models).toNat).mapM (oracleAt models)
  return (oracles.map fun oracle => (deqLine, oracle)) ++
    List.replicate 10 (enqLine, []) ++ List.replicate 2 (deqLine, magicAny) ++
    List.replicate 8 (deqLine, marker.1)

end OPValidatorQueue

namespace LSOPValidatorQueue

/-- The loop body of `LSOPValidatorQueue.gen_model`, on the queue and the queues to compare
with, and on a line and its index. -/
def genModelStep (lsOpIdx : Nat) (st : List Text × List (List Text)) (x : Text × Nat) :
    Option (List Text × List (List Text)) := do
  let entries := entriesOf x.1
  let ty ← entries[0]?
  match queueOpType ty with
  | some .enq => do
      let opVal ← entries[1]?
      return if x.2 ≠ lsOpIdx then (st.1 ++ [opVal], st.2) else (st.1, st.2 ++ [st.1])
  | some .deq =>
      if x.2 ≠ lsOpIdx then return if 0 < st.1.length then (st.1.drop 1, st.2) else st
      else return (st.1, st.2 ++ [st.1, st.1.drop 1])
  | none => none

/-- `LSOPValidatorQueue.gen_model`: the loop ends after the operation in flight. -/
def genModel (ops : List Text) (lsOpIdx : Nat) : Option (List (List Text)) :=
  ((ops.take (lsOpIdx + 1)).zipIdx.foldlM (genModelStep lsOpIdx) ([], [])).map Prod.snd

end LSOPValidatorQueue

/-- A correct FIFO driver, on one line: an enqueue prints an empty line, a dequeue the value it
removes.  A dequeue from an empty queue is `none`. -/
def queueDriver (q : List Text) (line : Text) : Option (List Text × Text) :=
  let entries := entriesOf line
  match entries[0]?.bind queueOpType with
  | some .enq => entries[1]?.map fun v => (q ++ [v], [])
  | some .deq => q.head?.map fun v => (q.tail, v)
  | none => none

/-! ## What the driver prints -/

theorem checks_deqs {oracles elems : List Text} (h : List.Forall₂ Passes oracles elems)
    (hprev : ∀ oracle ∈ oracles, '%' ∉ oracle) (hline : ∀ elem ∈ elems, '\n' ∉ elem)
    (rest : List Text) :
    Checks queueDriver (elems ++ rest) (oracles.map fun oracle => (deqLine, oracle)) rest True := by
  induction h with
  | nil => exact Checks.nil rest
  | @cons oracle elem oracles elems hpass _ ih =>
    have htail := ih (fun o ho => hprev o (List.mem_cons_of_mem oracle ho))
      fun x hx => hline x (List.mem_cons_of_mem elem hx)
    have hstep : queueDriver (elem :: (elems ++ rest)) deqLine = some (elems ++ rest, elem) := rfl
    exact (htail.cons hstep (hline elem List.mem_cons_self) (hprev oracle List.mem_cons_self)
      (iff_true_intro hpass)).congr (and_self_iff)

theorem checks_enqs (n : Nat) (q : List Text) :
    Checks queueDriver q (List.replicate n (enqLine, [])) (q ++ List.replicate n marker.1)
      True := by
  induction n generalizing q with
  | zero => simpa using Checks.nil q
  | succ n ih =>
    have hstep : queueDriver q enqLine = some (q ++ [marker.1], []) := rfl
    have htail := ih (q ++ [marker.1])
    rw [List.append_assoc, List.singleton_append, ← List.replicate_succ] at htail
    rw [List.replicate_succ (a := (enqLine, []))]
    exact (htail.cons hstep (by simp) (by simp) (iff_true_intro (passes_nil _))).congr
      (and_self_iff)

/-- Two elements that are not looked at make room for what may be left over. -/
theorem exists_two_left {rest : List Text} (hlen : rest.length ≤ 2) (hvals : HoldsValues rest) :
    ∃ elems, elems.length = 2 ∧ HoldsValues elems ∧ rest ++ List.replicate 10 marker.1 =
      elems ++ (List.replicate 8 marker.1 ++ List.replicate rest.length marker.1) := by
  have hmarker : ∃ v : Value, marker.1 = v.1 := ⟨marker, rfl⟩
  match rest, hlen, hvals with
  | [], _, _ =>
    refine ⟨[marker.1, marker.1], rfl, ?_, rfl⟩
    simp [HoldsValues, hmarker]
  | [x], _, hvals =>
    refine ⟨[x, marker.1], rfl, ?_, rfl⟩
    simpa [HoldsValues, hmarker] using hvals
  | [x, y], _, hvals => exact ⟨[x, y], rfl, hvals, rfl⟩

theorem HoldsValues.line {q : List Text} (h : HoldsValues q) : ∀ t ∈ q, '\n' ∉ t := by
  intro t ht
  obtain ⟨v, rfl⟩ := h t ht
  exact v.line

/-- The part of `val_inputs` that does not depend on the op file passes if at most two elements
are left in the queue. -/
theorem checks_refill {rest : List Text} (hlen : rest.length ≤ 2) (hvals : HoldsValues rest) :
    ∃ q', Checks queueDriver rest (List.replicate 10 (enqLine, []) ++
      List.replicate 2 (deqLine, magicAny) ++ List.replicate 8 (deqLine, marker.1)) q' True := by
  obtain ⟨elems, htwo, helems, hsplit⟩ := exists_two_left hlen hvals
  have henqs := checks_enqs 10 rest
  rw [hsplit] at henqs
  have hany : Checks queueDriver
      (elems ++ (List.replicate 8 marker.1 ++ List.replicate rest.length marker.1))
      ((List.replicate 2 magicAny).map fun oracle => (deqLine, oracle))
      (List.replicate 8 marker.1 ++ List.replicate rest.length marker.1) True := by
    apply checks_deqs
    · rw [List.forall₂_iff_zip]
      refine ⟨by simp [htwo], ?_⟩
      intro oracle elem hmem
      rw [(List.mem_replicate.1 (List.of_mem_zip hmem).1).2]
      exact passes_magicAny elem
    · simp [magicAny]
    · exact helems.line
  have hmarkers : Checks queueDriver
      (List.replicate 8 marker.1 ++ List.replicate rest.length marker.1)
      ((List.replicate 8 marker.1).map fun oracle => (deqLine, oracle))
      (List.replicate rest.length marker.1) True := by
    apply checks_deqs
    · rw [List.forall₂_same]
      intro t ht
      rw [(List.mem_replicate.1 ht).2]
      exact marker.plain.passes_iff.2 rfl
    · intro t ht
      rw [(List.mem_replicate.1 ht).2]
      exact marker.plain.no_prev
    · intro t ht
      rw [(List.mem_replicate.1 ht).2]
      exact marker.line
  rw [List.map_replicate] at hany hmarkers
  exact ⟨_, ((henqs.append hany).append hmarkers).congr (by simp)⟩

/-! ## The common part of the queues -/

namespace OPValidatorQueue

theorem minL_singleton (m : List Text) : (minL [m]).toNat = m.length := by
  simp [minL]

theorem minL_pair (m m' : List Text) : (minL [m, m']).toNat = min m.length m'.length := by
  have hne : (m.length : Int) ≠ -1 := by omega
  simp only [minL, List.foldl_cons, List.foldl_nil, if_true, lt_irrefl, if_false, hne]
  split <;> omega

/-- The elements at a place that all queues have. -/
def elemsAt (models : List (List Text)) (i : Nat) : List Text := models.map fun m => m.getD i []

/-- The probes, when all queues are at least `n` long. -/
theorem genValInputAndOracle_eq {models : List (List Text)} {n : Nat}
    (hmin : (minL models).toNat = n) (hlen : ∀ m ∈ models, n ≤ m.length) :
    genValInputAndOracle models =
      some (((List.range n).map fun i => (deqLine, magic.intercalate (elemsAt models i))) ++
        (List.replicate 10 (enqLine, []) ++ List.replicate 2 (deqLine, magicAny) ++
          List.replicate 8 (deqLine, marker.1))) := by
  have horacles : (List.range n).mapM (oracleAt models) =
      some ((List.range n).map fun i => magic.intercalate (elemsAt models i)) := by
    apply Runs.mapM_eq_some
    intro i hi
    have helems : (models.mapM fun m => m[i]?) = some (elemsAt models i) := by
      apply Runs.mapM_eq_some
      intro m hm
      have hi' : i < m.length := Nat.lt_of_lt_of_le (List.mem_range.1 hi) (hlen m hm)
      rw [List.getElem?_eq_getElem hi', List.getD_eq_getElem m [] hi']
    have hdrop : ((elemsAt models i).flatMap fun elem => magic ++ elem).drop 3 =
        magic.intercalate (elemsAt models i) := drop_flatMap_sep magic _
    rw [oracleAt, helems, Option.map_some, hdrop]
  simp only [genValInputAndOracle, hmin, horacles, Option.bind_eq_bind, Option.bind_some,
    List.map_map, List.append_assoc]
  rfl

/-- The queue is one of the models and at most so many elements more than the shortest that the
two dequeues which are not looked at suffice. -/
def Fits (models : List (List Text)) (q : List Text) : Prop :=
  ∃ m ∈ models, ∃ extra, q = m ++ extra ∧ q.length ≤ (minL models).toNat + 2

theorem take_eq_map_getD {q : List Text} {n : Nat} (h : n ≤ q.length) :
    q.take n = (List.range n).map fun i => q.getD i [] := by
  apply List.ext_getElem
  · simp [h]
  · intro i h₁ h₂
    have hi : i < q.length := by
      rw [List.length_map, List.length_range] at h₂
      omega
    simp [hi]

theorem plain_elemsAt {models : List (List Text)} (hvals : ∀ m ∈ models, HoldsValues m) {n : Nat}
    (hlen : ∀ m ∈ models, n ≤ m.length) : ∀ i < n, ∀ t ∈ elemsAt models i, Plain t := by
  intro i hi t ht
  obtain ⟨m, hm, rfl⟩ := List.mem_map.1 ht
  have hi' : i < m.length := Nat.lt_of_lt_of_le hi (hlen m hm)
  obtain ⟨v, hv⟩ := hvals m hm _ (List.getElem_mem hi')
  show Plain (m.getD i [])
  rw [List.getD_eq_getElem m [] hi', hv]
  exact v.plain

/-- The first elements of the queue are, place by place, elements that some of the models have
there. -/
def Matches (models : List (List Text)) (q : List Text) : Prop :=
  (minL models).toNat ≤ q.length ∧ ∀ i < (minL models).toNat, q.getD i [] ∈ elemsAt models i

/-- **Queues that match pass**, if at most two elements follow. -/
theorem checks_of_matches {models : List (List Text)} (hvals : ∀ m ∈ models, HoldsValues m)
    (hlen : ∀ m ∈ models, (minL models).toNat ≤ m.length) :
    ∃ probes, genValInputAndOracle models = some probes ∧
      ∀ q, Matches models q → q.length ≤ (minL models).toNat + 2 → HoldsValues q →
        ∃ q', Checks queueDriver q probes q' True := by
  refine ⟨_, genValInputAndOracle_eq rfl hlen, ?_⟩
  rintro q ⟨hn, helems⟩ hfit hq
  have hplain := plain_elemsAt hvals hlen
  generalize (minL models).toNat = n at *
  have hsplit : q = (List.range n).map (fun i => q.getD i []) ++ q.drop n := by
    rw [← take_eq_map_getD hn, List.take_append_drop]
  have hrest : (q.drop n).length ≤ 2 := by
    rw [List.length_drop]
    omega
  obtain ⟨q', hrefill⟩ := checks_refill hrest fun t ht => hq t (List.mem_of_mem_drop ht)
  have hdeqs : Checks queueDriver ((List.range n).map (fun i => q.getD i []) ++ q.drop n)
      (((List.range n).map fun i => magic.intercalate (elemsAt models i)).map
        fun oracle => (deqLine, oracle)) (q.drop n) True := by
    apply checks_deqs
    · rw [List.forall₂_map_left_iff, List.forall₂_map_right_iff, List.forall₂_same]
      intro i hi
      have hmem := helems i (List.mem_range.1 hi)
      exact (passes_intercalate (List.ne_nil_of_mem hmem) (hplain i (List.mem_range.1 hi))).2 hmem
    · intro oracle horacle
      obtain ⟨i, hi, rfl⟩ := List.mem_map.1 horacle
      exact Plain.no_prev_intercalate (hplain i (List.mem_range.1 hi))
    · intro t ht
      rw [← take_eq_map_getD hn] at ht
      exact hq.line t (List.mem_of_mem_take ht)
  rw [← hsplit, List.map_map] at hdeqs
  exact ⟨q', (hdeqs.append hrefill).congr (by simp)⟩

/-- **Queues that fit pass.** -/
theorem checks_of_fits {models : List (List Text)} (hvals : ∀ m ∈ models, HoldsValues m)
    (hlen : ∀ m ∈ models, (minL models).toNat ≤ m.length) :
    ∃ probes, genValInputAndOracle models = some probes ∧
      ∀ q, Fits models q → HoldsValues q → ∃ q', Checks queueDriver q probes q' True := by
  obtain ⟨probes, hprobes, hpass⟩ := checks_of_matches hvals hlen
  refine ⟨probes, hprobes, ?_⟩
  rintro q ⟨m, hm, extra, rfl, hfit⟩ hq
  refine hpass _ ⟨?_, ?_⟩ hfit hq
  · rw [List.length_append]
    exact (hlen m hm).trans (Nat.le_add_right _ _)
  · intro i hi
    rw [List.getD_append _ _ _ _ (Nat.lt_of_lt_of_le hi (hlen m hm))]
    exact List.mem_map.2 ⟨m, hm, rfl⟩

theorem Fits.of_mem {models : List (List Text)} {q : List Text} (hq : q ∈ models)
    (hlen : q.length ≤ (minL models).toNat + 2) : Fits models q :=
  ⟨q, hq, [], (List.append_nil q).symm, hlen⟩

theorem Fits.append {models : List (List Text)} {m extra : List Text} (hm : m ∈ models)
    (hlen : m.length + extra.length ≤ (minL models).toNat + 2) : Fits models (m ++ extra) :=
  ⟨m, hm, extra, rfl, by rwa [List.length_append]⟩

end OPValidatorQueue

open OPValidatorQueue

/-! ## The operation in flight -/

namespace LSOPValidatorQueue

/-- The queues to compare with, from the queue before the operation in flight. -/
def inFlightModels (q : List Text) : QueueOp → List (List Text)
  | .enq _ => [q]
  | .deq => [q, q.drop 1]

theorem genModelStep_text (n i : Nat) (st : List Text × List (List Text)) (l : QueueLine) :
    genModelStep n st (l.text, i) =
      some (if i ≠ n then (l.op.apply st.1, st.2)
        else (st.1, st.2 ++ inFlightModels st.1 l.op)) := by
  simp only [genModelStep, QueueLine.entriesOf_text]
  cases l.op with
  | enq v => by_cases hi : i = n <;> simp [queueOpType, QueueOp.apply, inFlightModels, hi]
  | deq =>
    by_cases hi : i = n
    · simp [queueOpType, inFlightModels, hi]
    · by_cases hlen : 0 < st.1.length
      · simp [queueOpType, QueueOp.apply, hi, hlen]
      · have hnil : st.1 = [] := List.length_eq_zero_iff.1 (by omega)
        simp [queueOpType, QueueOp.apply, hi, hnil, Prod.ext_iff]

/-- The operations before the one in flight. -/
theorem foldlM_genModelStep {n : Nat} {lines : List QueueLine} (hlen : lines.length ≤ n) :
    (lines.map QueueLine.text).zipIdx.foldlM (genModelStep n) ([], []) =
      some (queueAfter lines, []) := by
  induction lines using List.reverseRecOn with
  | nil => rfl
  | append_singleton lines l ih =>
    rw [List.length_append, List.length_singleton] at hlen
    have hi : lines.length ≠ n := by omega
    rw [queueAfter_append_singleton]
    simp [List.zipIdx_append, List.foldlM_append, ih (by omega), genModelStep_text, hi]

theorem genModel_eq (lines : List QueueLine) {n : Nat} (hn : n < lines.length) :
    genModel (lines.map QueueLine.text) n =
      some (inFlightModels (queueAfter (lines.take n)) lines[n].op) := by
  have hrun := foldlM_genModelStep (List.length_take_le n lines)
  rw [genModel, ← List.map_take, ← List.take_append_getElem hn, List.map_append,
    List.zipIdx_append, List.foldlM_append, hrun]
  simp [genModelStep_text, hn.le]

/-- The queue before the operation in flight fits, and so does the queue after it. -/
theorem fits_inFlightModels (q : List Text) (op : QueueOp) {q' : List Text}
    (h : q' = q ∨ q' = op.apply q) : Fits (inFlightModels q op) q' := by
  cases op with
  | enq v =>
    have hmin : (minL (inFlightModels q (.enq v))).toNat = q.length := minL_singleton q
    rcases h with rfl | rfl
    · exact Fits.of_mem (by simp [inFlightModels]) (by simp [hmin])
    · exact Fits.append (by simp [inFlightModels]) (by simp [hmin])
  | deq =>
    have hmin : (minL (inFlightModels q .deq)).toNat = q.length - 1 := by
      rw [inFlightModels, minL_pair, List.length_drop]
      omega
    rcases h with rfl | rfl
    · exact Fits.of_mem (by simp [inFlightModels]) (by omega)
    · rw [QueueOp.apply, ← List.drop_one]
      exact Fits.of_mem (by simp [inFlightModels]) (by simp [hmin])

end LSOPValidatorQueue

/-! ## The race -/

theorem PrefixOPFileQueue.genModel_eq (lines : List QueueLine) :
    PrefixOPFileQueue.genModel ⟨lines.map QueueLine.text⟩ = some (queueAfter lines) := by
  have hstep : ∀ (model : List Text) (l : QueueLine),
      genModelStep model l.text = some (l.op.apply model) := by
    intro model l
    simp only [genModelStep, QueueLine.entriesOf_text]
    cases l.op with
    | enq v => simp [queueOpType, QueueOp.apply]
    | deq => cases model <;> simp [queueOpType, QueueOp.apply]
  unfold PrefixOPFileQueue.genModel
  induction lines using List.reverseRecOn with
  | nil => rfl
  | append_singleton lines l ih =>
    rw [queueAfter_append_singleton, List.map_append, List.foldlM_append, ih]
    simp [hstep]

namespace RaceOPFileQueue

/-- The queues to compare with, from the queue after the prefix. -/
def raceModels (q : List Text) : QueueOp → QueueOp → List (List Text)
  | .enq _, .enq _ => [q]
  | .deq, .deq => [q.drop 1, q.drop 2]
  | .enq _, .deq => [q.drop 1]
  | .deq, .enq _ => [q, q.drop 1]

theorem genModel_eq {f : RaceOPFileQueue} {l₁ l₂ : QueueLine} (hops : f.ops = [l₁.text, l₂.text])
    (q : List Text) : f.genModel q = some (raceModels q l₁.op l₂.op) := by
  simp only [genModel, hops, List.getElem?_cons_zero, List.getElem?_cons_succ,
    Option.bind_eq_bind, Option.bind_some, QueueLine.entriesOf_text]
  cases l₁.op <;> cases l₂.op <;> simp [queueOpType, raceModels]

/-- The queue after the second operation alone fits, and so does the queue after both. -/
theorem fits_raceModels (q : List Text) (op₁ op₂ : QueueOp) {q' : List Text}
    (h : q' = op₂.apply q ∨ q' = op₂.apply (op₁.apply q)) : Fits (raceModels q op₁ op₂) q' := by
  cases op₁ with
  | enq v₁ =>
    cases op₂ with
    | enq v₂ =>
      have hmin : (minL (raceModels q (.enq v₁) (.enq v₂))).toNat = q.length := minL_singleton q
      rcases h with rfl | rfl
      · exact Fits.append (by simp [raceModels]) (by simp [hmin])
      · rw [QueueOp.apply, QueueOp.apply, List.append_assoc]
        exact Fits.append (by simp [raceModels]) (by simp [hmin])
    | deq =>
      have hmin : (minL (raceModels q (.enq v₁) .deq)).toNat = q.length - 1 := by
        rw [raceModels, minL_singleton, List.length_drop]
      rcases h with rfl | rfl
      · rw [QueueOp.apply, ← List.drop_one]
        exact Fits.of_mem (by simp [raceModels]) (by simp [hmin])
      · -- in the empty queue the dequeue takes what was just enqueued
        cases q with
        | nil => exact Fits.of_mem (by simp [raceModels, QueueOp.apply]) (by simp [QueueOp.apply])
        | cons x q => exact Fits.append (m := q) (by simp [raceModels]) (by simp [hmin])
  | deq =>
    cases op₂ with
    | enq v₂ =>
      have hmin : (minL (raceModels q .deq (.enq v₂))).toNat = q.length - 1 := by
        rw [raceModels, minL_pair, List.length_drop]
        omega
      rcases h with rfl | rfl
      · exact Fits.append (by simp [raceModels])
          (by simp only [hmin, List.length_cons, List.length_nil]; omega)
      · rw [QueueOp.apply, QueueOp.apply, ← List.drop_one]
        exact Fits.append (by simp [raceModels]) (by simp [hmin])
    | deq =>
      have hmin : (minL (raceModels q .deq .deq)).toNat = q.length - 2 := by
        rw [raceModels, minL_pair, List.length_drop, List.length_drop]
        omega
      rcases h with rfl | rfl
      · rw [QueueOp.apply, ← List.drop_one]
        exact Fits.of_mem (by simp [raceModels]) (by rw [hmin, List.length_drop]; omega)
      · have htail : q.tail.tail = q.drop 2 := by
          rw [← List.drop_one, ← List.drop_one, List.drop_drop]
        rw [QueueOp.apply, QueueOp.apply, htail]
        exact Fits.of_mem (by simp [raceModels]) (by simp [hmin])

end RaceOPFileQueue

/-! ## The verdict -/

theorem HoldsValues.drop {q : List Text} (h : HoldsValues q) (n : Nat) : HoldsValues (q.drop n) :=
  fun t ht => h t (List.mem_of_mem_drop ht)

/-- The queues to compare with hold values, and none is shorter than the shortest. -/
theorem models_shape {q : List Text} (hq : HoldsValues q) {models : List (List Text)}
    (h : (∃ op, models = LSOPValidatorQueue.inFlightModels q op) ∨
      ∃ op₁ op₂, models = RaceOPFileQueue.raceModels q op₁ op₂) :
    (∀ m ∈ models, HoldsValues m) ∧ ∀ m ∈ models, (minL models).toNat ≤ m.length := by
  have hone : ∀ m, HoldsValues m → models = [m] →
      (∀ m ∈ models, HoldsValues m) ∧ ∀ m ∈ models, (minL models).toNat ≤ m.length := by
    rintro m hm rfl
    simpa [minL_singleton] using hm
  have htwo : ∀ m m', HoldsValues m → HoldsValues m' → models = [m, m'] →
      (∀ m ∈ models, HoldsValues m) ∧ ∀ m ∈ models, (minL models).toNat ≤ m.length := by
    rintro m m' hm hm' rfl
    rw [minL_pair]
    simpa using ⟨hm, hm'⟩
  rcases h with ⟨op, h⟩ | ⟨op₁, op₂, h⟩
  · cases op with
    | enq v => exact hone q hq h
    | deq => exact htwo q (q.drop 1) hq (hq.drop 1) h
  · cases op₁ with
    | enq v₁ =>
      cases op₂ with
      | enq v₂ => exact hone q hq h
      | deq => exact hone (q.drop 1) (hq.drop 1) h
    | deq =>
      cases op₂ with
      | enq v₂ => exact htwo q (q.drop 1) hq (hq.drop 1) h
      | deq => exact htwo (q.drop 1) (q.drop 2) (hq.drop 1) (hq.drop 2) h

namespace OPValidatorQueue

/-- The validator reads the files that were written for it. -/
theorem new_eq (lines : List QueueLine) (l₁ l₂ : QueueLine) {output : Text}
    (houtput : '\n' ∉ output) (needDel firstOpDone : Bool) :
    ∃ ty, OPValidatorQueue.new (unlines (lines.map QueueLine.text)) (unlines [l₁.text, l₂.text])
      (unlines [output]) needDel firstOpDone =
        some ⟨⟨lines.map QueueLine.text⟩, ⟨[l₁.text, l₂.text], [output], ty, firstOpDone⟩,
          needDel⟩ := by
  have hlines : terminated '\n' (unlines (lines.map QueueLine.text)) = lines.map QueueLine.text :=
    terminated_unlines (List.forall_mem_map.2 fun l _ => l.line)
  have hrace : terminated '\n' (unlines [l₁.text, l₂.text]) = [l₁.text, l₂.text] :=
    terminated_unlines (by simp [l₁.line, l₂.line])
  have hout : terminated '\n' (unlines [output]) = [output] :=
    terminated_unlines (by simpa using houtput)
  obtain ⟨ty, hty⟩ : ∃ ty, RaceOPFileQueue.initType [l₁.text, l₂.text] = some ty := by
    apply Option.isSome_iff_exists.1
    simp only [RaceOPFileQueue.initType, List.getElem?_cons_zero, List.getElem?_cons_succ,
      Option.bind_eq_bind, Option.bind_some, QueueLine.entriesOf_text]
    cases l₁.op <;> cases l₂.op <;> simp
  refine ⟨ty, ?_⟩
  simp [OPValidatorQueue.new, RaceOPFileQueue.new, PrefixOPFileQueue.new, hlines, hrace, hout, hty]

end OPValidatorQueue

/-- **The queue oracles raise no false alarm.**  For a crash in the operation `n`, if the
recovered queue is the one before or after that operation; and for two racing operations after
any prefix, if it is what the second one, alone or after the first one, makes of the queue after
the prefix: a correct FIFO driver executes all of `val_inputs` without dequeuing from an empty
queue, and no bug is reported. -/
theorem queue_no_false_alarm (lines : List QueueLine) {n : Nat} (hn : n < lines.length)
    (before : List QueueLine) (l₁ l₂ : QueueLine) (needDel firstOpDone : Bool) {output : Text}
    (houtput : '\n' ∉ output) :
    (∃ models probes, LSOPValidatorQueue.genModel (lines.map QueueLine.text) n = some models ∧
      genValInputAndOracle models = some probes ∧
      ∀ q, q = queueAfter (lines.take n) ∨ q = queueAfter (lines.take (n + 1)) →
        ∃ q' outputs, Runs.transduce queueDriver q (probes.map Prod.fst) = some (q', outputs) ∧
          validate false (probes.map Prod.snd) (some (unlines outputs)) = none) ∧
    ∃ v models probes,
      OPValidatorQueue.new (unlines (before.map QueueLine.text)) (unlines [l₁.text, l₂.text])
        (unlines [output]) needDel firstOpDone = some v ∧ v.genModel = some models ∧
      genValInputAndOracle models = some probes ∧
      ∀ q, q = l₂.op.apply (queueAfter before) ∨
          q = l₂.op.apply (l₁.op.apply (queueAfter before)) →
        ∃ q' outputs, Runs.transduce queueDriver q (probes.map Prod.fst) = some (q', outputs) ∧
          validate false (probes.map Prod.snd) (some (unlines outputs)) = none := by
  have hverdict : ∀ {q : List Text} {probes : List (Text × Text)},
      (∃ q', Checks queueDriver q probes q' True) →
      ∃ q' outputs, Runs.transduce queueDriver q (probes.map Prod.fst) = some (q', outputs) ∧
        validate false (probes.map Prod.snd) (some (unlines outputs)) = none := by
    rintro q probes ⟨q', hchecks⟩
    obtain ⟨outputs, hrun, hiff⟩ := hchecks.validate
    exact ⟨q', outputs, hrun, hiff.2 trivial⟩
  refine ⟨?_, ?_⟩
  · have hvals := holdsValues_queueAfter (lines.take n)
    obtain ⟨hmodels, hlen⟩ := models_shape hvals (Or.inl ⟨lines[n].op, rfl⟩)
    obtain ⟨probes, hprobes, hpass⟩ := checks_of_fits hmodels hlen
    refine ⟨_, probes, LSOPValidatorQueue.genModel_eq lines hn, hprobes, ?_⟩
    intro q hq
    have hafter : queueAfter (lines.take (n + 1)) =
        lines[n].op.apply (queueAfter (lines.take n)) := by
      rw [← List.take_append_getElem hn, queueAfter_append_singleton]
    rw [hafter] at hq
    apply hverdict
    apply hpass q (LSOPValidatorQueue.fits_inFlightModels _ _ hq)
    rcases hq with rfl | rfl
    · exact hvals
    · exact hvals.apply _
  · have hvals := holdsValues_queueAfter before
    obtain ⟨ty, hnew⟩ := OPValidatorQueue.new_eq before l₁ l₂ houtput needDel firstOpDone
    obtain ⟨hmodels, hlen⟩ := models_shape hvals (Or.inr ⟨l₁.op, l₂.op, rfl⟩)
    obtain ⟨probes, hprobes, hpass⟩ := checks_of_fits hmodels hlen
    refine ⟨_, _, probes, hnew, ?_, hprobes, ?_⟩
    · rw [OPValidatorQueue.genModel, PrefixOPFileQueue.genModel_eq, Option.bind_some,
        RaceOPFileQueue.genModel_eq rfl]
    · intro q hq
      apply hverdict
      apply hpass q (RaceOPFileQueue.fits_raceModels _ _ _ hq)
      rcases hq with rfl | rfl
      · exact hvals.apply _
      · exact (hvals.apply _).apply _

/-- An enqueue and a dequeue. -/
def enqDeq : List QueueLine := [.bare (.enq (number 5)), .bare .deq]

theorem queue_no_false_alarm_enqDeq :
    ∃ models probes, LSOPValidatorQueue.genModel (enqDeq.map QueueLine.text) 1 = some models ∧
      genValInputAndOracle models = some probes ∧
      ∃ q' outputs, Runs.transduce queueDriver [['5']] (probes.map Prod.fst) = some (q', outputs) ∧
        validate false (probes.map Prod.snd) (some (unlines outputs)) = none := by
  obtain ⟨⟨models, probes, hmodels, hprobes, h⟩, -⟩ := queue_no_false_alarm enqDeq (n := 1)
    (by decide) enqDeq ⟨.deq, [], by decide⟩ ⟨.deq, [], by decide⟩ false false
    (show '\n' ∉ ['5'] by decide)
  exact ⟨models, probes, hmodels, hprobes, h [['5']] (Or.inl rfl)⟩

end Durinn
