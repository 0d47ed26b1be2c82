import Durinn.Oracle.Queue

/-!
# What the queue oracles let through

The queue validators of `lib/op_file_q.py` keep whole queues to compare with, but the oracles
they write compare element by element, and `RaceOPFileQueue.gen_model` does not look at
`first_op_done`.

* `matches_of_accepted` — what acceptance means: element by element, the recovered queue has
  what some of the models have there.
* `queue_whole_iff` — accepted queues begin like one single model if and only if, for a dequeue
  that may or may not have happened, the queue changes its value at most once.
* `insists_iff` — a completed first operation is insisted on only where it makes no difference.
-/

namespace Durinn

open PyText OPValidator OPValidatorQueue

/-! ## Acceptance -/

/-- A correct FIFO driver that starts on the queue `q` executes all of `val_inputs`, and no bug
is reported. -/
def Accepted (models : List (List Text)) (q : List Text) : Prop :=
  ∃ probes q' outputs, genValInputAndOracle models = some probes ∧
    Runs.transduce queueDriver q (probes.map Prod.fst) = some (q', outputs) ∧
    validate false (probes.map Prod.snd) (some (unlines outputs)) = none

theorem accepted_of_checks {models : List (List Text)} {probes : List (Text × Text)} {q : List Text}
    (hprobes : genValInputAndOracle models = some probes)
    (h : ∃ q', Checks queueDriver q probes q' True) : Accepted models q := by
  obtain ⟨q', hchecks⟩ := h
  obtain ⟨outputs, hrun, hiff⟩ := hchecks.validate
  exact ⟨probes, q', outputs, hprobes, hrun, hiff.2 trivial⟩

/-- Acceptance of a concrete queue, by evaluation. -/
theorem accepted_of_run {models : List (List Text)} {q : List Text}
    (h : ((genValInputAndOracle models).bind fun probes =>
      (Runs.transduce queueDriver q (probes.map Prod.fst)).map fun r =>
        validate false (probes.map Prod.snd) (some (unlines r.2))) = some none) :
    Accepted models q := by
  obtain ⟨probes, hprobes, h⟩ := Option.bind_eq_some_iff.1 h
  obtain ⟨⟨q', outputs⟩, hrun, hvalid⟩ := Option.map_eq_some_iff.1 h
  exact ⟨probes, q', outputs, hprobes, hrun, hvalid⟩

/-- A driver that gets through `n` dequeues has printed the first `n` elements. -/
theorem transduce_deqs {n : Nat} {inputs q q' outputs : List Text}
    (h : Runs.transduce queueDriver q (List.replicate n deqLine ++ inputs) = some (q', outputs)) :
    n ≤ q.length ∧ ∃ outs, outputs = q.take n ++ outs := by
  induction n generalizing q outputs with
  | zero => exact ⟨Nat.zero_le _, outputs, rfl⟩
  | succ n ih =>
    rw [List.replicate_succ, List.cons_append, Runs.transduce] at h
    cases q with
    | nil => cases h
    | cons x q =>
      have hstep : queueDriver (x :: q) deqLine = some (q, x) := rfl
      rw [hstep, Option.bind_some, Option.map_eq_some_iff] at h
      obtain ⟨⟨q'', outs⟩, hrun, heq⟩ := h
      cases heq
      obtain ⟨hle, rest, rfl⟩ := ih hrun
      exact ⟨Nat.succ_le_succ hle, rest, rfl⟩

/-- **What acceptance means**: element by element, the queue has what some model has there. -/
theorem matches_of_accepted {models : List (List Text)} (hne : models ≠ [])
    (hvals : ∀ m ∈ models, HoldsValues m) (hlen : ∀ m ∈ models, (minL models).toNat ≤ m.length)
    {q : List Text} (h : Accepted models q) : Matches models q := by
  obtain ⟨probes, q', outputs, hprobes, hrun, hpass⟩ := h
  have hplain := plain_elemsAt hvals hlen
  rw [genValInputAndOracle_eq rfl hlen] at hprobes
  unfold Matches
  generalize (minL models).toNat = n at *
  have hcount := Runs.length_transduce hrun
  rw [List.length_map, ← List.length_map (f := Prod.snd)] at hcount
  cases hprobes
  have hprev : ∀ oracle ∈ (((List.range n).map fun i =>
      (deqLine, magic.intercalate (elemsAt models i))) ++ (List.replicate 10 (enqLine, []) ++
        List.replicate 2 (deqLine, magicAny) ++ List.replicate 8 (deqLine, marker.1))).map Prod.snd,
      '%' ∉ oracle := by
    intro oracle horacle
    simp only [List.map_append, List.map_map, List.map_replicate, List.mem_append, List.mem_map,
      List.mem_replicate, List.mem_range] at horacle
    rcases horacle with ⟨i, hi, rfl⟩ | (⟨-, rfl⟩ | ⟨-, rfl⟩) | ⟨-, rfl⟩
    · exact Plain.no_prev_intercalate (hplain i hi)
    · exact List.not_mem_nil
    · decide
    · exact marker.plain.no_prev
  have hall := passes_of_validate hcount hprev hpass
  have hinputs : (List.range n).map (fun i => (deqLine, magic.intercalate (elemsAt models i)).1) =
      List.replicate n deqLine := by simp
  rw [List.map_append, List.map_map, Function.comp_def, hinputs] at hrun
  obtain ⟨hle, outs, rfl⟩ := transduce_deqs hrun
  -- the oracles of the first dequeues, beside the elements they are compared with
  have hfirst := List.forall₂_take_append _ _ _ hall
  rw [List.length_take, Nat.min_eq_left hle, List.map_append, List.map_map,
    List.take_left' (by simp), take_eq_map_getD hle, List.forall₂_map_left_iff,
    List.forall₂_map_right_iff, List.forall₂_same] at hfirst
  refine ⟨hle, ?_⟩
  intro i hi
  have helems : elemsAt models i ≠ [] := by simpa [elemsAt] using hne
  exact (passes_intercalate helems (hplain i hi)).1 (hfirst i (List.mem_range.2 hi))

/-! ## Whole queues -/

/-- Choosing place by place between two sequences gives one of the two, whatever is chosen, if
and only if they differ in at most one place. -/
theorem forall_mix_iff {α : Type} {a b : Nat → α} {n : Nat} :
    (∀ c : Nat → α, (∀ i < n, c i = a i ∨ c i = b i) →
      (∀ i < n, c i = a i) ∨ ∀ i < n, c i = b i) ↔
      ∀ i < n, ∀ j < n, a i ≠ b i → a j ≠ b j → i = j := by
  constructor
  · intro h i hi j hj hai haj
    by_contra hij
    -- `a` at the place `i`, and `b` everywhere else
    have hmix := h (fun k => if k = i then a k else b k) fun k _ => by
      by_cases hk : k = i <;> simp [hk]
    rcases hmix with hmix | hmix
    · have hj' := hmix j hj
      rw [if_neg (Ne.symm hij)] at hj'
      exact haj hj'.symm
    · have hi' := hmix i hi
      rw [if_pos rfl] at hi'
      exact hai hi'
  · intro h c hc
    by_cases hex : ∃ i < n, a i ≠ b i ∧ c i = b i
    · obtain ⟨i, hi, hne, hci⟩ := hex
      right
      intro j hj
      rcases hc j hj with hcj | hcj
      · by_cases heq : a j = b j
        · rw [hcj, heq]
        · rw [h j hj i hi heq hne, hci]
      · exact hcj
    · left
      intro j hj
      rcases hc j hj with hcj | hcj
      · exact hcj
      · by_contra hne
        exact hex ⟨j, hj, fun heq => hne (hcj.trans heq.symm), hcj⟩

theorem take_eq_take_iff {q m : List Text} {n : Nat} (hq : n ≤ q.length) (hm : n ≤ m.length) :
    q.take n = m.take n ↔ ∀ i < n, q.getD i [] = m.getD i [] := by
  rw [take_eq_map_getD hq, take_eq_map_getD hm, List.map_inj_left]
  simp only [List.mem_range]

/-- Every accepted queue begins like one single model, as far as the shortest model goes. -/
def WholeModels (models : List (List Text)) : Prop :=
  ∀ q, Accepted models q →
    ∃ m ∈ models, q.take (minL models).toNat = m.take (minL models).toNat

theorem wholeModels_singleton {m : List Text} (hm : HoldsValues m) : WholeModels [m] := by
  intro q hq
  have hlen : ∀ m' ∈ [m], (minL [m]).toNat ≤ m'.length := by simp [minL_singleton]
  obtain ⟨hle, helems⟩ := matches_of_accepted (by simp) (by simpa using hm) hlen hq
  refine ⟨m, List.mem_singleton_self m, ?_⟩
  rw [take_eq_take_iff hle (hlen m (List.mem_singleton_self m))]
  intro i hi
  simpa [elemsAt] using helems i hi

/-- Two models: whatever mixture of them is taken, it is accepted. -/
theorem wholeModels_pair {m m' : List Text} (hm : HoldsValues m) (hm' : HoldsValues m') :
    WholeModels [m, m'] ↔
      ∀ i < min m.length m'.length, ∀ j < min m.length m'.length,
        m.getD i [] ≠ m'.getD i [] → m.getD j [] ≠ m'.getD j [] → i = j := by
  have hvals : ∀ x ∈ [m, m'], HoldsValues x := by simpa using ⟨hm, hm'⟩
  have hlen : ∀ x ∈ [m, m'], (minL [m, m']).toNat ≤ x.length := by simp [minL_pair]
  have hle : min m.length m'.length ≤ m.length := Nat.min_le_left _ _
  have hle' : min m.length m'.length ≤ m'.length := Nat.min_le_right _ _
  rw [← forall_mix_iff]
  constructor
  · intro h c hc
    obtain ⟨probes, hprobes, hpass⟩ := checks_of_matches hvals hlen
    rw [minL_pair] at hpass hlen
    -- the mixture `c`, as a queue
    have hgetD : ∀ i < min m.length m'.length,
        ((List.range (min m.length m'.length)).map c).getD i [] = c i := by
      intro i hi
      rw [List.getD_eq_getElem _ _ (by simpa using hi)]
      simp
    have hmatches : Matches [m, m'] ((List.range (min m.length m'.length)).map c) := by
      unfold Matches
      rw [minL_pair]
      refine ⟨by simp, ?_⟩
      intro i hi
      rw [hgetD i hi]
      simpa [elemsAt] using hc i hi
    have hholds : HoldsValues ((List.range (min m.length m'.length)).map c) := by
      intro t ht
      obtain ⟨i, hi, rfl⟩ := List.mem_map.1 ht
      have hi : i < min m.length m'.length := List.mem_range.1 hi
      rcases hc i hi with hci | hci
      · rw [hci, List.getD_eq_getElem m [] (by omega)]
        exact hm _ (List.getElem_mem _)
      · rw [hci, List.getD_eq_getElem m' [] (by omega)]
        exact hm' _ (List.getElem_mem _)
    obtain ⟨x, hx, htake⟩ := h _ (accepted_of_checks hprobes (hpass _ hmatches (by simp) hholds))
    rw [minL_pair, take_eq_take_iff (by simp) (hlen x hx)] at htake
    have hcx : ∀ i < min m.length m'.length, c i = x.getD i [] := by
      intro i hi
      rw [← hgetD i hi]
      exact htake i hi
    rcases List.mem_pair.1 hx with rfl | rfl
    · exact Or.inl hcx
    · exact Or.inr hcx
  · intro h q hq
    obtain ⟨hqle, helems⟩ := matches_of_accepted (by simp) hvals hlen hq
    rw [minL_pair] at hqle helems ⊢
    have hcases := h (fun i => q.getD i []) fun i hi => by simpa [elemsAt] using helems i hi
    rcases hcases with hall | hall
    · exact ⟨m, by simp, (take_eq_take_iff hqle hle).2 hall⟩
    · exact ⟨m', by simp, (take_eq_take_iff hqle hle').2 hall⟩

/-- Neighbouring elements of the queue differ in at most one place. -/
def AtMostOneChange (q : List Text) : Prop :=
  ∀ i j, i + 1 < q.length → j + 1 < q.length → q.getD i [] ≠ q.getD (i + 1) [] →
    q.getD j [] ≠ q.getD (j + 1) [] → i = j

/-- A dequeue that may or may not have happened. -/
theorem wholeModels_drop_iff {q : List Text} (hq : HoldsValues q) :
    WholeModels [q, q.drop 1] ↔ AtMostOneChange q := by
  have hmin : ∀ i, i < min q.length (q.drop 1).length ↔ i + 1 < q.length := by
    intro i
    rw [List.length_drop]
    omega
  have hgetD : ∀ i, (q.drop 1).getD i [] = q.getD (i + 1) [] := by
    intro i
    rw [List.getD_eq_getElem?_getD, List.getD_eq_getElem?_getD, List.getElem?_drop, Nat.add_comm]
  simp only [wholeModels_pair hq (hq.drop 1), hmin, hgetD, AtMostOneChange]
  constructor
  · intro h i j hi hj
    exact h i hi j hj
  · intro h i hi j hj
    exact h i j hi hj

/-- **When accepted queues are whole.**  For a crash in the operation `n`: if and only if, in
case it is a dequeue, the queue before it changes its value at most once.  For two racing
operations: if and only if, in case the first one is a dequeue, the longer of the two queues to
compare with does. -/
theorem queue_whole_iff (lines : List QueueLine) {n : Nat} (hn : n < lines.length)
    (before : List QueueLine) (l₁ l₂ : QueueLine) (needDel firstOpDone : Bool) {output : Text}
    (houtput : '\n' ∉ output) :
    (∃ models, LSOPValidatorQueue.genModel (lines.map QueueLine.text) n = some models ∧
      (WholeModels models ↔
        (lines[n].op = .deq → AtMostOneChange (queueAfter (lines.take n))))) ∧
    ∃ v models,
      OPValidatorQueue.new (unlines (before.map QueueLine.text)) (unlines [l₁.text, l₂.text])
        (unlines [output]) needDel firstOpDone = some v ∧ v.genModel = some models ∧
      (WholeModels models ↔
        (l₁.op = .deq → match l₂.op with
          | .enq _ => AtMostOneChange (queueAfter before)
          | .deq => AtMostOneChange ((queueAfter before).drop 1))) := by
  refine ⟨?_, ?_⟩
  · refine ⟨_, LSOPValidatorQueue.genModel_eq lines hn, ?_⟩
    have hvals := holdsValues_queueAfter (lines.take n)
    cases lines[n].op with
    | enq v => simpa [LSOPValidatorQueue.inFlightModels] using wholeModels_singleton hvals
    | deq => simpa [LSOPValidatorQueue.inFlightModels] using wholeModels_drop_iff hvals
  · obtain ⟨ty, hnew⟩ := OPValidatorQueue.new_eq before l₁ l₂ houtput needDel firstOpDone
    refine ⟨_, RaceOPFileQueue.raceModels (queueAfter before) l₁.op l₂.op, hnew, ?_, ?_⟩
    · rw [OPValidatorQueue.genModel, PrefixOPFileQueue.genModel_eq, Option.bind_some,
        RaceOPFileQueue.genModel_eq rfl]
    · have hvals := holdsValues_queueAfter before
      cases l₁.op with
      | enq v₁ =>
        cases l₂.op with
        | enq v₂ => simpa [RaceOPFileQueue.raceModels] using wholeModels_singleton hvals
        | deq => simpa [RaceOPFileQueue.raceModels] using wholeModels_singleton (hvals.drop 1)
      | deq =>
        cases l₂.op with
        | enq v₂ => simpa [RaceOPFileQueue.raceModels] using wholeModels_drop_iff hvals
        | deq =>
          have hdrop := wholeModels_drop_iff (hvals.drop 1)
          rw [List.drop_drop] at hdrop
          simpa [RaceOPFileQueue.raceModels] using hdrop

/-- Three enqueues and a dequeue. -/
def enqsDeq : List QueueLine :=
  [.bare (.enq (number 1)), .bare (.enq (number 2)), .bare (.enq (number 3)), .bare .deq]

/-- A crash in the dequeue from the queue `2, 3`, and in the one from `1, 2, 3`. -/
theorem queue_whole_iff_enqsDeq :
    (∃ models, LSOPValidatorQueue.genModel ((enqsDeq.drop 1).map QueueLine.text) 2 = some models ∧
      WholeModels models) ∧
    ∃ models, LSOPValidatorQueue.genModel (enqsDeq.map QueueLine.text) 3 = some models ∧
      ¬WholeModels models := by
  obtain ⟨⟨models, hmodels, hiff⟩, -⟩ := queue_whole_iff (enqsDeq.drop 1) (n := 2) (by decide) []
    (.bare .deq) (.bare .deq) false false (show '\n' ∉ ['5'] by decide)
  obtain ⟨⟨models', hmodels', hiff'⟩, -⟩ := queue_whole_iff enqsDeq (n := 3) (by decide) []
    (.bare .deq) (.bare .deq) false false (show '\n' ∉ ['5'] by decide)
  refine ⟨⟨models, hmodels, hiff.2 fun _ i j hi hj _ _ => ?_⟩, models', hmodels', fun h => ?_⟩
  · have hi' : i + 1 < 2 := hi
    have hj' : j + 1 < 2 := hj
    omega
  · have hone := hiff'.1 h rfl 0 1 (by decide) (by decide) (by decide) (by decide)
    cases hone

/-- A crash in the dequeue from the queue `1, 2, 3`: the recovered queue `1, 3` has lost an
element in the middle, and is accepted. -/
theorem queue_mixed_accepted :
    ∃ models, LSOPValidatorQueue.genModel (enqsDeq.map QueueLine.text) 3 = some models ∧
      Accepted models [['1'], ['3']] ∧
      ∀ m ∈ models, [['1'], ['3']].take (minL models).toNat ≠ m.take (minL models).toNat := by
  refine ⟨[[['1'], ['2'], ['3']], [['2'], ['3']]], by decide +kernel, ?_, by decide +kernel⟩
  exact accepted_of_run (by decide +kernel)

/-! ## A completed first operation -/

/-- The validator of two racing operations of which the first one is completed insists on it: a
recovered queue that lacks it, and differs from the queue after both operations, is not
accepted. -/
def Insists (before : List QueueLine) (l₁ l₂ : QueueLine) (output : Text) (needDel : Bool) : Prop :=
  ∀ v models, OPValidatorQueue.new (unlines (before.map QueueLine.text))
      (unlines [l₁.text, l₂.text]) (unlines [output]) needDel true = some v →
    v.genModel = some models → ∀ q, q = l₂.op.apply (queueAfter before) →
      q ≠ l₂.op.apply (l₁.op.apply (queueAfter before)) → ¬Accepted models q

/-- The second operation alone gives the same queue as both operations. -/
theorem apply_eq_iff (q : List Text) (op₁ op₂ : QueueOp) :
    op₂.apply q = op₂.apply (op₁.apply q) ↔
      match op₁, op₂ with
      | .enq _, .enq _ => False
      | .deq, .deq => q.length ≤ 1
      | _, _ => q = [] := by
  cases op₁ with
  | enq v₁ =>
    cases op₂ with
    | enq v₂ =>
      simp only [QueueOp.apply, iff_false]
      intro h
      simpa using congrArg List.length h
    | deq =>
      cases q with
      | nil => simp [QueueOp.apply]
      | cons x q => simp [QueueOp.apply]
  | deq =>
    cases op₂ with
    | enq v₂ =>
      cases q with
      | nil => simp [QueueOp.apply]
      | cons x q => simp [QueueOp.apply]
    | deq =>
      rcases q with _ | ⟨x, _ | ⟨y, q⟩⟩
      · simp [QueueOp.apply]
      · simp [QueueOp.apply]
      · simp [QueueOp.apply]

/-- **When a completed operation is insisted on**: only where it makes no difference, since the
queues to compare with do not depend on `first_op_done`.  That is never the case for two
enqueues; for an enqueue and a dequeue it is on the empty queue, and for two dequeues on a
queue of at most one element. -/
theorem insists_iff (before : List QueueLine) (l₁ l₂ : QueueLine) (needDel : Bool) {output : Text}
    (houtput : '\n' ∉ output) :
    Insists before l₁ l₂ output needDel ↔
      match l₁.op, l₂.op with
      | .enq _, .enq _ => False
      | .deq, .deq => (queueAfter before).length ≤ 1
      | _, _ => queueAfter before = [] := by
  rw [← apply_eq_iff]
  constructor
  · intro h
    by_contra hne
    have hvals := holdsValues_queueAfter before
    obtain ⟨ty, hnew⟩ := OPValidatorQueue.new_eq before l₁ l₂ houtput needDel true
    obtain ⟨hmodels, hlen⟩ := models_shape hvals (Or.inr ⟨l₁.op, l₂.op, rfl⟩)
    obtain ⟨probes, hprobes, hpass⟩ := checks_of_fits hmodels hlen
    have hfits := RaceOPFileQueue.fits_raceModels (queueAfter before) l₁.op l₂.op (Or.inl rfl)
    refine h _ (RaceOPFileQueue.raceModels (queueAfter before) l₁.op l₂.op) hnew ?_ _ rfl hne
      (accepted_of_checks hprobes (hpass _ hfits (hvals.apply _)))
    rw [OPValidatorQueue.genModel, PrefixOPFileQueue.genModel_eq, Option.bind_some,
      RaceOPFileQueue.genModel_eq rfl]
  · rintro heq v models - - q rfl hne
    exact absurd heq hne

theorem insists_iff_twoDeqs :
    Insists [⟨.enq ⟨['1'], by simp⟩, [], by decide⟩] ⟨.deq, [], by decide⟩ ⟨.deq, [], by decide⟩
      ['1'] false := by
  refine (insists_iff _ _ _ false (show '\n' ∉ ['1'] by decide)).2 ?_
  show (queueAfter [⟨.enq ⟨['1'], by simp⟩, [], by decide⟩]).length ≤ 1
  decide

/-- Two enqueues race on the empty queue, and the first one is completed: the recovered queue
has only the second, and is accepted. -/
theorem completed_enqueue_lost :
    ∃ v models, OPValidatorQueue.new [] (unlines ["E;1;".toList, "E;2;".toList]) (unlines [[]])
        false true = some v ∧ v.genModel = some models ∧ Accepted models [['2']] ∧
      [['2']] = (QueueOp.enq ⟨['2'], by simp⟩).apply [] ∧
      [['2']] ≠ (QueueOp.enq ⟨['2'], by simp⟩).apply ((QueueOp.enq ⟨['1'], by simp⟩).apply []) := by
  refine ⟨⟨⟨[]⟩, ⟨["E;1;".toList, "E;2;".toList], [[]], ['E', 'E'], true⟩, false⟩, [[]],
    by rfl, by rfl, ?_, rfl, by decide⟩
  exact accepted_of_run (by decide +kernel)

end Durinn
