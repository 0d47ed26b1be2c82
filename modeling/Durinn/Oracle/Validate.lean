import Durinn.Lib.PyText
import Durinn.Lib.Runs
import Durinn.Lib.TextJoin
import Durinn.Trace.MemOps

/-!
# Op files, and the comparison of outputs with oracles

The parts of `lib/op_file.py` that all validators share.  After a simulated crash the program
under test executes the lines `val_inputs` on the recovered structure and prints one line for
each; `OPValidator.validate` compares the lines with `val_oracles`.  An oracle is a line of
text: an empty one is skipped, `###` accepts everything, and `!!!` separates alternatives.

* `validate_eq_none_iff` — no bug is reported if and only if every output line passes its
  oracle (`Passes`).
* `passes_intercalate` — an oracle made of alternatives accepts exactly these.
* `Checks` — what a driver of the structure under test, run on some input lines, has to
  satisfy to pass the oracles beside them; `Checks.cons` and `Checks.append` compose such
  judgements, `Checks.validate` is what they mean for the validator.
-/

namespace Durinn

open PyText

/-- `OPFile`: the lines of the op file. -/
structure OPFile where
  ops : List Text

/-- `OPFile.__init__`, on the contents of the file. -/
def OPFile.new (content : Text) : OPFile := ⟨terminated '\n' content⟩

/-- `op.split(';')[:-1]`. -/
def entriesOf (op : Text) : List Text := terminated ';' op

theorem entriesOf_type {c : Char} (hc : c ≠ ';') (t : Text) :
    entriesOf (c :: ';' :: t) = [c] :: entriesOf t :=
  terminated_append_cons (l := [c]) (by simpa using hc.symm) t

theorem entriesOf_append {t : Text} (ht : ';' ∉ t) (w : Text) :
    entriesOf (t ++ ';' :: w) = t :: entriesOf w :=
  terminated_append_cons ht w

/-- A value: a decimal number that is not empty. -/
def Value : Type := {t : Text // t ≠ [] ∧ ∀ c ∈ t, c.isDigit = true}

/-- A number, written out. -/
def number (n : Nat) : Value :=
  ⟨Nat.toDigits 10 n, Nat.toDigits_ne_nil, fun _ hc =>
    Nat.isDigit_of_mem_toDigits (by decide) (by decide) hc⟩

theorem Value.no_semicolon (v : Value) : ';' ∉ v.1 := by
  intro h
  exact absurd (v.2.2 _ h) (by decide)

theorem Value.line (v : Value) : '\n' ∉ v.1 := by
  intro h
  exact absurd (v.2.2 _ h) (by decide)

/-- A line of the op file: the operation, and whatever follows. -/
structure LineOf (Operation : Type) where
  op : Operation
  rest : Text
  rest_line : '\n' ∉ rest

/-- The line with nothing after the operation. -/
def LineOf.bare {Operation : Type} (op : Operation) : LineOf Operation := ⟨op, [], List.not_mem_nil⟩

/-- `MAGIC`. -/
def magic : Text := ['!', '!', '!']

/-- `MAGIC_ANY`. -/
def magicAny : Text := ['#', '#', '#']

/-- `MAGIC_PREV`. -/
def magicPrev : Text := ['%', '%', '%']

/-- `BUGGY_TYPE_0`, `BUGGY_TYPE_1` and `BUGGY_TYPE_2`. -/
inductive BuggyType where
  | noOutFile
  | outFileLenMismatch
  | outFileValMismatch
  deriving DecidableEq, Repr

namespace OPValidator

/-- `OPValidator.match`. -/
def matchOracle (output oracle : Text) (prev : Option Text) : Bool :=
  if contains magicAny oracle then true
  else if contains magicPrev oracle then some (strip output) = prev
  else if !contains magic oracle then output = oracle
  else (splitText magic oracle).any fun o => output = o

/-- The loop of `OPValidator.validate`; `prev` is the output compared last. -/
def firstMismatch (prev : Option Text) : List Text → List Text → Option BuggyType
  | output :: outputs, oracle :: oracles =>
      if oracle = [] then firstMismatch prev outputs oracles
      else if matchOracle output oracle prev then firstMismatch (some output) outputs oracles
      else some .outFileValMismatch
  | _, _ => none

/-- `OPValidator.validate`, on the contents of the output file, if there is one. -/
def validate (timeout : Bool) (valOracles : List Text) (valOut : Option Text) : Option BuggyType :=
  if timeout then none
  else match valOut with
    | none => some .noOutFile
    | some content =>
        let outputs := terminated '\n' content
        if outputs.length ≠ valOracles.length then some .outFileLenMismatch
        else firstMismatch none outputs valOracles

/-! ## What passes -/

/-- The output line passes the oracle. -/
def Passes (oracle output : Text) : Prop := oracle = [] ∨ matchOracle output oracle none = true

theorem passes_nil (output : Text) : Passes [] output := Or.inl rfl

theorem passes_magicAny (output : Text) : Passes magicAny output := Or.inr rfl

/-- Without `%%%` the previous output does not matter. -/
theorem matchOracle_prev (output : Text) {oracle : Text} (h : '%' ∉ oracle) (prev : Option Text) :
    matchOracle output oracle prev = matchOracle output oracle none := by
  have hprev : contains magicPrev oracle = false := contains_eq_false h
  simp [matchOracle, hprev]

theorem firstMismatch_eq_none_iff {oracles : List Text} (h : ∀ oracle ∈ oracles, '%' ∉ oracle) :
    ∀ {outputs : List Text} {prev : Option Text}, outputs.length = oracles.length →
      (firstMismatch prev outputs oracles = none ↔ List.Forall₂ Passes oracles outputs) := by
  induction oracles with
  | nil =>
    intro outputs prev hlen
    rw [List.length_eq_zero_iff.1 hlen]
    exact ⟨fun _ => List.Forall₂.nil, fun _ => rfl⟩
  | cons oracle oracles ih =>
    intro outputs prev hlen
    cases outputs with
    | nil => cases hlen
    | cons output outputs =>
      have ih' : ∀ p, firstMismatch p outputs oracles = none ↔
          List.Forall₂ Passes oracles outputs :=
        fun _ => ih (fun o ho => h o (List.mem_cons_of_mem oracle ho)) (Nat.succ.inj hlen)
      have hprev := matchOracle_prev output (h oracle List.mem_cons_self) prev
      rw [List.forall₂_cons, firstMismatch, Passes, hprev]
      by_cases hskip : oracle = []
      · simp [hskip, ih']
      · by_cases hmatch : matchOracle output oracle none = true <;> simp [hskip, hmatch, ih']

/-- **No bug is reported if and only if every output line passes its oracle.** -/
theorem validate_eq_none_iff {oracles outputs : List Text} (hlen : outputs.length = oracles.length)
    (hprev : ∀ oracle ∈ oracles, '%' ∉ oracle) (hlines : ∀ output ∈ outputs, '\n' ∉ output) :
    validate false oracles (some (unlines outputs)) = none ↔
      List.Forall₂ Passes oracles outputs := by
  simp only [validate, Bool.false_eq_true, if_false, terminated_unlines hlines, hlen, ne_eq,
    not_true_eq_false]
  exact firstMismatch_eq_none_iff hprev hlen

/-- If no bug is reported, no output line was broken, and every one passes its oracle. -/
theorem passes_of_validate {oracles outputs : List Text} (hlen : outputs.length = oracles.length)
    (hprev : ∀ oracle ∈ oracles, '%' ∉ oracle)
    (h : validate false oracles (some (unlines outputs)) = none) :
    List.Forall₂ Passes oracles outputs := by
  have hcount : (terminated '\n' (unlines outputs)).length = outputs.length := by
    by_contra hne
    rw [hlen] at hne
    simp [validate, hne] at h
  exact (validate_eq_none_iff hlen hprev (lines_of_length_terminated hcount)).1 h

/-- A text that can be an alternative: it is not empty and has none of the characters of the
three marks. -/
structure Plain (t : Text) : Prop where
  ne_nil : t ≠ []
  no_magic : '!' ∉ t
  no_any : '#' ∉ t
  no_prev : '%' ∉ t

theorem intercalate_magic_ne_nil {alts : List Text} (hne : alts ≠ []) (h : ∀ a ∈ alts, Plain a) :
    magic.intercalate alts ≠ [] := by
  match alts, hne, h with
  | [a], _, h =>
    rw [List.intercalate_singleton]
    exact (h a List.mem_cons_self).ne_nil
  | a :: b :: alts, _, _ => simp [List.intercalate_cons_cons, magic]

/-- **An oracle of alternatives accepts exactly these.** -/
theorem passes_intercalate {alts : List Text} (hne : alts ≠ []) (h : ∀ a ∈ alts, Plain a)
    {output : Text} : Passes (magic.intercalate alts) output ↔ output ∈ alts := by
  have hany : contains magicAny (magic.intercalate alts) = false :=
    contains_eq_false (notMem_intercalate (by decide) fun a ha => (h a ha).no_any)
  have hprev : contains magicPrev (magic.intercalate alts) = false :=
    contains_eq_false (notMem_intercalate (by decide) fun a ha => (h a ha).no_prev)
  simp only [Passes, intercalate_magic_ne_nil hne h, false_or, matchOracle, hany, hprev,
    Bool.false_eq_true, if_false]
  match alts, hne, h with
  | [a], _, h =>
    have hsingle : contains magic a = false :=
      contains_eq_false (h a List.mem_cons_self).no_magic
    simp [hsingle]
  | a :: b :: alts, hne, h =>
    have hsplit : splitText magic (magic.intercalate (a :: b :: alts)) = a :: b :: alts :=
      splitText_intercalate hne fun t ht => (h t ht).no_magic
    have hjoined : contains magic (magic.intercalate (a :: b :: alts)) = true :=
      contains_intercalate (by decide) alts
    rw [hsplit, hjoined]
    simp

theorem Plain.no_prev_intercalate {alts : List Text} (h : ∀ a ∈ alts, Plain a) :
    '%' ∉ magic.intercalate alts :=
  notMem_intercalate (by decide) fun a ha => (h a ha).no_prev

theorem Plain.passes_iff {a output : Text} (h : Plain a) : Passes a output ↔ output = a := by
  have hone : Passes (magic.intercalate [a]) output ↔ output ∈ [a] :=
    passes_intercalate (List.cons_ne_nil a []) (by simpa using h)
  rwa [List.intercalate_singleton, List.mem_singleton] at hone

/-! ## Drivers

A driver is a step function from a state and an input line to the next state and the output
line.  The probes are the lines of `val_inputs`, each with its line of `val_oracles`. -/

section Drivers

variable {σ : Type} {step : σ → Text → Option (σ × Text)} {s s' s'' : σ} {P Q : Prop}

/-- From `s`, the driver executes all input lines and reaches `s'`, and its outputs pass the
oracles if and only if `P` holds. -/
def Checks (step : σ → Text → Option (σ × Text)) (s : σ) (probes : List (Text × Text)) (s' : σ)
    (P : Prop) : Prop :=
  (∀ p ∈ probes, '%' ∉ p.2) ∧
    ∃ outputs, Runs.transduce step s (probes.map Prod.fst) = some (s', outputs) ∧
      outputs.length = probes.length ∧ (∀ output ∈ outputs, '\n' ∉ output) ∧
      (List.Forall₂ Passes (probes.map Prod.snd) outputs ↔ P)

theorem Checks.nil (s : σ) : Checks step s [] s True :=
  ⟨by simp, [], rfl, rfl, by simp, by simp⟩

theorem Checks.cons {input oracle output : Text} {probes : List (Text × Text)}
    (hstep : step s input = some (s', output)) (hline : '\n' ∉ output) (hprev : '%' ∉ oracle)
    (hpass : Passes oracle output ↔ P) (h : Checks step s' probes s'' Q) :
    Checks step s ((input, oracle) :: probes) s'' (P ∧ Q) := by
  obtain ⟨hprevs, outputs, hrun, hlen, hlines, hiff⟩ := h
  refine ⟨?_, output :: outputs, Runs.transduce_cons hstep hrun, congrArg Nat.succ hlen, ?_, ?_⟩
  · simpa using ⟨hprev, fun a b hab => hprevs (a, b) hab⟩
  · simpa using ⟨hline, hlines⟩
  · rw [List.map_cons, List.forall₂_cons, hpass, hiff]

theorem Checks.congr {probes : List (Text × Text)} (h : Checks step s probes s' P) (hPQ : P ↔ Q) :
    Checks step s probes s' Q := by
  rwa [← hPQ]

/-- Two groups of probes, one after the other. -/
theorem Checks.append {probes probes' : List (Text × Text)} (h : Checks step s probes s' P)
    (h' : Checks step s' probes' s'' Q) : Checks step s (probes ++ probes') s'' (P ∧ Q) := by
  obtain ⟨hprevs, outs, hrun, hlen, hlines, hiff⟩ := h
  obtain ⟨hprevs', outs', hrun', hlen', hlines', hiff'⟩ := h'
  refine ⟨?_, outs ++ outs', ?_, by simp [hlen, hlen'], ?_, ?_⟩
  · intro p hp
    exact (List.mem_append.1 hp).elim (hprevs p) (hprevs' p)
  · rw [List.map_append]
    exact Runs.transduce_append hrun hrun'
  · intro o ho
    exact (List.mem_append.1 ho).elim (hlines o) (hlines' o)
  · rw [List.map_append, ← hiff, ← hiff']
    have hsplit : (probes.map Prod.snd).length = outs.length := by rw [List.length_map, hlen]
    constructor
    · intro hall
      refine ⟨?_, ?_⟩
      · have htake := List.forall₂_take_append _ _ _ hall
        rwa [← hsplit, List.take_left] at htake
      · have hdrop := List.forall₂_drop_append _ _ _ hall
        rwa [← hsplit, List.drop_left] at hdrop
    · rintro ⟨hall, hall'⟩
      exact List.rel_append hall hall'

/-- **The judgement, for the validator**: the driver finishes, and no bug is reported if and
only if `P` holds. -/
theorem Checks.validate {probes : List (Text × Text)} (h : Checks step s probes s' P) :
    ∃ outputs, Runs.transduce step s (probes.map Prod.fst) = some (s', outputs) ∧
      (validate false (probes.map Prod.snd) (some (unlines outputs)) = none ↔ P) := by
  obtain ⟨hprevs, outputs, hrun, hlen, hlines, hiff⟩ := h
  refine ⟨outputs, hrun, ?_⟩
  rw [← hiff]
  apply validate_eq_none_iff
  · rw [hlen, List.length_map]
  · intro oracle horacle
    obtain ⟨p, hp, rfl⟩ := List.mem_map.1 horacle
    exact hprevs p hp
  · exact hlines

end Drivers

end OPValidator

theorem Value.plain (v : Value) : OPValidator.Plain v.1 where
  ne_nil := v.2.1
  no_magic h := absurd (v.2.2 _ h) (by decide)
  no_any h := absurd (v.2.2 _ h) (by decide)
  no_prev h := absurd (v.2.2 _ h) (by decide)

end Durinn
