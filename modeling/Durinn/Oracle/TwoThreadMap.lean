import Durinn.Oracle.MapModel

/-!
# The two-thread map oracle

The model of `OPFile`, `PrefixOPFile`, `RaceOPFile` and `OPValidator` of `lib/op_file.py`.  Of
two racing operations of the op file the first one may or may not have taken effect when the
second one was executed and the crash happened; all operations before the later one, these two
excepted, were executed before.

* `genPrefix_spec` — the prefix file has the operations up to the later one of the pair,
  without the pair, in file order.
* `validate_legal_iff` — the oracle is exact: no bug is reported if and only if the recovered
  map agrees, on the tracked keys, with what the second operation makes of a legal map.
-/

namespace Durinn

open PyText

/-! ## The files -/

namespace OPFile

/-- The loop of `OPFile.gen_prefix`, over the lines and their indices. -/
def prefixLoop (pairMin pairMax : Nat) : List (Text × Nat) → List Text
  | [] => []
  | (op, i) :: ops =>
      if i = pairMin then prefixLoop pairMin pairMax ops
      else if i = pairMax then []
      else op :: prefixLoop pairMin pairMax ops

/-- `OPFile.gen_prefix`: the contents of the file. -/
def genPrefix (f : OPFile) (pair : Nat × Nat) : Text :=
  unlines (prefixLoop (min pair.1 pair.2) (max pair.1 pair.2) f.ops.zipIdx)

/-- `OPFile.gen_race`: the contents of the file; `none` is an `IndexError`. -/
def genRace (f : OPFile) (pair : Nat × Nat) : Option Text := do
  let op₁ ← f.ops[pair.1]?
  let op₂ ← f.ops[pair.2]?
  return unlines [op₁, op₂]

end OPFile

/-- `PrefixOPFile`. -/
structure PrefixOPFile where
  ops : List Text

namespace PrefixOPFile

/-- `PrefixOPFile.__init__`, on the contents of the file. -/
def new (content : Text) : PrefixOPFile := ⟨terminated '\n' content⟩

/-- The loop body of `PrefixOPFile.gen_model`. -/
def genModelStep (model : Dict Text Text) (op : Text) : Option (Dict Text Text) := do
  let entries := entriesOf op
  let ty ← entries[0]?
  match opType ty with
  | some .insert => do
      let opKey ← entries[1]?
      let opVal ← entries[2]?
      return model.set opKey opVal
  | some .delete => do
      let opKey ← entries[1]?
      return if opKey ∈ model.keys then model.erase opKey else model
  | some .get => return model
  | none => none

/-- `PrefixOPFile.gen_model`. -/
def genModel (f : PrefixOPFile) : Option (Dict Text Text) :=
  f.ops.foldlM genModelStep Dict.empty

end PrefixOPFile

/-- `RaceOPType`: the types of the two operations, and whether their keys are the same. -/
inductive RaceOPType where
  | pair (first second : OpType) (same : Bool)
  | other
  deriving DecidableEq, Repr

/-- `RaceOPType.init_type`. -/
def RaceOPType.initType (ops : List Text) : Option RaceOPType := do
  let entries₀ := entriesOf (← ops[0]?)
  let ty₀ ← entries₀[0]?
  let key₀ ← entries₀[1]?
  let entries₁ := entriesOf (← ops[1]?)
  let ty₁ ← entries₁[0]?
  let key₁ ← entries₁[1]?
  return match opType ty₀, opType ty₁ with
    | some .insert, some t => .pair .insert t (key₀ = key₁)
    | some .delete, some t => .pair .delete t (key₀ = key₁)
    | _, _ => .other

/-- `RaceOPFile`: the two lines, the recorded output, and the type of the race. -/
structure RaceOPFile where
  ops : List Text
  outputs : List Text
  raceOpType : RaceOPType
  firstOpDone : Bool

namespace RaceOPFile

/-- `RaceOPFile.__init__`, on the contents of the two files, with its two assertions. -/
def new (opFile outputFile : Text) (firstOpDone : Bool) : Option RaceOPFile := do
  let ops := terminated '\n' opFile
  let outputs := terminated '\n' outputFile
  if ops.length = 2 ∧ outputs.length = 1 then
    let raceOpType ← RaceOPType.initType ops
    return ⟨ops, outputs, raceOpType, firstOpDone⟩
  else none

/-- `RaceOPFile.gen_model`, the first operation. -/
def genModelFirst (f : RaceOPFile) (model : Dict Text Text) : Option (Dict Text Text) := do
  let entries := entriesOf (← f.ops[0]?)
  let ty ← entries[0]?
  match opType ty with
  | some .insert => do
      let opKey ← entries[1]?
      let opVal ← entries[2]?
      if f.firstOpDone then return model.set opKey opVal
      else match model.get? opKey with
        | none => return model.set opKey (opVal ++ magic ++ nullText)
        | some old => return model.set opKey (opVal ++ magic ++ old)
  | some .delete => do
      let opKey ← entries[1]?
      if f.firstOpDone then return model.set opKey nullText
      else match model.get? opKey with
        | none => return model.set opKey nullText
        | some old => return model.set opKey (nullText ++ magic ++ old)
  | _ => return model

/-- `RaceOPFile.gen_model`, the second operation. -/
def genModelSecond (f : RaceOPFile) (model : Dict Text Text) : Option (Dict Text Text) := do
  let entries := entriesOf (← f.ops[1]?)
  let ty ← entries[0]?
  match opType ty with
  | some .insert => do
      let opKey ← entries[1]?
      let opVal ← entries[2]?
      return model.set opKey opVal
  | some .delete => do
      let opKey ← entries[1]?
      return model.set opKey nullText
  | some .get => do
      -- get may return null, and it is treated as a value
      let opKey ← entries[1]?
      let opVal ← f.outputs[0]?
      return model.set opKey opVal
  | none => none

/-- `RaceOPFile.gen_model`. -/
def genModel (f : RaceOPFile) (model : Dict Text Text) : Option (Dict Text Text) :=
  (f.genModelFirst model).bind f.genModelSecond

end RaceOPFile

/-- `OPValidator`. -/
structure OPValidator where
  prefixOpFile : PrefixOPFile
  raceOpFile : RaceOPFile
  needDel : Bool

namespace OPValidator

/-- `OPValidator.__init__`, on the contents of the three files. -/
def new (prefixOpFile raceOpFile raceOutputFile : Text) (needDel firstOpDone : Bool) :
    Option OPValidator :=
  (RaceOPFile.new raceOpFile raceOutputFile firstOpDone).map fun race =>
    ⟨PrefixOPFile.new prefixOpFile, race, needDel⟩

/-- `OPValidator.gen_model`. -/
def genModel (v : OPValidator) : Option (Dict Text Text) :=
  v.prefixOpFile.genModel.bind v.raceOpFile.genModel

end OPValidator

/-! ## The prefix -/

namespace OPFile

/-- Behind the earlier operation of the pair, everything up to the later one is copied. -/
theorem prefixLoop_after {i j o : Nat} (hi : i < o) (l : List Text) :
    prefixLoop i (o + j) (l.zipIdx o) = l.take j := by
  induction l generalizing o j with
  | nil => simp [prefixLoop]
  | cons x l ih =>
    rw [List.zipIdx_cons, prefixLoop, if_neg (by omega)]
    cases j with
    | zero => simp
    | succ j =>
      have hj : o + (j + 1) = o + 1 + j := by omega
      rw [if_neg (by omega), hj, ih (by omega), List.take_succ_cons]

theorem prefixLoop_eq {i j o : Nat} (hij : i < j) (l : List Text) :
    prefixLoop (o + i) (o + j) (l.zipIdx o) = (l.take j).eraseIdx i := by
  induction l generalizing i j o with
  | nil => simp [prefixLoop]
  | cons x l ih =>
    obtain ⟨j, rfl⟩ : ∃ j', j = j' + 1 := ⟨j - 1, by omega⟩
    have hj : o + (j + 1) = o + 1 + j := by omega
    rw [List.zipIdx_cons, prefixLoop, List.take_succ_cons]
    cases i with
    | zero =>
      rw [Nat.add_zero, if_pos rfl, hj, prefixLoop_after (by omega), List.eraseIdx_cons_zero]
    | succ i =>
      have hi : o + (i + 1) = o + 1 + i := by omega
      rw [if_neg (by omega), if_neg (by omega), hi, hj, ih (by omega), List.eraseIdx_cons_succ]

/-- The operations that are executed before the race. -/
def prefixOf {α : Type} (ops : List α) (a b : Nat) : List α :=
  (ops.take (max a b)).eraseIdx (min a b)

theorem prefixOf_sublist {α : Type} (ops : List α) (a b : Nat) : (prefixOf ops a b).Sublist ops :=
  (List.eraseIdx_sublist _ _).trans (List.take_sublist _ _)

/-- The prefix and the pair are the operations up to the later one of the pair. -/
theorem prefixOf_perm {α : Type} {ops : List α} {a b : Nat} (hab : a ≠ b) (ha : a < ops.length)
    (hb : b < ops.length) :
    (prefixOf ops a b ++ [ops[a], ops[b]]).Perm (ops.take (max a b + 1)) := by
  have hlast : ∀ {i j : Nat} (hij : i < j) (hj : j < ops.length),
      ((ops.take j).eraseIdx i ++ [ops[i], ops[j]]).Perm (ops.take (j + 1)) := by
    intro i j hij hj
    have hi : i < (ops.take j).length := by
      rw [List.length_take]
      omega
    have hget : (ops.take j)[i] = ops[i] := List.getElem_take
    have herase := List.getElem_cons_eraseIdx_perm hi
    rw [hget] at herase
    rw [← List.take_append_getElem hj]
    calc ((ops.take j).eraseIdx i ++ [ops[i], ops[j]]).Perm
          (ops[i] :: ((ops.take j).eraseIdx i ++ [ops[j]])) := List.perm_middle
      _ = ops[i] :: (ops.take j).eraseIdx i ++ [ops[j]] := rfl
      List.Perm _ (ops.take j ++ [ops[j]]) := herase.append_right _
  rcases Nat.lt_or_gt_of_ne hab with h | h
  · rw [prefixOf, Nat.max_eq_right h.le, Nat.min_eq_left h.le]
    exact hlast h hb
  · rw [prefixOf, Nat.max_eq_left h.le, Nat.min_eq_right h.le]
    exact ((List.Perm.swap _ _ []).append_left _).trans (hlast h ha)

/-- **The prefix file** has the operations that are executed before the race. -/
theorem genPrefix_spec (lines : List OpLine) {a b : Nat} (hab : a ≠ b) :
    genPrefix ⟨lines.map OpLine.text⟩ (a, b) = unlines ((prefixOf lines a b).map OpLine.text) := by
  have hlt : min a b < max a b := by omega
  have hloop := prefixLoop_eq (o := 0) hlt (lines.map OpLine.text)
  rw [Nat.zero_add, Nat.zero_add] at hloop
  show unlines (prefixLoop (min a b) (max a b) (lines.map OpLine.text).zipIdx) = _
  rw [hloop, prefixOf, ← List.map_take, List.eraseIdx_map]

end OPFile

/-! ## The model of the prefix -/

namespace PrefixOPFile

/-- What an operation of the prefix does to the model. -/
def recordOp (model : Dict Text Text) : MapOp → Dict Text Text
  | .insert k v => model.set k.1 v.1
  | .delete k => if k.1 ∈ model.keys then model.erase k.1 else model
  | .get _ => model

theorem genModelStep_text (model : Dict Text Text) (l : OpLine) :
    genModelStep model l.text = some (recordOp model l.op) := by
  simp only [genModelStep, OpLine.entriesOf_text]
  cases l.op <;> simp [opType, recordOp]

/-- The model of the prefix is the map. -/
theorem get?_recordOp (model : Dict Text Text) (op : MapOp) :
    (recordOp model op).get? = op.apply model.get? := by
  funext x
  cases op with
  | insert k v =>
    rw [recordOp, MapOp.apply, Function.update_apply]
    exact Dict.get?_set model k.1 x v.1
  | delete k =>
    rw [recordOp, MapOp.apply, Function.update_apply]
    split
    · exact Dict.get?_erase model k.1 x
    · rename_i hk
      rw [Dict.mem_keys, Option.not_isSome_iff_eq_none] at hk
      by_cases hx : x = k.1 <;> simp [hx, hk]
  | get k => rfl

/-- **The prefix**: its model is the map after it. -/
theorem genModel_eq (lines : List OpLine) :
    ∃ model, genModel ⟨lines.map OpLine.text⟩ = some model ∧ model.get? = mapAfter lines := by
  unfold genModel
  induction lines using List.reverseRecOn with
  | nil => exact ⟨Dict.empty, rfl, rfl⟩
  | append_singleton lines l ih =>
    obtain ⟨model, hrun, hmodel⟩ := ih
    refine ⟨recordOp model l.op, ?_, ?_⟩
    · simp only [List.map_append, List.foldlM_append, hrun, List.map_cons, List.map_nil]
      simp [genModelStep_text]
    · rw [get?_recordOp, hmodel, mapAfter_append_singleton]

theorem genModel_models (lines : List OpLine) :
    ∃ model, genModel ⟨lines.map OpLine.text⟩ = some model ∧
      Models model (fun k => mapAfter lines k ≠ none) (fun k r => r = mapAfter lines k) := by
  obtain ⟨model, hrun, hmodel⟩ := genModel_eq lines
  refine ⟨model, hrun, Models.of_get? ?_ ?_ ?_⟩
  · intro k
    rw [hmodel, Option.ne_none_iff_exists']
  · intro k t hk
    rw [← hmodel, hk]
    rfl
  · intro k hk
    by_contra hnot
    exact hk (mapAfter_eq_none hnot)

end PrefixOPFile

/-! ## The model of the race -/

namespace RaceOPFile

/-- What a first operation that is done does to the model. -/
def recordDone (model : Dict Text Text) : MapOp → Dict Text Text
  | .insert k v => model.set k.1 v.1
  | .delete k => model.set k.1 nullText
  | .get _ => model

theorem genModelFirst_text {f : RaceOPFile} {l : OpLine} (hops : f.ops[0]? = some l.text)
    (model : Dict Text Text) :
    f.genModelFirst model =
      some (if f.firstOpDone then recordDone model l.op else recordInFlight model l.op) := by
  simp only [genModelFirst, hops, Option.bind_eq_bind, Option.bind_some, OpLine.entriesOf_text]
  cases l.op with
  | insert k v =>
    cases f.firstOpDone <;> cases hget : model.get? k.1 <;>
      simp [opType, recordDone, recordInFlight, hget]
  | delete k =>
    cases f.firstOpDone <;> cases hget : model.get? k.1 <;>
      simp [opType, recordDone, recordInFlight, hget]
  | get k => simp [opType, recordDone, recordInFlight]

theorem recordDone_models {model : Dict Text Text} {tracked : Text → Prop} {m : KV}
    (h : Models model tracked fun k r => r = m k) (op : MapOp) :
    Models (recordDone model op) (fun k => op.Writes k ∨ tracked k)
      (fun k r => r = op.apply m k) := by
  cases op with
  | insert k v =>
    apply h.set k.2.1
    · show Encodes (shown (some v.1)) _
      simpa [MapOp.apply] using encodes_shown (isReading_value v)
    · simp
    · intro x hx r
      simp [MapOp.apply, hx]
  | delete k =>
    apply h.set k.2.1
    · show Encodes (shown none) _
      simpa [MapOp.apply] using encodes_shown isReading_none
    · simp
    · intro x hx r
      simp [MapOp.apply, hx]
  | get k => simpa [recordDone, MapOp.apply] using h

/-- The entry that the second operation writes. -/
def secondEntry (output : Text) : MapOp → Text
  | .insert _ v => v.1
  | .delete _ => nullText
  | .get _ => output

theorem genModelSecond_text {f : RaceOPFile} {l : OpLine} {output : Text}
    (hops : f.ops[1]? = some l.text) (houtputs : f.outputs = [output]) (model : Dict Text Text) :
    f.genModelSecond model = some (model.set l.op.key (secondEntry output l.op)) := by
  simp only [genModelSecond, hops, houtputs, Option.bind_eq_bind, Option.bind_some,
    OpLine.entriesOf_text]
  cases l.op <;> simp [opType, secondEntry, MapOp.key]

end RaceOPFile

/-! ## Legal maps -/

section Legal

variable {P : KV} {op₁ op₂ : MapOp} {firstOpDone : Bool} {output : Text}

/-- A map that the second operation may have been executed on. -/
def Candidate (P : KV) (op₁ : MapOp) (firstOpDone : Bool) (S : KV) : Prop :=
  S = op₁.apply P ∨ firstOpDone = false ∧ S = P

/-- A candidate in which the second operation, if it is a get, reads the recorded output. -/
def LegalMap (P : KV) (op₁ op₂ : MapOp) (firstOpDone : Bool) (output : Text) (S : KV) : Prop :=
  Candidate P op₁ firstOpDone S ∧ ∀ k, op₂ = .get k → shown (S k.1) = output

/-- The keys the validator tracks: those bound in the prefix, the key of the first operation if
it is an insert or a delete, and the key of the second. -/
def TrackedPair (P : KV) (op₁ op₂ : MapOp) (k : Text) : Prop :=
  P k ≠ none ∨ op₁.Writes k ∨ k = op₂.key

/-- Candidates differ only where the first operation writes. -/
theorem Candidate.eq_of_not_writes {S S' : KV} (h : Candidate P op₁ firstOpDone S)
    (h' : Candidate P op₁ firstOpDone S') {k : Text} (hk : ¬op₁.Writes k) : S k = S' k := by
  have hsame : ∀ {T : KV}, Candidate P op₁ firstOpDone T → T k = P k := by
    rintro T (rfl | ⟨-, rfl⟩)
    · exact MapOp.apply_of_not_writes hk P
    · rfl
  rw [hsame h, hsame h']

theorem Candidate.isReading {S : KV} (h : Candidate P op₁ firstOpDone S)
    (hP : ∀ k, IsReading (P k)) (k : Text) : IsReading (S k) := by
  rcases h with rfl | ⟨-, rfl⟩
  · exact op₁.isReading_apply hP k
  · exact hP k

theorem MapOp.apply_congr (op : MapOp) {S S' : KV} {k : Text} (h : S k = S' k) :
    op.apply S k = op.apply S' k := by
  cases op <;> simp [MapOp.apply, Function.update_apply, h]

theorem MapOp.apply_of_ne_key {op : MapOp} {k : Text} (h : k ≠ op.key) (m : KV) :
    op.apply m k = m k :=
  MapOp.apply_of_not_writes (fun hw => h hw.eq_key) m

/-- What the second operation writes is its effect on a legal map. -/
theorem LegalMap.secondEntry_eq {S : KV} (h : LegalMap P op₁ op₂ firstOpDone output S) :
    RaceOPFile.secondEntry output op₂ = shown (op₂.apply S op₂.key) := by
  cases op₂ with
  | insert k v => simp [RaceOPFile.secondEntry, MapOp.apply, MapOp.key, shown]
  | delete k => simp [RaceOPFile.secondEntry, MapOp.apply, MapOp.key, shown]
  | get k => exact (h.2 k rfl).symm

/-- A candidate that agrees with a legal map on the key of the second operation is legal. -/
theorem LegalMap.of_candidate {S S₀ : KV} (h₀ : LegalMap P op₁ op₂ firstOpDone output S₀)
    (h : Candidate P op₁ firstOpDone S) (hkey : S op₂.key = S₀ op₂.key) :
    LegalMap P op₁ op₂ firstOpDone output S := by
  refine ⟨h, ?_⟩
  rintro k rfl
  show shown (S (MapOp.get k).key) = output
  rw [hkey]
  exact h₀.2 k rfl

/-- **Key by key or all at once**: the tracked keys have readings that some candidates give
them, after the second operation, if and only if one legal map gives all of them. -/
theorem exists_legalMap_iff (hP : ∀ k, IsReading (P k)) {S₀ : KV}
    (h₀ : LegalMap P op₁ op₂ firstOpDone output S₀) (s : KV) :
    (∀ k, TrackedPair P op₁ op₂ k →
      if k = op₂.key then s k = op₂.apply S₀ k
      else ∃ S, Candidate P op₁ firstOpDone S ∧ s k = S k) ↔
      ∃ S, LegalMap P op₁ op₂ firstOpDone output S ∧
        ∀ k, TrackedPair P op₁ op₂ k → s k = op₂.apply S k := by
  constructor
  · intro h
    -- the reading of the one key that the candidates differ in decides which map to take
    obtain ⟨S, hcand, hkey, hwrites⟩ : ∃ S, Candidate P op₁ firstOpDone S ∧
        S op₂.key = S₀ op₂.key ∧ ∀ k, op₁.Writes k → k ≠ op₂.key → s k = S k := by
      by_cases hex : ∃ k, op₁.Writes k ∧ k ≠ op₂.key
      · obtain ⟨k, hk, hne⟩ := hex
        have hreading := h k (Or.inr (Or.inl hk))
        rw [if_neg hne] at hreading
        obtain ⟨S, hcand, hs⟩ := hreading
        refine ⟨S, hcand, hcand.eq_of_not_writes h₀.1 fun hw => hne (hk.unique hw), ?_⟩
        intro k' hk' _
        rw [hk'.unique hk, hs]
      · refine ⟨S₀, h₀.1, rfl, ?_⟩
        intro k hk hne
        exact absurd ⟨k, hk, hne⟩ hex
    refine ⟨S, h₀.of_candidate hcand hkey, ?_⟩
    intro k hk
    have hreading := h k hk
    by_cases hk₂ : k = op₂.key
    · rw [if_pos hk₂] at hreading
      rw [hreading]
      apply op₂.apply_congr
      rw [hk₂, hkey]
    · rw [if_neg hk₂] at hreading
      rw [MapOp.apply_of_ne_key hk₂]
      by_cases hw : op₁.Writes k
      · exact hwrites k hw hk₂
      · obtain ⟨S', hcand', hs⟩ := hreading
        rw [hs, hcand'.eq_of_not_writes hcand hw]
  · rintro ⟨S, hS, hall⟩ k hk
    split
    · rename_i hk₂
      rw [hall k hk]
      have hentries := h₀.secondEntry_eq.symm.trans hS.secondEntry_eq
      rw [hk₂]
      exact (shown_inj (op₂.isReading_apply (h₀.1.isReading hP) _).ne_nullText
        (op₂.isReading_apply (hS.1.isReading hP) _).ne_nullText hentries).symm
    · rename_i hk₂
      exact ⟨S, hS.1, by rw [hall k hk, MapOp.apply_of_ne_key hk₂]⟩

end Legal

/-! ## The verdict -/

theorem MapOp.no_semicolon (op : MapOp) : ';' ∉ op.key := by
  cases op with
  | insert k v => exact k.2.1
  | delete k => exact k.2.1
  | get k => exact k.2.1

namespace RaceOPFile

theorem genModelFirst_models {f : RaceOPFile} {l : OpLine} (hops : f.ops[0]? = some l.text)
    {model : Dict Text Text} {P : KV} (h : Models model (fun k => P k ≠ none) fun k r => r = P k) :
    ∃ model', f.genModelFirst model = some model' ∧
      Models model' (fun k => l.op.Writes k ∨ P k ≠ none)
        (fun k r => ∃ S, Candidate P l.op f.firstOpDone S ∧ r = S k) := by
  refine ⟨_, genModelFirst_text hops model, ?_⟩
  cases f.firstOpDone with
  | true =>
    apply (recordDone_models h l.op).congr (fun k => Iff.rfl)
    intro k _ r
    simp [Candidate]
  | false =>
    apply (recordInFlight_models h (fun k hk => not_not.1 hk) l.op).congr (fun k => Iff.rfl)
    intro k _ r
    simp [Candidate, or_and_right, exists_or, or_comm]

/-- **The race**: from the model of the prefix, the model of what the second operation makes of
a candidate. -/
theorem genModel_models {f : RaceOPFile} {l₁ l₂ : OpLine} {output : Text}
    (hops : f.ops = [l₁.text, l₂.text]) (houtputs : f.outputs = [output]) {model : Dict Text Text}
    {P : KV} (hP : ∀ k, IsReading (P k))
    (h : Models model (fun k => P k ≠ none) fun k r => r = P k) {S₀ : KV}
    (h₀ : LegalMap P l₁.op l₂.op f.firstOpDone output S₀) :
    ∃ model', f.genModel model = some model' ∧
      Models model' (TrackedPair P l₁.op l₂.op) fun k r =>
        if k = l₂.op.key then r = l₂.op.apply S₀ k
        else ∃ S, Candidate P l₁.op f.firstOpDone S ∧ r = S k := by
  have hops₁ : f.ops[0]? = some l₁.text := by rw [hops]; rfl
  have hops₂ : f.ops[1]? = some l₂.text := by rw [hops]; rfl
  obtain ⟨model₁, hfirst, hmodels⟩ := genModelFirst_models hops₁ h
  refine ⟨model₁.set l₂.op.key (secondEntry output l₂.op), ?_, ?_⟩
  · rw [genModel, hfirst, Option.bind_some]
    exact genModelSecond_text hops₂ houtputs model₁
  · apply hmodels.set l₂.op.no_semicolon
    · rw [h₀.secondEntry_eq]
      simpa using encodes_shown (l₂.op.isReading_apply (h₀.1.isReading hP) l₂.op.key)
    · intro k
      rw [TrackedPair]
      tauto
    · intro k hk r
      rw [if_neg hk]

end RaceOPFile

theorem RaceOPType.isSome_initType (l₁ l₂ : OpLine) :
    ∃ ty, RaceOPType.initType [l₁.text, l₂.text] = some ty := by
  apply Option.isSome_iff_exists.1
  simp only [RaceOPType.initType, List.getElem?_cons_zero, List.getElem?_cons_succ,
    Option.bind_eq_bind, Option.bind_some, OpLine.entriesOf_text]
  cases l₁.op <;> cases l₂.op <;> simp

namespace OPValidator

/-- The validator reads the files that were written for it. -/
theorem new_eq (lines : List OpLine) (l₁ l₂ : OpLine) {output : Text} (houtput : '\n' ∉ output)
    (needDel firstOpDone : Bool) :
    ∃ ty, OPValidator.new (unlines (lines.map OpLine.text)) (unlines [l₁.text, l₂.text])
      (unlines [output]) needDel firstOpDone =
        some ⟨⟨lines.map OpLine.text⟩, ⟨[l₁.text, l₂.text], [output], ty, firstOpDone⟩,
          needDel⟩ := by
  have hlines : terminated '\n' (unlines (lines.map OpLine.text)) = lines.map OpLine.text :=
    terminated_unlines (List.forall_mem_map.2 fun l _ => l.line)
  have hrace : terminated '\n' (unlines [l₁.text, l₂.text]) = [l₁.text, l₂.text] :=
    terminated_unlines (by simp [l₁.line, l₂.line])
  have hout : terminated '\n' (unlines [output]) = [output] :=
    terminated_unlines (by simpa using houtput)
  obtain ⟨ty, hty⟩ := RaceOPType.isSome_initType l₁ l₂
  refine ⟨ty, ?_⟩
  simp [OPValidator.new, RaceOPFile.new, PrefixOPFile.new, hlines, hrace, hout, hty]

/-- **The two-thread map oracle is exact.**  For two lines `a` and `b` of the op file, let `P` be
the map after the lines of the prefix file.  A correct driver that starts from the recovered map
`s`, of which no value reads as `(null)` or breaks the line, executes all of `val_inputs`; no bug is
reported if and only if `s` agrees, on the tracked keys, with what the operation `b` makes of a
legal map.  The lines of the prefix file and the pair are the lines up to the later one of the pair,
and the prefix keeps their order. -/
theorem validate_legal_iff (lines : List OpLine) {a b : Nat} (ha : a < lines.length)
    (hb : b < lines.length) (hab : a ≠ b) (needDel firstOpDone : Bool) {output : Text}
    (houtput : '\n' ∉ output)
    (hlegal : ∃ S, LegalMap (mapAfter (OPFile.prefixOf lines a b)) lines[a].op lines[b].op
      firstOpDone output S) :
    let file := OPFile.new (unlines (lines.map OpLine.text))
    let P := mapAfter (OPFile.prefixOf lines a b)
    (∃ race v model, file.genRace (a, b) = some race ∧
      OPValidator.new (file.genPrefix (a, b)) race (unlines [output]) needDel firstOpDone = some v ∧
      v.genModel = some model ∧
      ∀ ack : KV → Text → Text, (∀ m line, '\n' ∉ ack m line) → ∀ s : KV, Readable s →
        ∃ s' outputs, Runs.transduce (mapDriver ack) s
            ((genValInputAndOracle v.needDel model).map Prod.fst) = some (s', outputs) ∧
          (validate false ((genValInputAndOracle v.needDel model).map Prod.snd)
              (some (unlines outputs)) = none ↔
            ∃ S, LegalMap P lines[a].op lines[b].op firstOpDone output S ∧
              ∀ k, TrackedPair P lines[a].op lines[b].op k → s k = lines[b].op.apply S k)) ∧
      file.genPrefix (a, b) = unlines ((OPFile.prefixOf lines a b).map OpLine.text) ∧
      (OPFile.prefixOf lines a b ++ [lines[a], lines[b]]).Perm (lines.take (max a b + 1)) ∧
      (OPFile.prefixOf lines a b).Sublist lines := by
  have hfile : OPFile.new (unlines (lines.map OpLine.text)) = ⟨lines.map OpLine.text⟩ := by
    rw [OPFile.new, terminated_unlines (List.forall_mem_map.2 fun l _ => l.line)]
  intro file P
  have hpre : file.genPrefix (a, b) = unlines ((OPFile.prefixOf lines a b).map OpLine.text) := by
    show OPFile.genPrefix (OPFile.new _) (a, b) = _
    rw [hfile, OPFile.genPrefix_spec lines hab]
  have hrace : file.genRace (a, b) = some (unlines [lines[a].text, lines[b].text]) := by
    show OPFile.genRace (OPFile.new _) (a, b) = _
    simp [hfile, OPFile.genRace, ha, hb]
  refine ⟨?_, hpre, OPFile.prefixOf_perm hab ha hb, OPFile.prefixOf_sublist lines a b⟩
  obtain ⟨S₀, h₀⟩ := hlegal
  obtain ⟨ty, hnew⟩ := new_eq (OPFile.prefixOf lines a b) lines[a] lines[b] houtput needDel
    firstOpDone
  obtain ⟨model₀, hmodel₀, hmodels₀⟩ := PrefixOPFile.genModel_models (OPFile.prefixOf lines a b)
  have hP : ∀ k, IsReading (P k) := isReading_mapAfter _
  obtain ⟨model, hmodel, hmodels⟩ := RaceOPFile.genModel_models
    (f := ⟨[lines[a].text, lines[b].text], [output], ty, firstOpDone⟩) rfl rfl hP hmodels₀ h₀
  refine ⟨_, _, model, hrace, by rw [hpre]; exact hnew, ?_, ?_⟩
  · show (PrefixOPFile.genModel _).bind _ = _
    rw [hmodel₀, Option.bind_some]
    exact hmodel
  · intro ack hack s hs
    obtain ⟨s', hchecks⟩ := checks_genValInputAndOracle hack hmodels needDel hs
    obtain ⟨outputs, hrun, hiff⟩ := hchecks.validate
    exact ⟨s', outputs, hrun, hiff.trans (exists_legalMap_iff hP h₀ s)⟩

/-- A key is inserted twice, and read. -/
def overwriteAndGet : List OpLine :=
  [.bare (.insert (number 1).toKey (number 7)), .bare (.insert (number 1).toKey (number 8)),
    .bare (.get (number 1).toKey)]

/-- The get races with the second insert and read the value of the first: a recovered map with
that value passes. -/
theorem validate_legal_iff_overwriteAndGet :
    ∃ race v model,
      (OPFile.new (unlines (overwriteAndGet.map OpLine.text))).genRace (1, 2) = some race ∧
      OPValidator.new ((OPFile.new (unlines (overwriteAndGet.map OpLine.text))).genPrefix (1, 2))
        race (unlines [['7']]) true false = some v ∧ v.genModel = some model ∧
      ∃ s' outputs, Runs.transduce (mapDriver fun _ _ => [])
          (mapAfter (OPFile.prefixOf overwriteAndGet 1 2))
          ((genValInputAndOracle v.needDel model).map Prod.fst) = some (s', outputs) ∧
        validate false ((genValInputAndOracle v.needDel model).map Prod.snd)
          (some (unlines outputs)) = none := by
  have hlegal : LegalMap (mapAfter (OPFile.prefixOf overwriteAndGet 1 2)) overwriteAndGet[1].op
      overwriteAndGet[2].op false ['7'] (mapAfter (OPFile.prefixOf overwriteAndGet 1 2)) := by
    refine ⟨Or.inr ⟨rfl, rfl⟩, ?_⟩
    intro k hk
    cases hk
    decide
  obtain ⟨⟨race, v, model, hrace, hv, hmodel, h⟩, -⟩ := validate_legal_iff overwriteAndGet
    (a := 1) (b := 2) (by decide) (by decide) (by decide) true false (by decide) ⟨_, hlegal⟩
  have hread : Readable (mapAfter (OPFile.prefixOf overwriteAndGet 1 2)) := by
    intro k v hv
    have hreading := isReading_mapAfter (OPFile.prefixOf overwriteAndGet 1 2) k
    obtain ⟨w, rfl⟩ := hreading v hv
    exact ⟨hreading.ne_nullText _ hv, w.line⟩
  obtain ⟨s', outputs, hrun, hiff⟩ := h (fun _ _ => []) (by simp) _ hread
  exact ⟨race, v, model, hrace, hv, hmodel, s', outputs, hrun, hiff.2 ⟨_, hlegal, fun k _ => rfl⟩⟩

end OPValidator

end Durinn
