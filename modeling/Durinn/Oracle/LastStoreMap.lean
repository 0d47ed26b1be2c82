import Durinn.Oracle.MapModel

/-!
# The last-store map oracle

The model of `LSOPValidator` of `lib/op_file.py`.  A single thread has executed the first `n`
operations of the op file and crashed in the operation `n`: the recovered map should be the
one before or the one after that operation.  The validator records, for every key it tracks,
the reading before, and for the key of the operation `n` also the one after; it inserts 100
extra keys first, to see that the recovered map can still be used.

* `genModel_models` — the recorded readings are those of the two maps.
* `validate_iff` — the oracle is exact: no bug is reported if and only if the recovered map
  agrees, on the tracked keys, with the map before or with the map after the operation.
-/

namespace Durinn

open PyText OPValidator

namespace LSOPValidator

/-! ## The validator -/

/-- The loop body of `LSOPValidator.gen_model`, on a line and its index. -/
def genModelStep (lsOpIdx : Nat) (model : Dict Text Text) (x : Text × Nat) :
    Option (Dict Text Text) := do
  let entries := entriesOf x.1
  let ty ← entries[0]?
  match opType ty with
  | some .insert => do
      let opKey ← entries[1]?
      let opVal ← entries[2]?
      if x.2 ≠ lsOpIdx then return model.set opKey opVal
      else match model.get? opKey with
        | none => return model.set opKey (opVal ++ magic ++ nullText)
        | some old => return model.set opKey (opVal ++ magic ++ old)
  | some .delete => do
      let opKey ← entries[1]?
      if x.2 ≠ lsOpIdx then return if opKey ∈ model.keys then model.set opKey nullText else model
      else match model.get? opKey with
        | none => return model.set opKey nullText
        | some old => return model.set opKey (nullText ++ magic ++ old)
  | some .get => return model
  | none => none

/-- `LSOPValidator.gen_model`: the loop ends after the operation in flight. -/
def genModel (ops : List Text) (lsOpIdx : Nat) : Option (Dict Text Text) :=
  (ops.take (lsOpIdx + 1)).zipIdx.foldlM (genModelStep lsOpIdx) Dict.empty

/-- `str(random.randint(low, high))`, where `draw` decides which number it is. -/
def randKey (low high draw : Nat) : Text := Nat.toDigits 10 (low + draw % (high + 1 - low))

/-- `while key in extra_keys or key in self.model`: draw again; `none` if the draws do not
suffice. -/
def redraw (taken : Text → Bool) (key : Text) : List Nat → Option (Text × List Nat)
  | [] => if taken key then none else some (key, [])
  | d :: draws =>
      if taken key then redraw taken (randKey 0 1000 d) draws else some (key, d :: draws)

/-- One extra key. -/
def extraKey (model : Dict Text Text) (st : Dict Text Text × List Nat) :
    Option (Dict Text Text × List Nat) :=
  match st.2 with
  | [] => none
  | d :: draws =>
      (redraw (fun key => key ∈ st.1.keys ∨ key ∈ model.keys) (randKey 1 1000 d) draws).map
        fun r => (st.1.set r.1 r.1, r.2)

/-- The 100 extra keys. -/
def extraKeys (model : Dict Text Text) (draws : List Nat) : Option (Dict Text Text) :=
  ((List.range 100).foldlM (fun st _ => extraKey model st) (Dict.empty, draws)).map Prod.fst

/-- `LSOPValidator.gen_val_input_and_oracle`: the lines of `val_inputs`, each with its line of
`val_oracles`. -/
def genValInputAndOracle (needDel : Bool) (model : Dict Text Text) (draws : List Nat) :
    Option (List (Text × Text)) :=
  (extraKeys model draws).map fun extraKeys =>
    (extraKeys.keys.map fun key => (insLine key key, [])) ++ getProbes extraKeys ++
      getProbes model ++ delProbes needDel model

/-! ## The extra keys -/

theorem redraw_spec {taken : Text → Bool} {key k : Text} {draws rest : List Nat}
    (h : redraw taken key draws = some (k, rest)) (hkey : ∃ n, key = (number n).1) :
    taken k = false ∧ ∃ n, k = (number n).1 := by
  induction draws generalizing key with
  | nil =>
    unfold redraw at h
    split at h
    · cases h
    · rename_i htaken
      cases h
      exact ⟨Bool.eq_false_iff.2 htaken, hkey⟩
  | cons d draws ih =>
    unfold redraw at h
    split at h
    · exact ih h ⟨_, rfl⟩
    · rename_i htaken
      cases h
      exact ⟨Bool.eq_false_iff.2 htaken, hkey⟩

/-- The extra keys are numbers, each bound to itself, and none is in the model. -/
theorem extraKeys_spec {model extra : Dict Text Text} {draws : List Nat}
    (h : extraKeys model draws = some extra) :
    ∀ k t, extra.get? k = some t → t = k ∧ k ∉ model.keys ∧ ∃ n, k = (number n).1 := by
  obtain ⟨st, hst, rfl⟩ := Option.map_eq_some_iff.1 h
  apply Runs.invariant
    (fun _ st => ∀ k t, st.1.get? k = some t → t = k ∧ k ∉ model.keys ∧ ∃ n, k = (number n).1)
    (by simp) _ hst
  intro done a st st' _ hinv hstep k t hk
  unfold extraKey at hstep
  split at hstep
  · cases hstep
  · rename_i d draws _
    obtain ⟨⟨key, rest⟩, hkey, rfl⟩ := Option.map_eq_some_iff.1 hstep
    obtain ⟨hfree, hnum⟩ := redraw_spec hkey ⟨_, rfl⟩
    rw [Dict.get?_set] at hk
    split at hk
    · rename_i heq
      cases hk
      refine ⟨heq.symm, ?_, heq ▸ hnum⟩
      have hnot : ¬(key ∈ st.1.keys ∨ key ∈ model.keys) := by simpa using hfree
      rw [heq]
      exact fun hmem => hnot (Or.inr hmem)
    · exact hinv k t hk

/-! ## The model -/

/-- What an operation before the one in flight does to the model: unlike the map, the model
keeps deleted keys. -/
def recordOp (model : Dict Text Text) : MapOp → Dict Text Text
  | .insert k v => model.set k.1 v.1
  | .delete k => if k.1 ∈ model.keys then model.set k.1 nullText else model
  | .get _ => model

theorem genModelStep_text (n i : Nat) (model : Dict Text Text) (l : OpLine) :
    genModelStep n model (l.text, i) =
      some (if i ≠ n then recordOp model l.op else recordInFlight model l.op) := by
  simp only [genModelStep, OpLine.entriesOf_text]
  cases l.op with
  | insert k v =>
    by_cases hi : i = n <;> cases hget : model.get? k.1 <;>
      simp [opType, recordOp, recordInFlight, hi, hget]
  | delete k =>
    by_cases hi : i = n <;> cases hget : model.get? k.1 <;>
      simp [opType, recordOp, recordInFlight, hi, hget, Dict.mem_keys]
  | get k => simp [opType, recordOp, recordInFlight]

theorem get?_recordOp (model : Dict Text Text) (op : MapOp) (x : Text) :
    (recordOp model op).get? x =
      match op with
      | .insert k v => if x = k.1 then some v.1 else model.get? x
      | .delete k => if x = k.1 then (model.get? x).map fun _ => nullText else model.get? x
      | .get _ => model.get? x := by
  cases op with
  | insert k v => exact Dict.get?_set model k.1 x v.1
  | delete k =>
    simp only [recordOp, Dict.mem_keys]
    by_cases hx : x = k.1
    · rw [hx, if_pos rfl]
      cases hget : model.get? k.1 <;> simp [hget]
    · rw [if_neg hx]
      split
      · exact Dict.get?_set_of_ne model nullText hx
      · rfl
  | get k => rfl

/-- The model has the keys inserted so far, each with its reading in the map. -/
structure Follows (model : Dict Text Text) (lines : List OpLine) : Prop where
  tracked_iff : ∀ k, (∃ l ∈ lines, l.op.Inserts k) ↔ ∃ t, model.get? k = some t
  reading : ∀ k t, model.get? k = some t → t = shown (mapAfter lines k)

/-- **One operation** before the one in flight: the model follows the map. -/
theorem Follows.recordOp {model : Dict Text Text} {lines : List OpLine} (h : Follows model lines)
    (l : OpLine) : Follows (recordOp model l.op) (lines ++ [l]) := by
  have hsplit : ∀ k, (∃ x ∈ lines ++ [l], x.op.Inserts k) ↔
      (∃ x ∈ lines, x.op.Inserts k) ∨ l.op.Inserts k := by
    simp [or_and_right, exists_or]
  refine ⟨?_, ?_⟩
  · intro k
    rw [hsplit, h.tracked_iff, get?_recordOp]
    cases l.op with
    | insert k' v => by_cases hk : k = k'.1 <;> simp [hk]
    | delete k' => by_cases hk : k = k'.1 <;> simp [hk]
    | get k' => simp
  · intro k t
    rw [get?_recordOp, mapAfter_append_singleton]
    cases l.op with
    | insert k' v =>
      by_cases hk : k = k'.1
      · simpa [hk, MapOp.apply, shown] using Eq.symm
      · simpa [hk, MapOp.apply] using h.reading k t
    | delete k' =>
      by_cases hk : k = k'.1
      · simpa [hk, MapOp.apply, shown] using fun _ _ => Eq.symm
      · simpa [hk, MapOp.apply] using h.reading k t
    | get k' => exact h.reading k t

/-- **The operations before the one in flight**: the model is the map so far, on the keys
inserted so far. -/
theorem foldlM_genModelStep {n : Nat} {lines : List OpLine} (hlen : lines.length ≤ n) :
    ∃ model, (lines.map OpLine.text).zipIdx.foldlM (genModelStep n) Dict.empty = some model ∧
      Follows model lines := by
  induction lines using List.reverseRecOn with
  | nil => exact ⟨Dict.empty, rfl, by simp, by simp⟩
  | append_singleton lines l ih =>
    rw [List.length_append, List.length_singleton] at hlen
    obtain ⟨model, hrun, hmodel⟩ := ih (by omega)
    have hi : lines.length ≠ n := by omega
    refine ⟨LSOPValidator.recordOp model l.op, ?_, hmodel.recordOp l⟩
    simp [List.zipIdx_append, List.foldlM_append, hrun, genModelStep_text, hi]

/-- The operation in flight is the last one the model is made from. -/
theorem genModel_eq (lines : List OpLine) {n : Nat} (hn : n < lines.length) :
    ∃ model, genModel (lines.map OpLine.text) n = some (recordInFlight model lines[n].op) ∧
      Follows model (lines.take n) := by
  obtain ⟨model, hrun, hmodel⟩ := foldlM_genModelStep (List.length_take_le n lines)
  refine ⟨model, ?_, hmodel⟩
  rw [genModel, ← List.map_take, ← List.take_append_getElem hn, List.map_append,
    List.zipIdx_append, List.foldlM_append, hrun]
  simp [genModelStep_text, hn.le]

/-- The keys the validator tracks: those inserted so far, and the key of the operation in
flight, if it is an insert or a delete. -/
def Tracked (lines : List OpLine) (n : Nat) (k : Text) : Prop :=
  (∃ l ∈ lines.take (n + 1), l.op.Inserts k) ∨ ∃ l, lines[n]? = some l ∧ l.op.Writes k

/-- **The model** has the tracked keys, and under each the readings of the map before and of
the map after the operation in flight. -/
theorem genModel_models (lines : List OpLine) {n : Nat} (hn : n < lines.length) :
    ∃ model, genModel (lines.map OpLine.text) n = some model ∧
      Models model (Tracked lines n)
        (fun k r => r = mapAfter (lines.take n) k ∨ r = mapAfter (lines.take (n + 1)) k) := by
  obtain ⟨model, hrun, hfollows⟩ := genModel_eq lines hn
  have hmodel := Models.of_get? hfollows.tracked_iff hfollows.reading fun k hk => hk
  have htake : lines.take (n + 1) = lines.take n ++ [lines[n]] := (List.take_append_getElem hn).symm
  refine ⟨recordInFlight model lines[n].op, hrun, ?_⟩
  rw [htake, mapAfter_append_singleton]
  apply (recordInFlight_models hmodel (fun k hk => mapAfter_eq_none hk) lines[n].op).congr
  · intro k
    rw [Tracked, htake, List.getElem?_eq_getElem hn]
    simp only [List.mem_append, List.mem_singleton, Option.some.injEq, exists_eq_left',
      or_and_right, exists_or, exists_eq_left]
    constructor
    · rintro (hwrites | hins)
      · exact Or.inr hwrites
      · exact Or.inl (Or.inl hins)
    · rintro ((hins | hins) | hwrites)
      · exact Or.inr hins
      · exact Or.inl (Or.inl hins)
      · exact Or.inl hwrites
  · intro k _ r
    exact Iff.rfl

/-! ## The verdict -/

/-- The probes with the extra keys: they change nothing for the tracked keys. -/
theorem checks_probes {model : Dict Text Text} {tracked : Text → Prop}
    {legal : Text → Option Text → Prop} (h : Models model tracked legal) {needDel : Bool}
    {draws : List Nat} {probes : List (Text × Text)}
    (hprobes : genValInputAndOracle needDel model draws = some probes)
    {ack : KV → Text → Text} (hack : ∀ m line, '\n' ∉ ack m line) {s : KV} (hs : Readable s) :
    ∃ s', Checks (mapDriver ack) s probes s' (∀ k, tracked k → legal k (s k)) := by
  obtain ⟨extra, hextra, rfl⟩ := Option.map_eq_some_iff.1 hprobes
  have hspec := extraKeys_spec hextra
  have hmodels : Models extra (fun k => k ∈ extra.keys) (fun k r => r = some k) := by
    refine ⟨fun k => Dict.mem_keys.trans Option.isSome_iff_exists, ?_, ?_⟩
    · intro k t hk
      obtain ⟨rfl, -, n, rfl⟩ := hspec k t hk
      exact encodes_shown (isReading_value (number n))
    · intro k hk
      obtain ⟨t, ht⟩ := Option.isSome_iff_exists.1 (Dict.mem_keys.1 hk)
      obtain ⟨-, -, n, rfl⟩ := hspec k t ht
      exact (number n).no_semicolon
  obtain ⟨m, hins, hm⟩ := checks_inserts hack (fun k hk => hmodels.key k hk) s
  have hread : Readable m := by
    intro k v hv
    rw [hm] at hv
    split at hv
    · rename_i hk
      obtain ⟨t, ht⟩ := Option.isSome_iff_exists.1 (Dict.mem_keys.1 hk)
      obtain ⟨-, -, n, rfl⟩ := hspec k t ht
      cases hv
      exact ⟨(isReading_value (number n)).ne_nullText _ rfl, (number n).line⟩
    · exact hs k v hv
  have hsame : ∀ k, tracked k → m k = s k := by
    intro k hk
    rw [hm, if_neg]
    intro hmem
    obtain ⟨t, ht⟩ := Option.isSome_iff_exists.1 (Dict.mem_keys.1 hmem)
    exact (hspec k t ht).2.1 (Dict.mem_keys.2 (Option.isSome_iff_exists.2 ((h.tracked_iff k).1 hk)))
  have hown : ∀ k, k ∈ extra.keys → m k = some k := fun k hk => by rw [hm, if_pos hk]
  obtain ⟨s', hrest⟩ := checks_delProbes hack h needDel hread
  refine ⟨s', (((hins.append (checks_getProbes hmodels hread)).append
    (checks_getProbes h hread)).append hrest).congr ?_⟩
  constructor
  · rintro ⟨⟨-, hlegal⟩, -⟩ k hk
    rw [← hsame k hk]
    exact hlegal k hk
  · intro hlegal
    refine ⟨⟨⟨trivial, hown⟩, ?_⟩, trivial⟩
    intro k hk
    rw [hsame k hk]
    exact hlegal k hk

/-- Maps that differ in one key: to agree with one of them in every key is to agree with one
of them in all keys. -/
theorem forall_or_iff {tracked : Text → Prop} (op : MapOp) (m s : KV) :
    (∀ k, tracked k → s k = m k ∨ s k = op.apply m k) ↔
      (∀ k, tracked k → s k = m k) ∨ ∀ k, tracked k → s k = op.apply m k := by
  constructor
  · intro h
    have hother : ∀ k, ¬op.Writes k → tracked k → s k = m k := by
      intro k hk htracked
      rcases h k htracked with hm | hm
      · exact hm
      · rw [hm, MapOp.apply_of_not_writes hk]
    by_cases hbefore : ∀ k, tracked k → op.Writes k → s k = m k
    · left
      intro k hk
      by_cases hw : op.Writes k
      · exact hbefore k hk hw
      · exact hother k hw hk
    · right
      push Not at hbefore
      obtain ⟨k₀, hk₀, hw₀, hne⟩ := hbefore
      intro k hk
      by_cases hw : op.Writes k
      · rw [hw.unique hw₀]
        exact (h k₀ hk₀).resolve_left hne
      · rw [hother k hw hk, MapOp.apply_of_not_writes hw]
  · rintro (h | h) k hk
    · exact Or.inl (h k hk)
    · exact Or.inr (h k hk)

/-- **The last-store map oracle is exact.**  A correct driver that starts from the recovered
map `s`, of which no value reads as `(null)` or breaks the line, executes all of `val_inputs`; no
bug is reported if and only if `s` agrees, on the tracked keys, with the map before or with the map
after the operation in flight. -/
theorem validate_iff (lines : List OpLine) {n : Nat} (hn : n < lines.length) :
    ∃ model, genModel (lines.map OpLine.text) n = some model ∧
      ∀ (needDel : Bool) (draws : List Nat) (probes : List (Text × Text)),
        genValInputAndOracle needDel model draws = some probes →
      ∀ ack : KV → Text → Text, (∀ m line, '\n' ∉ ack m line) → ∀ s : KV, Readable s →
        ∃ s' outputs,
          Runs.transduce (mapDriver ack) s (probes.map Prod.fst) = some (s', outputs) ∧
          (validate false (probes.map Prod.snd) (some (unlines outputs)) = none ↔
            (∀ k, Tracked lines n k → s k = mapAfter (lines.take n) k) ∨
              ∀ k, Tracked lines n k → s k = mapAfter (lines.take (n + 1)) k) := by
  obtain ⟨model, hmodel, hmodels⟩ := genModel_models lines hn
  refine ⟨model, hmodel, ?_⟩
  intro needDel draws probes hprobes ack hack s hs
  obtain ⟨s', hchecks⟩ := checks_probes hmodels hprobes hack hs
  obtain ⟨outputs, hrun, hiff⟩ := hchecks.validate
  refine ⟨s', outputs, hrun, hiff.trans ?_⟩
  have hstep : mapAfter (lines.take (n + 1)) = lines[n].op.apply (mapAfter (lines.take n)) := by
    rw [← List.take_append_getElem hn, mapAfter_append_singleton]
  rw [hstep]
  exact forall_or_iff _ _ _

/-- Two operations: the key `1` is inserted, and then deleted. -/
def insertDelete : List OpLine :=
  [.bare (.insert (number 1).toKey (number 7)), .bare (.delete (number 1).toKey)]

theorem validate_iff_insertDelete :
    ∃ model probes, genModel (insertDelete.map OpLine.text) 1 = some model ∧
      genValInputAndOracle true model (List.range' 1 100) = some probes ∧
      ∃ s' outputs, Runs.transduce (mapDriver fun _ _ => []) (fun _ => none)
        (probes.map Prod.fst) = some (s', outputs) ∧
        (validate false (probes.map Prod.snd) (some (unlines outputs)) = none ↔
          (∀ k, Tracked insertDelete 1 k → none = mapAfter (insertDelete.take 1) k) ∨
            ∀ k, Tracked insertDelete 1 k → none = mapAfter (insertDelete.take 2) k) := by
  obtain ⟨model, hmodel, h⟩ := validate_iff insertDelete (n := 1) (by decide)
  have hsome : ((genModel (insertDelete.map OpLine.text) 1).bind fun model =>
      genValInputAndOracle true model (List.range' 1 100)).isSome = true := by decide +kernel
  rw [hmodel, Option.bind_some] at hsome
  obtain ⟨probes, hprobes⟩ := Option.isSome_iff_exists.1 hsome
  refine ⟨model, probes, hmodel, hprobes, ?_⟩
  exact h true _ probes hprobes (fun _ _ => []) (by simp) (fun _ => none)
    (fun k v hv => by cases hv)

end LSOPValidator

end Durinn
