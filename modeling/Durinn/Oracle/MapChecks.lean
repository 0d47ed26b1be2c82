import Durinn.Oracle.LastStoreMap
import Durinn.Oracle.TwoThreadMap

/-!
# What the two map oracles ask about completed operations

`PrefixOPFile.gen_model` and `LSOPValidator.gen_model` of `lib/op_file.py` go through the same
completed operations, but the first one forgets a deleted key, and the second one keeps it with
the reading `(null)`.

* `sameChecks_iff` — the two validators ask the same about the keys that no pending operation
  names, if and only if none of these keys was inserted, then deleted, and not inserted again.
-/

namespace Durinn

open PyText OPValidator

/-! ## Checks -/

/-- The gets with an oracle are the entries of the model. -/
theorem mem_getProbes {model : Dict Text Text} {k t : Text} :
    (getLine k, t) ∈ getProbes model ↔ model.get? k = some t := by
  rw [getProbes, List.mem_map]
  constructor
  · rintro ⟨⟨k', t'⟩, he, heq⟩
    obtain ⟨hk, rfl⟩ := Prod.mk.inj heq
    have hkey : k' = k := by simpa [getLine] using hk
    rw [← hkey]
    exact Dict.mem_entries.1 he
  · intro h
    exact ⟨(k, t), Dict.mem_entries.2 h, rfl⟩

/-- The two models lead to the same checks, for the keys that are not among `named`. -/
def SameChecks (model model' : Dict Text Text) (named : List Text) : Prop :=
  ∀ k, k ∉ named → ∀ t, (getLine k, t) ∈ getProbes model ↔ (getLine k, t) ∈ getProbes model'

theorem get?_recordInFlight_of_ne {model : Dict Text Text} {op : MapOp} {k : Text}
    (hk : k ≠ op.key) : (recordInFlight model op).get? k = model.get? k := by
  cases op with
  | insert k' v =>
    rw [recordInFlight]
    split <;> exact Dict.get?_set_of_ne model _ hk
  | delete k' =>
    rw [recordInFlight]
    split <;> exact Dict.get?_set_of_ne model _ hk
  | get k' => rfl

theorem RaceOPFile.get?_recordDone_of_ne {model : Dict Text Text} {op : MapOp} {k : Text}
    (hk : k ≠ op.key) : (recordDone model op).get? k = model.get? k := by
  cases op with
  | insert k' v => exact Dict.get?_set_of_ne model _ hk
  | delete k' => exact Dict.get?_set_of_ne model _ hk
  | get k' => rfl

/-- The race concerns the keys of its two operations only. -/
theorem RaceOPFile.genModel_get? {f : RaceOPFile} {l₁ l₂ : OpLine} {output : Text}
    (hops : f.ops = [l₁.text, l₂.text]) (houtputs : f.outputs = [output])
    (model : Dict Text Text) :
    ∃ model', f.genModel model = some model' ∧
      ∀ k, k ≠ l₁.op.key → k ≠ l₂.op.key → model'.get? k = model.get? k := by
  have hops₁ : f.ops[0]? = some l₁.text := by rw [hops]; rfl
  have hops₂ : f.ops[1]? = some l₂.text := by rw [hops]; rfl
  have hfirst := genModelFirst_text hops₁ model
  refine ⟨_, (congrArg (·.bind f.genModelSecond) hfirst).trans
    (genModelSecond_text hops₂ houtputs _), ?_⟩
  intro k hk₁ hk₂
  rw [Dict.get?_set_of_ne _ _ hk₂]
  split
  · exact get?_recordDone_of_ne hk₁
  · exact get?_recordInFlight_of_ne hk₁

/-! ## Deleted keys -/

/-- The key was inserted, then deleted, and not inserted again. -/
def DeletedLast (lines : List OpLine) (k : Text) : Prop :=
  ∃ u l v, lines = u ++ l :: v ∧ (∃ k', l.op = .delete k' ∧ k'.1 = k) ∧
    (∃ x ∈ u, x.op.Inserts k) ∧ ∀ x ∈ v, ¬x.op.Inserts k

theorem deletedLast_iff {lines : List OpLine} {k : Text} :
    DeletedLast lines k ↔ (∃ l ∈ lines, l.op.Inserts k) ∧ mapAfter lines k = none := by
  constructor
  · rintro ⟨u, l, v, rfl, ⟨k', hop, hk⟩, ⟨x, hx, hins⟩, hv⟩
    refine ⟨⟨x, List.mem_append_left _ hx, hins⟩, ?_⟩
    rw [List.append_cons]
    refine mapAfter_append_eq_none ?_ hv
    rw [mapAfter_append_singleton, hop, ← hk]
    exact Function.update_self _ _ _
  · rintro ⟨hins, hnone⟩
    induction lines using List.reverseRecOn with
    | nil => simp at hins
    | append_singleton lines l ih =>
      rw [mapAfter_append_singleton] at hnone
      have hl : ¬l.op.Inserts k := by
        rintro ⟨k', v, hop, rfl⟩
        rw [hop] at hnone
        simp [MapOp.apply] at hnone
      obtain ⟨x, hx, hxins⟩ := hins
      have hx : x ∈ lines := by
        rcases List.mem_append.1 hx with hx | hx
        · exact hx
        · rw [List.mem_singleton.1 hx] at hxins
          exact absurd hxins hl
      by_cases hdel : ∃ k', l.op = .delete k' ∧ k'.1 = k
      · exact ⟨lines, l, [], rfl, hdel, ⟨x, hx, hxins⟩, by simp⟩
      · -- the last operation leaves the key alone
        have hwrites : ¬l.op.Writes k := fun hw => hw.elim hl hdel
        rw [MapOp.apply_of_not_writes hwrites] at hnone
        obtain ⟨u, d, v, rfl, hd, hu, hv⟩ := ih ⟨x, hx, hxins⟩ hnone
        refine ⟨u, d, v ++ [l], by simp, hd, hu, ?_⟩
        intro y hy
        rcases List.mem_append.1 hy with hy | hy
        · exact hv y hy
        · rwa [List.mem_singleton.1 hy]

/-- **When both validators ask the same.**  After the completed operations `lines`, one
validator has the operation `l` in flight, and the other one the race of `l₁` and `l₂`.  Their
checks agree on the other keys if and only if no other key was inserted, then deleted, and not
inserted again. -/
theorem sameChecks_iff (lines : List OpLine) (l : OpLine) (rest : List OpLine) (l₁ l₂ : OpLine)
    (needDel firstOpDone : Bool) {output : Text} (houtput : '\n' ∉ output) :
    ∃ v model model',
      OPValidator.new (unlines (lines.map OpLine.text)) (unlines [l₁.text, l₂.text])
        (unlines [output]) needDel firstOpDone = some v ∧ v.genModel = some model ∧
      LSOPValidator.genModel ((lines ++ l :: rest).map OpLine.text) lines.length = some model' ∧
      (SameChecks model model' [l.op.key, l₁.op.key, l₂.op.key] ↔
        ∀ k, k ∉ [l.op.key, l₁.op.key, l₂.op.key] → ¬DeletedLast lines k) := by
  obtain ⟨ty, hnew⟩ := OPValidator.new_eq lines l₁ l₂ houtput needDel firstOpDone
  obtain ⟨pmodel, hpmodel, hmap⟩ := PrefixOPFile.genModel_eq lines
  obtain ⟨model, hmodel, hrace⟩ := RaceOPFile.genModel_get?
    (f := ⟨[l₁.text, l₂.text], [output], ty, firstOpDone⟩) rfl rfl pmodel
  have hlt : lines.length < (lines ++ l :: rest).length := by simp
  have hget : (lines ++ l :: rest)[lines.length] = l := by simp
  obtain ⟨lmodel, hlmodel, hfollows⟩ := LSOPValidator.genModel_eq (lines ++ l :: rest) hlt
  rw [hget] at hlmodel
  rw [List.take_left] at hfollows
  refine ⟨_, model, _, hnew, ?_, hlmodel, ?_⟩
  · show (PrefixOPFile.genModel _).bind _ = _
    rw [hpmodel, Option.bind_some]
    exact hmodel
  · -- key by key, the models are the two models of the completed operations
    have hkey : ∀ k, k ∉ [l.op.key, l₁.op.key, l₂.op.key] →
        ((∀ t, (getLine k, t) ∈ getProbes model ↔
          (getLine k, t) ∈ getProbes (recordInFlight lmodel l.op)) ↔ ¬DeletedLast lines k) := by
      intro k hk
      simp only [List.mem_cons, List.not_mem_nil, or_false, not_or] at hk
      obtain ⟨hk, hk₁, hk₂⟩ := hk
      simp only [mem_getProbes, hrace k hk₁ hk₂, hmap, get?_recordInFlight_of_ne hk,
        deletedLast_iff, hfollows.tracked_iff]
      cases hread : mapAfter lines k with
      | none =>
        cases hrec : lmodel.get? k <;> simp
      | some v =>
        have hins : ∃ x ∈ lines, x.op.Inserts k := by
          by_contra hnot
          rw [mapAfter_eq_none hnot] at hread
          cases hread
        obtain ⟨t, ht⟩ := (hfollows.tracked_iff k).1 hins
        have hval := hfollows.reading k t ht
        rw [hread] at hval
        simp [ht, hval, shown]
    constructor
    · intro h k hk
      exact (hkey k hk).1 (h k hk)
    · intro h k hk
      exact (hkey k hk).2 (h k hk)

/-- A key is inserted, and then deleted. -/
def insertThenDelete : List OpLine :=
  [.bare (.insert (number 1).toKey (number 7)), .bare (.delete (number 1).toKey)]

/-- An insert of another key. -/
def otherInsert : OpLine := .bare (.insert (number 2).toKey (number 8))

/-- A get of that key. -/
def otherGet : OpLine := .bare (.get (number 2).toKey)

theorem sameChecks_iff_oneInsert :
    ∃ v model model',
      OPValidator.new (unlines ["i;1;7;".toList]) (unlines [otherInsert.text, otherGet.text])
        (unlines [['8']]) true false = some v ∧ v.genModel = some model ∧
      LSOPValidator.genModel ["i;1;7;".toList, otherInsert.text] 1 = some model' ∧
      SameChecks model model' [otherInsert.op.key, otherInsert.op.key, otherGet.op.key] := by
  obtain ⟨v, model, model', hv, hmodel, hmodel', hiff⟩ := sameChecks_iff (insertThenDelete.take 1)
    otherInsert [] otherInsert otherGet true false (show '\n' ∉ ['8'] by decide)
  refine ⟨v, model, model', hv, hmodel, hmodel', hiff.2 ?_⟩
  rintro k - ⟨u, l, w, h, ⟨k', hop, -⟩, -⟩
  have hl : l ∈ insertThenDelete.take 1 := by
    rw [h]
    simp
  rw [List.mem_singleton.1 hl] at hop
  cases hop

/-- After the key `1` was inserted and deleted, one validator checks that it is absent, and the
other one does not ask for it. -/
theorem deleted_key_checked_once :
    ∃ v model model',
      OPValidator.new (unlines (insertThenDelete.map OpLine.text))
        (unlines [otherInsert.text, otherGet.text]) (unlines [['8']]) false false = some v ∧
      v.genModel = some model ∧
      LSOPValidator.genModel ((insertThenDelete ++ [otherInsert]).map OpLine.text) 2 =
        some model' ∧
      (getLine ['1'], nullText) ∈ getProbes model' ∧
      ∀ t, (getLine ['1'], t) ∉ getProbes model := by
  refine ⟨_, _, _, rfl, rfl, rfl, ?_, ?_⟩
  · rw [mem_getProbes]
    rfl
  · intro t
    rw [mem_getProbes]
    intro h
    cases h

end Durinn
