import Durinn.Oracle.LastStoreMap

/-!
# The extra keys of the last-store map oracle

`LSOPValidator.gen_val_input_and_oracle` draws a hundred keys at random, inserts each with
itself as its value and reads it back.  A key that is taken is drawn again, until it is not.

* `extraKeys_chosen` — the extra keys are exactly the numbers drawn that are not in the model.
* `noFalseAlarm_iff` — the first draw of a key leaves out `0`, and the draws after it do not.  The
  drivers that store numbers print `(null)` for the value `0`, so the extra keys are harmless
  if and only if no draw is `0`, or `0` is a key of the model.
-/

namespace Durinn

open PyText OPValidator

namespace LSOPValidator

/-! ## The numbers drawn -/

/-- `random.randint(low, high)`, where `draw` decides which number it is. -/
def randint (low high draw : Nat) : Nat := low + draw % (high + 1 - low)

/-- The numbers that the loop of `redraw` draws. -/
def redrawn (taken : Text → Bool) (key : Text) : List Nat → List Nat
  | [] => []
  | d :: draws =>
      if taken key then randint 0 1000 d :: redrawn taken (randKey 0 1000 d) draws else []

/-- The numbers drawn for one extra key. -/
def drawnKey (model : Dict Text Text) (st : Dict Text Text × List Nat) : List Nat :=
  match st.2 with
  | [] => []
  | d :: draws =>
      randint 1 1000 d ::
        redrawn (fun key => key ∈ st.1.keys ∨ key ∈ model.keys) (randKey 1 1000 d) draws

/-- One extra key, with the numbers drawn for it. -/
def drawKey (model : Dict Text Text) (st : Dict Text Text × List Nat) (_ : Nat) :
    Option ((Dict Text Text × List Nat) × List Nat) :=
  (extraKey model st).map fun st' => (st', drawnKey model st)

/-- All numbers that `randint` returns while the extra keys are selected. -/
def drawn (model : Dict Text Text) (draws : List Nat) : List Nat :=
  (Runs.transduce (drawKey model) (Dict.empty, draws) (List.range 100)).elim [] fun r => r.2.flatten

theorem toDigits_inj {m n : Nat} (h : Nat.toDigits 10 m = Nat.toDigits 10 n) : m = n := by
  have hm : digitsVal 10 0 (Nat.toDigits 10 m) = some m := digitsVal_toDigits (Or.inl rfl) m
  rw [h, digitsVal_toDigits (Or.inl rfl)] at hm
  exact (Option.some.inj hm).symm

theorem le_of_mem_redrawn {taken : Text → Bool} {key : Text} {draws : List Nat} {m : Nat}
    (h : m ∈ redrawn taken key draws) : m ≤ 1000 := by
  induction draws generalizing key with
  | nil => cases h
  | cons d draws ih =>
    unfold redrawn at h
    split at h
    · rcases List.mem_cons.1 h with rfl | h
      · unfold randint
        omega
      · exact ih h
    · cases h

/-- The key that is kept is the one number drawn that is not taken. -/
theorem redraw_drawn {taken : Text → Bool} (n₀ : Nat) {draws rest : List Nat} {k : Text}
    (h : redraw taken (Nat.toDigits 10 n₀) draws = some (k, rest)) :
    taken k = false ∧ ∃ n ∈ n₀ :: redrawn taken (Nat.toDigits 10 n₀) draws,
      k = Nat.toDigits 10 n ∧ ∀ m ∈ n₀ :: redrawn taken (Nat.toDigits 10 n₀) draws,
        m = n ∨ taken (Nat.toDigits 10 m) = true := by
  induction draws generalizing n₀ with
  | nil =>
    unfold redraw at h
    split at h
    · cases h
    · rename_i htaken
      cases h
      exact ⟨Bool.eq_false_iff.2 htaken, n₀, by simp, rfl, by simp [redrawn]⟩
  | cons d draws ih =>
    unfold redraw at h
    unfold redrawn
    split at h
    · rename_i htaken
      obtain ⟨hfree, n, hn, rfl, hothers⟩ := ih (randint 0 1000 d) h
      rw [if_pos htaken]
      refine ⟨hfree, n, List.mem_cons_of_mem _ hn, rfl, ?_⟩
      intro m hm
      rcases List.mem_cons.1 hm with rfl | hm
      · exact Or.inr htaken
      · exact hothers m hm
    · rename_i htaken
      cases h
      rw [if_neg htaken]
      exact ⟨Bool.eq_false_iff.2 htaken, n₀, by simp, rfl, by simp⟩

/-- **One key**: the only number drawn that is neither in the model nor chosen before. -/
theorem extraKey_drawn {model : Dict Text Text} {st st' : Dict Text Text × List Nat}
    (h : extraKey model st = some st') :
    ∃ n ∈ drawnKey model st, st'.1 = st.1.set (Nat.toDigits 10 n) (Nat.toDigits 10 n) ∧
      Nat.toDigits 10 n ∉ st.1.keys ∧ Nat.toDigits 10 n ∉ model.keys ∧
      ∀ m ∈ drawnKey model st, m ≤ 1000 ∧
        (m = n ∨ Nat.toDigits 10 m ∈ st.1.keys ∨ Nat.toDigits 10 m ∈ model.keys) := by
  simp only [extraKey, drawnKey] at h ⊢
  cases hdraws : st.2 with
  | nil =>
    rw [hdraws] at h
    cases h
  | cons d draws =>
    rw [hdraws] at h
    simp only
    obtain ⟨⟨k, rest⟩, hkey, rfl⟩ := Option.map_eq_some_iff.1 h
    obtain ⟨hfree, n, hn, rfl, hothers⟩ := redraw_drawn (randint 1 1000 d) hkey
    simp only [Bool.decide_or, Bool.or_eq_false_iff, decide_eq_false_iff_not] at hfree
    refine ⟨n, hn, rfl, hfree.1, hfree.2, fun m hm => ⟨?_, ?_⟩⟩
    · rcases List.mem_cons.1 hm with rfl | hm
      · unfold randint
        omega
      · exact le_of_mem_redrawn hm
    · simpa using hothers m hm

/-- What holds of the keys chosen so far. -/
structure Chosen (model extra : Dict Text Text) (numbers : List Nat) (count : Nat) : Prop where
  length : extra.keys.length = count
  le : ∀ n ∈ numbers, n ≤ 1000
  mem_iff : ∀ k, k ∈ extra.keys ↔ k ∉ model.keys ∧ ∃ n ∈ numbers, k = Nat.toDigits 10 n

theorem Chosen.next {model : Dict Text Text} {st st' : Dict Text Text × List Nat}
    {numbers : List Nat} {count : Nat} (h : Chosen model st.1 numbers count)
    (hstep : extraKey model st = some st') :
    Chosen model st'.1 (numbers ++ drawnKey model st) (count + 1) := by
  obtain ⟨n, hn, hset, hnew, hfree, hothers⟩ := extraKey_drawn hstep
  rw [hset]
  refine ⟨?_, ?_, fun k => ?_⟩
  · rw [Dict.keys_set_of_notMem hnew, List.length_append, h.length, List.length_singleton]
  · intro m hm
    exact (List.mem_append.1 hm).elim (h.le m) fun hm => (hothers m hm).1
  · rw [Dict.mem_keys_set, h.mem_iff]
    constructor
    · rintro (⟨hk, m, hm, rfl⟩ | rfl)
      · exact ⟨hk, m, List.mem_append_left _ hm, rfl⟩
      · exact ⟨hfree, n, List.mem_append_right _ hn, rfl⟩
    · rintro ⟨hk, m, hm, rfl⟩
      rcases List.mem_append.1 hm with hm | hm
      · exact Or.inl ⟨hk, m, hm, rfl⟩
      · rcases (hothers m hm).2 with rfl | hmem | hmem
        · exact Or.inr rfl
        · exact Or.inl ((h.mem_iff _).1 hmem)
        · exact absurd hmem hk

/-- **The extra keys** are the numbers drawn that are not in the model. -/
theorem extraKeys_chosen {model extra : Dict Text Text} {draws : List Nat}
    (h : extraKeys model draws = some extra) : Chosen model extra (drawn model draws) 100 := by
  obtain ⟨st, hst, rfl⟩ := Option.map_eq_some_iff.1 h
  rw [Runs.foldlM_eq_transduce _ (fun st _ => drawnKey model st)] at hst
  obtain ⟨⟨st, outs⟩, hrun, rfl⟩ := Option.map_eq_some_iff.1 hst
  have hdrawn : drawn model draws = outs.flatten := by
    unfold drawn drawKey
    rw [hrun]
    rfl
  rw [hdrawn]
  suffices hchosen : Chosen model st.1 outs.flatten (List.range 100).length by simpa using hchosen
  refine Runs.invariant_transduce
    (fun done outs st => Chosen model st.1 outs.flatten done.length) ⟨rfl, by simp, ?_⟩ ?_ hrun
  · simp [Dict.mem_keys]
  · intro done outs i st st' numbers hchosen hstep
    obtain ⟨st'', hkey, heq⟩ := Option.map_eq_some_iff.1 hstep
    cases heq
    simpa using hchosen.next hkey

/-! ## Drivers that store numbers -/

/-- `atol`, on a text that does not start with a sign or a blank. -/
def atol (t : Text) : Nat := (digitsVal 10 0 (t.takeWhile Char.isDigit)).getD 0

theorem atol_toDigits (n : Nat) : atol (Nat.toDigits 10 n) = n := by
  have hdigits : (Nat.toDigits 10 n).takeWhile Char.isDigit = Nat.toDigits 10 n :=
    List.takeWhile_eq_self_iff.2 fun c hc =>
      Nat.isDigit_of_mem_toDigits (by decide) (by decide) hc
  rw [atol, hdigits, digitsVal_toDigits (Or.inl rfl)]
  rfl

/-- `clht_put` of P-CLHT, and `insert` of NVTraverse: a key that is there keeps its value.  P-CLHT
marks its empty slots with the key `0`, so it cannot insert this one. -/
def putNumber (zeroKey : Bool) (m : Nat → Option Nat) (key val : Nat) : Nat → Option Nat :=
  if (m key).isSome ∨ key = 0 ∧ zeroKey = false then m else Function.update m key (some val)

/-- `run_op` of the drivers whose map holds numbers, on one line: a get returns `0` for an absent
key, and prints `(null)` for a `0`.  For the key `0` P-CLHT returns what is in an empty slot: `0`,
if the slot was never in use. -/
def numDriver (zeroKey : Bool) (ack : (Nat → Option Nat) → Text → Text) (m : Nat → Option Nat)
    (line : Text) : Option ((Nat → Option Nat) × Text) :=
  let entries := entriesOf line
  match entries[0]?.bind opType with
  | some .insert => do
      let key ← entries[1]?
      let val ← entries[2]?
      return (putNumber zeroKey m (atol key) (atol val), ack m line)
  | some .delete => do
      let key ← entries[1]?
      return (Function.update m (atol key) none, ack m line)
  | some .get => do
      let key ← entries[1]?
      let val := (m (atol key)).getD 0
      return (m, if val ≠ 0 then Nat.toDigits 10 val else nullText)
  | none => none

theorem putNumber_self {zeroKey : Bool} {m : Nat → Option Nat} {n : Nat} (hm : m n = none) :
    (putNumber zeroKey m n n n).getD 0 = n := by
  unfold putNumber
  split
  · rename_i h
    have hzero : n = 0 := by simpa [hm] using h.imp_right And.left
    rw [hm, hzero]
    rfl
  · rw [Function.update_self]
    rfl

/-- A number that is inserted as its own value is read back, unless it is `0`. -/
theorem numDriver_readBack (zeroKey : Bool) (ack : (Nat → Option Nat) → Text → Text)
    {m : Nat → Option Nat} {n : Nat} (hm : m n = none) :
    Runs.transduce (numDriver zeroKey ack) m
        [insLine (Nat.toDigits 10 n) (Nat.toDigits 10 n), getLine (Nat.toDigits 10 n)] =
      some (putNumber zeroKey m n n, [ack m (insLine (Nat.toDigits 10 n) (Nat.toDigits 10 n)),
        if n ≠ 0 then Nat.toDigits 10 n else nullText]) := by
  have hkey : ';' ∉ Nat.toDigits 10 n := (number n).no_semicolon
  simp [Runs.transduce, numDriver, entriesOf_insLine hkey hkey, entriesOf_getLine hkey, opType,
    atol_toDigits, putNumber_self hm]

/-- The extra keys cannot cause a false alarm: they are a hundred different numbers from 1 to
1000 that are not in the model, and each is read back from a map of numbers without it. -/
structure NoFalseAlarm (model extra : Dict Text Text) : Prop where
  count : extra.keys.length = 100
  distinct : extra.keys.Nodup
  fresh : ∀ k ∈ extra.keys, k ∉ model.keys
  range : ∀ k ∈ extra.keys, ∃ n, 1 ≤ n ∧ n ≤ 1000 ∧ k = Nat.toDigits 10 n
  readBack : ∀ k ∈ extra.keys, ∀ zeroKey ack m, m (atol k) = none → ∃ m' reply,
    Runs.transduce (numDriver zeroKey ack) m [insLine k k, getLine k] = some (m', [reply, k])

/-- **The extra keys are harmless** if and only if `0` is not drawn, or is a key of the model. -/
theorem noFalseAlarm_iff {model extra : Dict Text Text} {draws : List Nat}
    (h : extraKeys model draws = some extra) :
    NoFalseAlarm model extra ↔ 0 ∉ drawn model draws ∨ ['0'] ∈ model.keys := by
  have hchosen := extraKeys_chosen h
  constructor
  · intro hsafe
    by_contra hzero
    rw [not_or, not_not] at hzero
    obtain ⟨n, hn, -, heq⟩ := hsafe.range _ ((hchosen.mem_iff ['0']).2 ⟨hzero.2, 0, hzero.1, rfl⟩)
    have hn0 : 0 = n := toDigits_inj heq
    omega
  · intro hzero
    have hrange : ∀ k ∈ extra.keys, ∃ n, 1 ≤ n ∧ n ≤ 1000 ∧ k = Nat.toDigits 10 n := by
      intro k hk
      obtain ⟨hfree, n, hn, rfl⟩ := (hchosen.mem_iff k).1 hk
      refine ⟨n, Nat.one_le_iff_ne_zero.2 ?_, hchosen.le n hn, rfl⟩
      rintro rfl
      exact hzero.elim (fun h => h hn) fun h => hfree h
    refine ⟨hchosen.length, extra.nodup, fun k hk => ((hchosen.mem_iff k).1 hk).1, hrange, ?_⟩
    intro k hk zeroKey ack m hm
    obtain ⟨n, hn, -, rfl⟩ := hrange k hk
    rw [atol_toDigits] at hm
    have hrun := numDriver_readBack zeroKey ack hm
    rw [if_pos (by omega)] at hrun
    exact ⟨_, _, hrun⟩

/-- The first draws give the keys `1` to `100`. -/
theorem noFalseAlarm_iff_firstDraws :
    ∃ extra, extraKeys Dict.empty (List.range 100) = some extra ∧
      NoFalseAlarm Dict.empty extra := by
  have hrun : (extraKeys Dict.empty (List.range 100)).map
      (fun extra => decide (['0'] ∈ extra.keys)) = some false := by decide +kernel
  obtain ⟨extra, hextra, hzero⟩ := Option.map_eq_some_iff.1 hrun
  refine ⟨extra, hextra, (noFalseAlarm_iff hextra).2 (Or.inl fun hdrawn => ?_)⟩
  -- if `0` had been drawn, it would be a key
  exact of_decide_eq_false hzero
    (((extraKeys_chosen hextra).mem_iff ['0']).2 ⟨List.not_mem_nil, 0, hdrawn, rfl⟩)

/-- The second key is drawn again, as `0`: it is read back as `(null)`. -/
theorem falseAlarm_of_zero :
    ∃ extra, extraKeys Dict.empty (0 :: 0 :: 0 :: List.range' 1 98) = some extra ∧
      ['0'] ∈ extra.keys ∧ extra.get? ['0'] = some ['0'] ∧
      ∀ zeroKey, (Runs.transduce (numDriver zeroKey fun _ _ => []) (fun _ => none)
        [insLine ['0'] ['0'], getLine ['0']]).map Prod.snd = some [[], nullText] := by
  have hget : (extraKeys Dict.empty (0 :: 0 :: 0 :: List.range' 1 98)).bind
      (fun extra => extra.get? ['0']) = some ['0'] := by decide +kernel
  obtain ⟨extra, hextra, hget⟩ := Option.bind_eq_some_iff.1 hget
  refine ⟨extra, hextra, Dict.mem_keys.2 (by rw [hget]; rfl), hget, fun zeroKey => ?_⟩
  exact congrArg (Option.map Prod.snd)
    (numDriver_readBack (m := fun _ => none) (n := 0) zeroKey (fun _ _ => []) rfl)

end LSOPValidator

end Durinn
