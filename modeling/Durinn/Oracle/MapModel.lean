import Durinn.Lib.Dict
import Durinn.Oracle.Validate

/-!
# Maps under test

What the map validators of `lib/op_file.py` have in common.  The op file has lines
`i;key;value;`, `d;key;` and `g;key;`.  A validator computes from them a dictionary of texts,
its *model*: under each key the reading that a get of the key may print, or alternatives
joined by `!!!`.  From the model come the lines for the driver and the oracles.

* `MapOp`, `OpLine` — the operations, and the lines they are written as.
* `mapDriver` — a correct driver: it keeps a map, and prints `(null)` for an absent key.
* `Models` — the model stands for the legal readings of the keys it tracks.
* `checks_genValInputAndOracle` — with such a model, exactly the maps whose tracked keys have
  legal readings pass.
-/

namespace Durinn

open PyText OPValidator

/-! ## Operations and lines -/

/-- A key, as a line of the op file can hold it. -/
def Key : Type := {t : Text // ';' ∉ t ∧ '\n' ∉ t}

/-- A number can be a key. -/
def Value.toKey (v : Value) : Key := ⟨v.1, v.no_semicolon, v.line⟩

/-- An operation on a map. -/
inductive MapOp where
  | insert (k : Key) (v : Value)
  | delete (k : Key)
  | get (k : Key)

/-- A line of the op file. -/
abbrev OpLine := LineOf MapOp

/-- The text of the line. -/
def OpLine.text (l : OpLine) : Text :=
  match l.op with
  | .insert k v => 'i' :: ';' :: (k.1 ++ ';' :: (v.1 ++ ';' :: l.rest))
  | .delete k => 'd' :: ';' :: (k.1 ++ ';' :: l.rest)
  | .get k => 'g' :: ';' :: (k.1 ++ ';' :: l.rest)

/-- A map, as a driver keeps it. -/
abbrev KV := Text → Option Text

namespace MapOp

/-- The key of the operation. -/
def key : MapOp → Text
  | .insert k _ => k.1
  | .delete k => k.1
  | .get k => k.1

/-- The operation on a map: an insert overwrites, a delete removes, a get does nothing. -/
def apply (op : MapOp) (m : KV) : KV :=
  match op with
  | .insert k v => Function.update m k.1 (some v.1)
  | .delete k => Function.update m k.1 none
  | .get _ => m

/-- Does the operation insert something under the key? -/
def Inserts (op : MapOp) (k : Text) : Prop := ∃ k' v, op = .insert k' v ∧ k'.1 = k

/-- Does the operation insert something under the key, or delete it? -/
def Writes (op : MapOp) (k : Text) : Prop := op.Inserts k ∨ ∃ k', op = .delete k' ∧ k'.1 = k

section Effects

variable {k : Key} {v : Value} {x : Text}

@[simp] theorem inserts_insert : (insert k v).Inserts x ↔ x = k.1 := by
  constructor
  · rintro ⟨k', v', h, rfl⟩
    cases h
    rfl
  · rintro rfl
    exact ⟨k, v, rfl, rfl⟩

@[simp] theorem not_inserts_delete : ¬(delete k).Inserts x := by
  rintro ⟨k', v', h, -⟩
  cases h

@[simp] theorem not_inserts_get : ¬(get k).Inserts x := by
  rintro ⟨k', v', h, -⟩
  cases h

@[simp] theorem writes_insert : (insert k v).Writes x ↔ x = k.1 := by
  simp [Writes]

@[simp] theorem writes_delete : (delete k).Writes x ↔ x = k.1 := by
  simp only [Writes, not_inserts_delete, false_or]
  constructor
  · rintro ⟨k', h, rfl⟩
    cases h
    rfl
  · rintro rfl
    exact ⟨k, rfl, rfl⟩

@[simp] theorem not_writes_get : ¬(get k).Writes x := by
  simp [Writes]

end Effects

theorem Writes.eq_key {op : MapOp} {k : Text} (h : op.Writes k) : k = op.key := by
  cases op with
  | insert k' v => exact writes_insert.1 h
  | delete k' => exact writes_delete.1 h
  | get k' => exact absurd h not_writes_get

theorem Writes.unique {op : MapOp} {k k' : Text} (h : op.Writes k) (h' : op.Writes k') : k = k' :=
  h.eq_key.trans h'.eq_key.symm

theorem apply_of_not_writes {op : MapOp} {k : Text} (h : ¬op.Writes k) (m : KV) :
    op.apply m k = m k := by
  cases op with
  | insert k' v => exact Function.update_of_ne (fun hk => h (writes_insert.2 hk)) _ _
  | delete k' => exact Function.update_of_ne (fun hk => h (writes_delete.2 hk)) _ _
  | get k' => rfl

end MapOp

/-- The map after some operations, from the empty map. -/
def mapAfter (lines : List OpLine) : KV := lines.foldl (fun m l => l.op.apply m) fun _ => none

theorem mapAfter_append_singleton (lines : List OpLine) (l : OpLine) :
    mapAfter (lines ++ [l]) = l.op.apply (mapAfter lines) := by
  simp [mapAfter]

/-- What is absent stays absent as long as nothing inserts it. -/
theorem mapAfter_append_eq_none {u v : List OpLine} {k : Text} (hu : mapAfter u k = none)
    (hv : ∀ l ∈ v, ¬l.op.Inserts k) : mapAfter (u ++ v) k = none := by
  induction v using List.reverseRecOn with
  | nil => rwa [List.append_nil]
  | append_singleton v l ih =>
    have hrest := ih fun x hx => hv x (List.mem_append_left [l] hx)
    have hl : ¬l.op.Inserts k := hv l (by simp)
    rw [← List.append_assoc, mapAfter_append_singleton]
    cases hop : l.op with
    | insert k' v' =>
      rw [hop, MapOp.inserts_insert] at hl
      rw [MapOp.apply, Function.update_of_ne hl, hrest]
    | delete k' =>
      rw [MapOp.apply, Function.update_apply, hrest, ite_self]
    | get k' => exact hrest

/-- A key that was never inserted is absent. -/
theorem mapAfter_eq_none {lines : List OpLine} {k : Text} (h : ¬∃ l ∈ lines, l.op.Inserts k) :
    mapAfter lines k = none :=
  mapAfter_append_eq_none (u := []) rfl fun l hl hins => h ⟨l, hl, hins⟩

/-! ## Reading lines -/

/-- The types of operations. -/
inductive OpType where
  | insert
  | delete
  | get
  deriving DecidableEq, Repr

/-- The comparisons of `op_type` with `'i'`, `'d'` and `'g'`. -/
def opType (t : Text) : Option OpType :=
  if t = ['i'] then some .insert
  else if t = ['d'] then some .delete
  else if t = ['g'] then some .get
  else none

/-- What `split` makes of a line. -/
theorem OpLine.entriesOf_text (l : OpLine) :
    entriesOf l.text =
      match l.op with
      | .insert k v => ['i'] :: k.1 :: v.1 :: entriesOf l.rest
      | .delete k => ['d'] :: k.1 :: entriesOf l.rest
      | .get k => ['g'] :: k.1 :: entriesOf l.rest := by
  unfold OpLine.text
  split
  · rename_i k v _
    rw [entriesOf_type (by decide), entriesOf_append k.2.1, entriesOf_append v.no_semicolon]
  · rename_i k _
    rw [entriesOf_type (by decide), entriesOf_append k.2.1]
  · rename_i k _
    rw [entriesOf_type (by decide), entriesOf_append k.2.1]

theorem OpLine.line (l : OpLine) : '\n' ∉ l.text := by
  have hrest := l.rest_line
  unfold OpLine.text
  split
  · rename_i k v _
    simp [k.2.2, v.line, hrest]
  · rename_i k _
    simp [k.2.2, hrest]
  · rename_i k _
    simp [k.2.2, hrest]

/-! ## The driver -/

/-- What a get prints for an absent key. -/
def nullText : Text := ['(', 'n', 'u', 'l', 'l', ')']

/-- What a get prints. -/
def shown (r : Option Text) : Text := r.getD nullText

/-- A correct map driver, on one line.  `ack` is the line it prints for an insert or a delete. -/
def mapDriver (ack : KV → Text → Text) (m : KV) (line : Text) : Option (KV × Text) :=
  let entries := entriesOf line
  match entries[0]?.bind opType with
  | some .insert => do
      let k ← entries[1]?
      let v ← entries[2]?
      return (Function.update m k (some v), ack m line)
  | some .delete => do
      let k ← entries[1]?
      return (Function.update m k none, ack m line)
  | some .get => do
      let k ← entries[1]?
      return (m, shown (m k))
  | none => none

/-- `'g;' + key + ';'`. -/
def getLine (key : Text) : Text := 'g' :: ';' :: (key ++ [';'])

/-- `'d;' + key + ';'`. -/
def delLine (key : Text) : Text := 'd' :: ';' :: (key ++ [';'])

/-- `'i;' + key + ';' + val + ';'`. -/
def insLine (key val : Text) : Text := 'i' :: ';' :: (key ++ ';' :: (val ++ [';']))

section Driver

variable {ack : KV → Text → Text} {m : KV} {key val : Text}

theorem entriesOf_getLine (hkey : ';' ∉ key) : entriesOf (getLine key) = [['g'], key] := by
  rw [getLine, entriesOf_type (by decide), entriesOf_append hkey]
  rfl

theorem entriesOf_delLine (hkey : ';' ∉ key) : entriesOf (delLine key) = [['d'], key] := by
  rw [delLine, entriesOf_type (by decide), entriesOf_append hkey]
  rfl

theorem entriesOf_insLine (hkey : ';' ∉ key) (hval : ';' ∉ val) :
    entriesOf (insLine key val) = [['i'], key, val] := by
  rw [insLine, entriesOf_type (by decide), entriesOf_append hkey, entriesOf_append hval]
  rfl

theorem mapDriver_get (hkey : ';' ∉ key) :
    mapDriver ack m (getLine key) = some (m, shown (m key)) := by
  simp [mapDriver, entriesOf_getLine hkey, opType]

theorem mapDriver_del (hkey : ';' ∉ key) :
    mapDriver ack m (delLine key) =
      some (Function.update m key none, ack m (delLine key)) := by
  simp [mapDriver, entriesOf_delLine hkey, opType]

theorem mapDriver_ins (hkey : ';' ∉ key) (hval : ';' ∉ val) :
    mapDriver ack m (insLine key val) =
      some (Function.update m key (some val), ack m (insLine key val)) := by
  simp [mapDriver, entriesOf_insLine hkey hval, opType]

end Driver

/-- A map whose readings can be told apart: no value reads as `(null)`, or breaks the line. -/
def Readable (m : KV) : Prop := ∀ k v, m k = some v → v ≠ nullText ∧ '\n' ∉ v

theorem Readable.line {m : KV} (h : Readable m) (k : Text) : '\n' ∉ shown (m k) := by
  cases hv : m k with
  | none => decide
  | some v => exact (h k v hv).2

section Phases

variable {ack : KV → Text → Text}

/-- Gets, each with an oracle. -/
theorem checks_gets {m : KV} (hm : Readable m) {l : List (Text × Text)} (hkey : ∀ e ∈ l, ';' ∉ e.1)
    (hprev : ∀ e ∈ l, '%' ∉ e.2) :
    Checks (mapDriver ack) m (l.map fun e => (getLine e.1, e.2)) m
      (∀ e ∈ l, Passes e.2 (shown (m e.1))) := by
  induction l with
  | nil => exact (Checks.nil m).congr (by simp)
  | cons e l ih =>
    have htail := ih (fun x hx => hkey x (List.mem_cons_of_mem e hx))
      fun x hx => hprev x (List.mem_cons_of_mem e hx)
    have hhead : mapDriver ack m (getLine e.1) = some (m, shown (m e.1)) :=
      mapDriver_get (hkey e List.mem_cons_self)
    exact (htail.cons hhead (hm.line e.1) (hprev e List.mem_cons_self) Iff.rfl).congr (by simp)

/-- Deletes, whose output is not looked at. -/
theorem checks_dels (hack : ∀ m line, '\n' ∉ ack m line) {ks : List Text}
    (hkey : ∀ k ∈ ks, ';' ∉ k) (m : KV) :
    ∃ m', Checks (mapDriver ack) m (ks.map fun k => (delLine k, [])) m' True ∧
      ∀ k, m' k = if k ∈ ks then none else m k := by
  induction ks generalizing m with
  | nil => exact ⟨m, Checks.nil m, by simp⟩
  | cons k ks ih =>
    obtain ⟨m', hrun, hm'⟩ := ih (fun x hx => hkey x (List.mem_cons_of_mem k hx))
      (Function.update m k none)
    refine ⟨m', (hrun.cons (mapDriver_del (hkey k List.mem_cons_self)) (hack _ _) (by simp)
      (iff_true_intro (passes_nil _))).congr (and_self_iff), ?_⟩
    intro x
    rw [hm', Function.update_apply]
    by_cases hx : x = k <;> simp [hx]

/-- Inserts of keys under themselves, whose output is not looked at. -/
theorem checks_inserts (hack : ∀ m line, '\n' ∉ ack m line) {ks : List Text}
    (hkey : ∀ k ∈ ks, ';' ∉ k) (m : KV) :
    ∃ m', Checks (mapDriver ack) m (ks.map fun k => (insLine k k, [])) m' True ∧
      ∀ k, m' k = if k ∈ ks then some k else m k := by
  induction ks generalizing m with
  | nil => exact ⟨m, Checks.nil m, by simp⟩
  | cons k ks ih =>
    have hk := hkey k List.mem_cons_self
    obtain ⟨m', hrun, hm'⟩ := ih (fun x hx => hkey x (List.mem_cons_of_mem k hx))
      (Function.update m k (some k))
    refine ⟨m', (hrun.cons (mapDriver_ins hk hk) (hack _ _) (by simp)
      (iff_true_intro (passes_nil _))).congr (and_self_iff), ?_⟩
    intro x
    rw [hm', Function.update_apply]
    by_cases hx : x = k <;> simp [hx]

end Phases

/-! ## Models -/

/-- A reading that the op file can give rise to. -/
def IsReading (r : Option Text) : Prop := ∀ v, r = some v → ∃ w : Value, v = w.1

theorem isReading_none : IsReading none := by
  intro v h
  cases h

theorem isReading_value (v : Value) : IsReading (some v.1) := by
  intro w h
  cases h
  exact ⟨v, rfl⟩

theorem MapOp.isReading_apply {m : KV} (h : ∀ k, IsReading (m k)) (op : MapOp) (k : Text) :
    IsReading (op.apply m k) := by
  cases op with
  | insert k' v =>
    rw [MapOp.apply, Function.update_apply]
    split
    · exact isReading_value v
    · exact h k
  | delete k' =>
    rw [MapOp.apply, Function.update_apply]
    split
    · exact isReading_none
    · exact h k
  | get k' => exact h k

theorem isReading_mapAfter (lines : List OpLine) (k : Text) : IsReading (mapAfter lines k) := by
  induction lines using List.reverseRecOn generalizing k with
  | nil => exact isReading_none
  | append_singleton lines l ih =>
    rw [mapAfter_append_singleton]
    exact l.op.isReading_apply ih k

/-- The alternatives, as the validators write them. -/
def encode (alts : List (Option Text)) : Text := magic.intercalate (alts.map shown)

@[simp] theorem encode_singleton (r : Option Text) : encode [r] = shown r :=
  List.intercalate_singleton

theorem plain_shown {r : Option Text} (h : IsReading r) : Plain (shown r) := by
  cases r with
  | none => exact ⟨by decide, by decide, by decide, by decide⟩
  | some v =>
    obtain ⟨w, rfl⟩ := h v rfl
    exact w.plain

theorem plain_of_mem_map_shown {alts : List (Option Text)} (h : ∀ r ∈ alts, IsReading r) :
    ∀ a ∈ alts.map shown, Plain a := by
  intro a ha
  obtain ⟨r, hr, rfl⟩ := List.mem_map.1 ha
  exact plain_shown (h r hr)

/-- A value is not taken for an absent key. -/
theorem shown_inj {r r' : Option Text} (hr : ∀ v, r = some v → v ≠ nullText)
    (hr' : ∀ v, r' = some v → v ≠ nullText) (h : shown r = shown r') : r = r' := by
  cases r with
  | none =>
    cases r' with
    | none => rfl
    | some v => exact absurd h.symm (hr' v rfl)
  | some v =>
    cases r' with
    | none => exact absurd h (hr v rfl)
    | some w => exact congrArg some h

theorem IsReading.ne_nullText {r : Option Text} (h : IsReading r) :
    ∀ v, r = some v → v ≠ nullText := by
  rintro v rfl hv
  obtain ⟨w, hw⟩ := h v rfl
  rw [hw] at hv
  exact absurd (w.2.2 '(' (by simp [hv, nullText])) (by decide)

/-- **The encoding is faithful**: a reading passes if and only if it is one of the
alternatives. -/
theorem passes_encode {alts : List (Option Text)} (hne : alts ≠ []) (h : ∀ r ∈ alts, IsReading r)
    {r : Option Text} (hr : ∀ v, r = some v → v ≠ nullText) :
    Passes (encode alts) (shown r) ↔ r ∈ alts := by
  rw [encode, passes_intercalate (by simpa using hne) (plain_of_mem_map_shown h), List.mem_map]
  constructor
  · rintro ⟨r', hr', heq⟩
    rwa [shown_inj hr (h r' hr').ne_nullText heq.symm]
  · intro hmem
    exact ⟨r, hmem, rfl⟩

/-- The text stands for the readings with the property `P`. -/
def Encodes (t : Text) (P : Option Text → Prop) : Prop :=
  ∃ alts, alts ≠ [] ∧ (∀ r ∈ alts, IsReading r) ∧ t = encode alts ∧ ∀ r, r ∈ alts ↔ P r

theorem encodes_shown {r : Option Text} (h : IsReading r) : Encodes (shown r) fun x => x = r :=
  ⟨[r], by simp, by simpa using h, (encode_singleton r).symm, by simp⟩

/-- One more alternative. -/
theorem Encodes.cons {t : Text} {P : Option Text → Prop} (h : Encodes t P) {r : Option Text}
    (hr : IsReading r) : Encodes (shown r ++ magic ++ t) fun x => x = r ∨ P x := by
  obtain ⟨alts, hne, hread, rfl, hmem⟩ := h
  refine ⟨r :: alts, List.cons_ne_nil r alts, ?_, ?_, ?_⟩
  · simpa using ⟨hr, hread⟩
  · rw [encode, encode, List.map_cons, List.intercalate_cons_of_ne_nil (by simpa using hne)]
  · intro x
    rw [List.mem_cons, hmem]

theorem Encodes.congr {t : Text} {P Q : Option Text → Prop} (h : Encodes t P)
    (hPQ : ∀ r, P r ↔ Q r) : Encodes t Q := by
  obtain ⟨alts, hne, hread, ht, hmem⟩ := h
  exact ⟨alts, hne, hread, ht, fun r => (hmem r).trans (hPQ r)⟩

theorem Encodes.passes_iff {t : Text} {P : Option Text → Prop} (h : Encodes t P) {r : Option Text}
    (hr : ∀ v, r = some v → v ≠ nullText) : Passes t (shown r) ↔ P r := by
  obtain ⟨alts, hne, hread, rfl, hmem⟩ := h
  rw [passes_encode hne hread hr, hmem]

theorem Encodes.no_prev {t : Text} {P : Option Text → Prop} (h : Encodes t P) : '%' ∉ t := by
  obtain ⟨alts, -, hread, rfl, -⟩ := h
  exact Plain.no_prev_intercalate (plain_of_mem_map_shown hread)

/-- The dictionary has exactly the tracked keys, and under each a text that stands for its
legal readings. -/
structure Models (model : Dict Text Text) (tracked : Text → Prop)
    (legal : Text → Option Text → Prop) : Prop where
  tracked_iff : ∀ k, tracked k ↔ ∃ t, model.get? k = some t
  encodes : ∀ k t, model.get? k = some t → Encodes t (legal k)
  key : ∀ k, tracked k → ';' ∉ k

namespace Models

variable {model : Dict Text Text} {tracked : Text → Prop} {legal : Text → Option Text → Prop}

/-- A dictionary with one reading for each of its keys, all of them inserted at some time. -/
theorem of_get? {lines : List OpLine}
    (htracked : ∀ k, tracked k ↔ ∃ t, model.get? k = some t)
    (hget : ∀ k t, model.get? k = some t → t = shown (mapAfter lines k))
    (hins : ∀ k, tracked k → ∃ l ∈ lines, l.op.Inserts k) :
    Models model tracked fun k r => r = mapAfter lines k where
  tracked_iff := htracked
  encodes k t hk := by
    rw [hget k t hk]
    exact encodes_shown (isReading_mapAfter lines k)
  key k hk := by
    obtain ⟨l, -, k', v, -, rfl⟩ := hins k hk
    exact k'.2.1

/-- Set an entry. -/
theorem set (h : Models model tracked legal) {k₀ t₀ : Text} {tracked' : Text → Prop}
    {legal' : Text → Option Text → Prop} (hk₀ : ';' ∉ k₀) (ht₀ : Encodes t₀ (legal' k₀))
    (htracked : ∀ k, tracked' k ↔ k = k₀ ∨ tracked k)
    (hlegal : ∀ k, k ≠ k₀ → ∀ r, legal k r ↔ legal' k r) :
    Models (model.set k₀ t₀) tracked' legal' where
  tracked_iff k := by
    rw [Dict.get?_set, htracked, h.tracked_iff]
    by_cases hk : k = k₀ <;> simp [hk]
  encodes k t ht := by
    rw [Dict.get?_set] at ht
    by_cases hk : k = k₀
    · rw [if_pos hk] at ht
      cases ht
      rwa [hk]
    · rw [if_neg hk] at ht
      exact (h.encodes k t ht).congr (hlegal k hk)
  key k hk := by
    rcases (htracked k).1 hk with rfl | hk
    · exact hk₀
    · exact h.key k hk

theorem congr (h : Models model tracked legal) {tracked' : Text → Prop}
    {legal' : Text → Option Text → Prop} (ht : ∀ k, tracked k ↔ tracked' k)
    (hl : ∀ k, tracked k → ∀ r, legal k r ↔ legal' k r) : Models model tracked' legal' where
  tracked_iff k := by rw [← ht, h.tracked_iff]
  encodes k t hk := (h.encodes k t hk).congr (hl k ((h.tracked_iff k).2 ⟨t, hk⟩))
  key k hk := h.key k ((ht k).2 hk)

theorem tracked_of_mem_entries (h : Models model tracked legal) {e : Text × Text}
    (he : e ∈ model.entries) : tracked e.1 ∧ Encodes e.2 (legal e.1) := by
  have hget : model.get? e.1 = some e.2 := Dict.mem_entries.1 he
  exact ⟨(h.tracked_iff e.1).2 ⟨e.2, hget⟩, h.encodes e.1 e.2 hget⟩

theorem key_of_mem_keys (h : Models model tracked legal) {k : Text} (hk : k ∈ model.keys) :
    ';' ∉ k := by
  obtain ⟨e, he, rfl⟩ := List.mem_map.1 hk
  exact h.key _ (h.tracked_of_mem_entries he).1

/-- All entries pass if and only if all tracked keys have legal readings. -/
theorem passes_iff (h : Models model tracked legal) {m : KV} (hm : Readable m) :
    (∀ e ∈ model.entries, Passes e.2 (shown (m e.1))) ↔ ∀ k, tracked k → legal k (m k) := by
  have hread : ∀ k v, m k = some v → v ≠ nullText := fun k v hv => (hm k v hv).1
  constructor
  · intro hall k hk
    obtain ⟨t, ht⟩ := (h.tracked_iff k).1 hk
    exact ((h.encodes k t ht).passes_iff (hread k)).1 (hall (k, t) (Dict.mem_entries.2 ht))
  · intro hall e he
    obtain ⟨htracked, hencodes⟩ := h.tracked_of_mem_entries he
    exact (hencodes.passes_iff (hread e.1)).2 (hall e.1 htracked)

end Models

/-! ## The operation in flight -/

/-- An operation in flight adds its effect to the model, as an alternative.  The same code is in
`LSOPValidator.gen_model` and, for the first operation, in `RaceOPFile.gen_model`. -/
def recordInFlight (model : Dict Text Text) : MapOp → Dict Text Text
  | .insert k v =>
      match model.get? k.1 with
      | none => model.set k.1 (v.1 ++ magic ++ nullText)
      | some old => model.set k.1 (v.1 ++ magic ++ old)
  | .delete k =>
      match model.get? k.1 with
      | none => model.set k.1 nullText
      | some old => model.set k.1 (nullText ++ magic ++ old)
  | .get _ => model

/-- **The operation in flight**: under each key stand the readings before and after it. -/
theorem recordInFlight_models {model : Dict Text Text} {tracked : Text → Prop} {m : KV}
    (h : Models model tracked fun k r => r = m k) (habsent : ∀ k, ¬tracked k → m k = none)
    (op : MapOp) :
    Models (recordInFlight model op) (fun k => op.Writes k ∨ tracked k)
      (fun k r => r = m k ∨ r = op.apply m k) := by
  have hnone : ∀ k, model.get? k = none → m k = none := by
    intro k hget
    apply habsent
    rw [h.tracked_iff, hget]
    simp
  cases op with
  | insert k v =>
    have hset : ∀ old, Encodes old (fun r => r = m k.1) →
        Models (model.set k.1 (v.1 ++ magic ++ old))
          (fun x => (MapOp.insert k v).Writes x ∨ tracked x)
          (fun x r => r = m x ∨ r = (MapOp.insert k v).apply m x) := by
      intro old hold
      apply h.set k.2.1
      · apply (hold.cons (isReading_value v)).congr
        intro r
        simp [MapOp.apply, or_comm]
      · simp
      · intro x hx r
        simp [MapOp.apply, hx]
    rw [recordInFlight]
    split
    · rename_i hget
      apply hset
      rw [hnone k.1 hget]
      exact encodes_shown isReading_none
    · rename_i old hget
      exact hset old (h.encodes k.1 old hget)
  | delete k =>
    rw [recordInFlight]
    split
    · rename_i hget
      apply h.set k.2.1
      · show Encodes (shown none) _
        simpa [MapOp.apply, hnone k.1 hget] using encodes_shown isReading_none
      · simp
      · intro x hx r
        simp [MapOp.apply, hx]
    · rename_i old hget
      apply h.set k.2.1
      · apply ((h.encodes k.1 old hget).cons isReading_none).congr
        intro r
        simp [MapOp.apply, or_comm]
      · simp
      · intro x hx r
        simp [MapOp.apply, hx]
  | get k => simpa [recordInFlight, MapOp.apply] using h

/-! ## Inputs and oracles -/

namespace OPValidator

/-- `for key in self.model`: gets, with the entries as oracles. -/
def getProbes (model : Dict Text Text) : List (Text × Text) :=
  model.entries.map fun e => (getLine e.1, e.2)

/-- The branch `if self.need_del`: delete the keys, then get them. -/
def delProbes (needDel : Bool) (model : Dict Text Text) : List (Text × Text) :=
  if needDel then
    (model.keys.map fun key => (delLine key, [])) ++
      model.keys.map fun key => (getLine key, nullText)
  else []

/-- `OPValidator.gen_val_input_and_oracle`: the lines of `val_inputs`, each with its line of
`val_oracles`. -/
def genValInputAndOracle (needDel : Bool) (model : Dict Text Text) : List (Text × Text) :=
  getProbes model ++ delProbes needDel model

end OPValidator

section Probes

variable {ack : KV → Text → Text} {model : Dict Text Text} {tracked : Text → Prop}
  {legal : Text → Option Text → Prop}

/-- The gets pass if and only if the tracked keys have legal readings. -/
theorem checks_getProbes (h : Models model tracked legal) {m : KV} (hm : Readable m) :
    Checks (mapDriver ack) m (getProbes model) m (∀ k, tracked k → legal k (m k)) := by
  refine (checks_gets hm ?_ ?_).congr (h.passes_iff hm)
  · intro e he
    exact h.key _ (h.tracked_of_mem_entries he).1
  · intro e he
    exact (h.tracked_of_mem_entries he).2.no_prev

/-- The delete phase always passes. -/
theorem checks_delProbes (hack : ∀ m line, '\n' ∉ ack m line) (h : Models model tracked legal)
    (needDel : Bool) {m : KV} (hm : Readable m) :
    ∃ m', Checks (mapDriver ack) m (delProbes needDel model) m' True := by
  cases needDel with
  | false => exact ⟨m, Checks.nil m⟩
  | true =>
    have hkeys : ∀ k ∈ model.keys, ';' ∉ k := fun k hk => h.key_of_mem_keys hk
    obtain ⟨m', hdels, hm'⟩ := checks_dels hack hkeys m
    have hread : Readable m' := by
      intro k v hv
      rw [hm'] at hv
      split at hv
      · cases hv
      · exact hm k v hv
    have hgets : Checks (mapDriver ack) m'
        ((model.keys.map fun k => (k, nullText)).map fun e => (getLine e.1, e.2)) m'
        (∀ e ∈ model.keys.map fun k => (k, nullText), Passes e.2 (shown (m' e.1))) := by
      apply checks_gets hread
      · intro e he
        obtain ⟨k, hk, rfl⟩ := List.mem_map.1 he
        exact hkeys k hk
      · intro e he
        obtain ⟨k, hk, rfl⟩ := List.mem_map.1 he
        show '%' ∉ nullText
        decide
    rw [List.map_map] at hgets
    refine ⟨m', (hdels.append hgets).congr ?_⟩
    refine iff_true_intro ⟨trivial, ?_⟩
    intro e he
    obtain ⟨k, hk, rfl⟩ := List.mem_map.1 he
    rw [hm', if_pos hk]
    exact (plain_shown isReading_none).passes_iff.2 rfl

/-- **Exactly the maps whose tracked keys have legal readings pass.** -/
theorem checks_genValInputAndOracle (hack : ∀ m line, '\n' ∉ ack m line)
    (h : Models model tracked legal) (needDel : Bool) {m : KV} (hm : Readable m) :
    ∃ m', Checks (mapDriver ack) m (genValInputAndOracle needDel model) m'
      (∀ k, tracked k → legal k (m k)) := by
  obtain ⟨m', hdel⟩ := checks_delProbes hack h needDel hm
  exact ⟨m', ((checks_getProbes h hm).append hdel).congr (by rw [and_true])⟩

end Probes

end Durinn
