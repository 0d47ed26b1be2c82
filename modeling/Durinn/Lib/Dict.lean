import Mathlib

/-!
# Insertion-ordered dictionaries

Python's `dict`: a finite map that remembers the order in which its keys were
first inserted.  Overwriting a key keeps its place, deleting it forgets it, and
iteration runs through the entries in order.  That no key occurs twice is part of
the type.

* `get?`, `set`, `erase` with the usual laws, and `mem_keys` and `mem_entries`.
* `traverse` — a loop over the values that updates each in place while threading a
  state, with its specification `traverse_spec`.
* `filter_flatMap_values` — picking, from the collected contents of all the
  values, what belongs to one key; `perm_of_filter_eq` puts such pieces together.

A hash set has no such order: `SetOrder` is any order for its elements.
-/

/-- An insertion-ordered dictionary. -/
structure Dict (K V : Type) where
  /-- The entries, oldest key first. -/
  entries : List (K × V)
  /-- No key occurs twice. -/
  nodup : (entries.map Prod.fst).Nodup

namespace Dict

variable {K V W σ : Type}

section Keys

variable [DecidableEq K]

/-- `dict()`. -/
def empty : Dict K V := ⟨[], List.nodup_nil⟩

/-- The keys, in order. -/
def keys (d : Dict K V) : List K := d.entries.map Prod.fst

/-- `d.values()`. -/
def values (d : Dict K V) : List V := d.entries.map Prod.snd

/-- `d.get(k)`. -/
def get? (d : Dict K V) (k : K) : Option V := (d.entries.find? fun e => e.1 = k).map Prod.snd

/-- The entries after `d[k] = v`. -/
def setEntries (k : K) (v : V) : List (K × V) → List (K × V)
  | [] => [(k, v)]
  | e :: l => if e.1 = k then (k, v) :: l else e :: setEntries k v l

theorem mem_keys_setEntries {k x : K} {v : V} {l : List (K × V)} :
    x ∈ (setEntries k v l).map Prod.fst ↔ x ∈ l.map Prod.fst ∨ x = k := by
  induction l with
  | nil => simp [setEntries]
  | cons e l ih =>
    by_cases h : e.1 = k
    · simp [setEntries, h]
      tauto
    · rw [setEntries, if_neg h, List.map_cons, List.mem_cons, ih, List.map_cons, List.mem_cons]
      tauto

theorem nodup_setEntries {k : K} {v : V} {l : List (K × V)} (h : (l.map Prod.fst).Nodup) :
    ((setEntries k v l).map Prod.fst).Nodup := by
  induction l with
  | nil => simp [setEntries]
  | cons e l ih =>
    rw [List.map_cons, List.nodup_cons] at h
    by_cases he : e.1 = k
    · subst he
      simpa [setEntries] using h
    · rw [setEntries, if_neg he, List.map_cons, List.nodup_cons, mem_keys_setEntries]
      exact ⟨by tauto, ih h.2⟩

/-- `d[k] = v`. -/
def set (d : Dict K V) (k : K) (v : V) : Dict K V :=
  ⟨setEntries k v d.entries, nodup_setEntries d.nodup⟩

/-- `del d[k]`, which changes nothing here if the key is absent. -/
def erase (d : Dict K V) (k : K) : Dict K V :=
  ⟨d.entries.filter fun e => e.1 ≠ k,
    d.nodup.sublist (List.filter_sublist.map Prod.fst)⟩

/-! ## Lookups -/

@[simp] theorem get?_empty (k : K) : (empty : Dict K V).get? k = none := rfl

@[simp] theorem get?_set_self (d : Dict K V) (k : K) (v : V) : (d.set k v).get? k = some v := by
  obtain ⟨l, hl⟩ := d
  simp only [get?, set]
  clear hl
  induction l with
  | nil => simp [setEntries]
  | cons e l ih =>
    by_cases he : e.1 = k
    · simp [setEntries, he]
    · simpa [setEntries, he] using ih

theorem get?_set_of_ne (d : Dict K V) {k k' : K} (v : V) (h : k' ≠ k) :
    (d.set k v).get? k' = d.get? k' := by
  obtain ⟨l, hl⟩ := d
  simp only [get?, set]
  clear hl
  induction l with
  | nil => simp [setEntries, h.symm]
  | cons e l ih =>
    by_cases he : e.1 = k
    · simp [setEntries, he, h.symm]
    · rw [setEntries, if_neg he]
      by_cases he' : e.1 = k'
      · rw [List.find?_cons_of_pos (by simpa using he'),
          List.find?_cons_of_pos (by simpa using he')]
      · rwa [List.find?_cons_of_neg (by simpa using he'),
          List.find?_cons_of_neg (by simpa using he')]

theorem get?_set (d : Dict K V) (k k' : K) (v : V) :
    (d.set k v).get? k' = if k' = k then some v else d.get? k' := by
  split
  · rename_i h
    rw [h, get?_set_self]
  · rename_i h
    exact get?_set_of_ne d v h

theorem get?_erase (d : Dict K V) (k k' : K) :
    (d.erase k).get? k' = if k' = k then none else d.get? k' := by
  simp only [get?, erase, List.find?_filter]
  split
  · rename_i h
    subst h
    rw [List.find?_eq_none.2 (by simp), Option.map_none]
  · rename_i h
    congr 2
    funext e
    by_cases he : e.1 = k'
    · simp [he, h]
    · simp [he]

theorem mem_entries {d : Dict K V} {k : K} {v : V} : (k, v) ∈ d.entries ↔ d.get? k = some v := by
  obtain ⟨l, hl⟩ := d
  simp only [get?]
  induction l with
  | nil => simp
  | cons e l ih =>
    rw [List.map_cons, List.nodup_cons] at hl
    by_cases he : e.1 = k
    · have hnot : (k, v) ∉ l := fun hmem => hl.1 (by
        rw [he]
        exact List.mem_map_of_mem (f := Prod.fst) hmem)
      obtain ⟨a, b⟩ := e
      simp only at he
      subst he
      simp [hnot, eq_comm]
    · have hne : (k, v) ≠ e := fun hc => he (by rw [← hc])
      rw [List.mem_cons, List.find?_cons_of_neg (by simpa using he)]
      exact ⟨fun h => (ih hl.2).1 (h.resolve_left hne), fun h => Or.inr ((ih hl.2).2 h)⟩

theorem mem_keys {d : Dict K V} {k : K} : k ∈ d.keys ↔ (d.get? k).isSome := by
  rw [keys, List.mem_map, Option.isSome_iff_exists]
  constructor
  · rintro ⟨⟨a, v⟩, h, rfl⟩
    exact ⟨v, mem_entries.1 h⟩
  · rintro ⟨v, h⟩
    exact ⟨(k, v), mem_entries.2 h, rfl⟩

theorem mem_keys_set {d : Dict K V} {k x : K} {v : V} :
    x ∈ (d.set k v).keys ↔ x ∈ d.keys ∨ x = k :=
  mem_keys_setEntries

/-- A new key comes last. -/
theorem keys_set_of_notMem {d : Dict K V} {k : K} {v : V} (h : k ∉ d.keys) :
    (d.set k v).keys = d.keys ++ [k] := by
  obtain ⟨l, hl⟩ := d
  simp only [keys, set] at h ⊢
  clear hl
  induction l with
  | nil => rfl
  | cons e l ih =>
    rw [List.map_cons, List.mem_cons, not_or] at h
    rw [setEntries, if_neg fun he => h.1 he.symm, List.map_cons, ih h.2]
    rfl

/-- `for k in ks: del d[k]`. -/
theorem get?_foldl_erase (ks : List K) (d : Dict K V) (k : K) :
    (ks.foldl erase d).get? k = if k ∈ ks then none else d.get? k := by
  induction ks generalizing d with
  | nil => simp
  | cons x ks ih =>
    rw [List.foldl_cons, ih, get?_erase]
    by_cases hk : k ∈ ks
    · simp [hk]
    · by_cases hx : k = x <;> simp [hk, hx]

/-- Apply a function to every value. -/
def map (g : V → W) (d : Dict K V) : Dict K W :=
  ⟨d.entries.map fun e => (e.1, g e.2), by rw [List.map_map]; exact d.nodup⟩

@[simp] theorem get?_map (g : V → W) (d : Dict K V) (k : K) :
    (d.map g).get? k = (d.get? k).map g := by
  simp only [get?, map, List.find?_map, Option.map_map, Function.comp_def]

theorem mem_values {d : Dict K V} {v : V} : v ∈ d.values ↔ ∃ k, d.get? k = some v := by
  simp only [values, List.mem_map, Prod.exists, exists_eq_right, mem_entries]

end Keys

/-! ## Loops over the values -/

/-- The loop behind `traverse`. -/
def traverseEntries (f : V → σ → Option (W × σ)) : List (K × V) → σ → Option (List (K × W) × σ)
  | [], s => some ([], s)
  | (k, v) :: l, s => do
      let (w, s) ← f v s
      let (l, s) ← traverseEntries f l s
      return ((k, w) :: l, s)

theorem keys_traverseEntries {f : V → σ → Option (W × σ)} :
    ∀ {l : List (K × V)} {s : σ} {r : List (K × W) × σ}, traverseEntries f l s = some r →
      r.1.map Prod.fst = l.map Prod.fst := by
  intro l
  induction l with
  | nil =>
    intro s r h
    cases h
    rfl
  | cons e l ih =>
    intro s r h
    simp only [traverseEntries, Option.bind_eq_bind, Option.bind_eq_some_iff, Option.pure_def,
      Option.some.injEq] at h
    obtain ⟨⟨w, s'⟩, -, ⟨l', s''⟩, hl, rfl⟩ := h
    simp [ih hl]

/-- `for v in d.values(): ...`, where the body replaces `v` and changes a state. -/
def traverse (f : V → σ → Option (W × σ)) (d : Dict K V) (s : σ) : Option (Dict K W × σ) :=
  match h : traverseEntries f d.entries s with
  | none => none
  | some r => some (⟨r.1, by rw [keys_traverseEntries h]; exact d.nodup⟩, r.2)

/-- If the body turns each value `v` into `g v` and, run through all the values,
threads the state to `s'`, so does the loop. -/
theorem traverse_spec {f : V → σ → Option (W × σ)} {g : V → W} {step : σ → V → Option σ}
    (hf : ∀ v s, f v s = (step s v).map fun s' => (g v, s')) (d : Dict K V) (s : σ) :
    d.traverse f s = (d.values.foldlM step s).map fun s' => (d.map g, s') := by
  have hentries : ∀ (l : List (K × V)) (s : σ), traverseEntries f l s =
      ((l.map Prod.snd).foldlM step s).map fun s' => (l.map fun e => (e.1, g e.2), s') := by
    intro l
    induction l with
    | nil => intro s; rfl
    | cons e l ih =>
      intro s
      simp only [traverseEntries, hf, List.map_cons, List.foldlM_cons, Option.bind_eq_bind, ih]
      cases step s e.2 with
      | none => rfl
      | some s' =>
        simp only [Option.map_some, Option.bind_some]
        cases (l.map Prod.snd).foldlM step s' <;> rfl
  unfold traverse
  split
  · rename_i h
    rw [hentries] at h
    rw [values]
    cases hfold : (d.entries.map Prod.snd).foldlM step s with
    | none => rfl
    | some s' => rw [hfold] at h; cases h
  · rename_i r h
    rw [hentries] at h
    rw [values]
    cases hfold : (d.entries.map Prod.snd).foldlM step s with
    | none => rw [hfold] at h; cases h
    | some s' =>
      rw [hfold] at h
      cases h
      rfl

/-- Collect the contents of all the values; what belongs to the key `k` is the
contents of its own value. -/
theorem filter_flatMap_values [DecidableEq K] {S : Type} (d : Dict K V) (g : V → List S)
    (key : S → K) (hkey : ∀ k v, d.get? k = some v → ∀ s ∈ g v, key s = k) (k : K) :
    (d.values.flatMap g).filter (fun s => key s = k) = ((d.get? k).map g).getD [] := by
  have hmem : ∀ e ∈ d.entries, ∀ s ∈ g e.2, key s = e.1 :=
    fun e he => hkey e.1 e.2 (mem_entries.1 he)
  obtain ⟨l, hl⟩ := d
  simp only [values, get?] at hmem ⊢
  clear hkey
  induction l with
  | nil => rfl
  | cons e l ih =>
    rw [List.map_cons, List.nodup_cons] at hl
    have ih := ih hl.2 fun e he => hmem e (List.mem_cons_of_mem _ he)
    rw [List.map_cons, List.flatMap_cons, List.filter_append, ih]
    by_cases he : e.1 = k
    · have hall : (g e.2).filter (fun s => key s = k) = g e.2 :=
        List.filter_eq_self.2 fun s hs => by simp [hmem e (by simp) s hs, he]
      have hnone : l.find? (fun e => e.1 = k) = none := by
        rw [List.find?_eq_none]
        intro x hx
        simp only [decide_eq_true_eq]
        exact fun hc => hl.1 (by rw [he, ← hc]; exact List.mem_map_of_mem hx)
      simp [hall, hnone, he]
    · have hnil : (g e.2).filter (fun s => key s = k) = [] :=
        List.filter_eq_nil_iff.2 fun s hs => by simp [hmem e (by simp) s hs, he]
      simp [hnil, he]

/-- Lists with the same contents, key by key, are permutations of each other. -/
theorem perm_of_filter_eq [DecidableEq K] {S : Type} {l₁ l₂ : List S} (key : S → K)
    (h : ∀ k, l₁.filter (fun s => key s = k) = l₂.filter fun s => key s = k) : l₁.Perm l₂ := by
  classical
  rw [List.perm_iff_count]
  intro a
  have hcount : ∀ l : List S, l.count a = (l.filter fun s => key s = key a).count a :=
    fun l => (List.count_filter (by simp)).symm
  rw [hcount l₁, hcount l₂, h]

/-! ## Lists under keys -/

section Push

variable [DecidableEq K] {K' : Type}

/-- The list under a key, which is empty for an absent one. -/
def listAt (d : Dict K (List V)) (k : K) : List V := (d.get? k).getD []

/-- `if k not in d: d[k] = []`, and then `d[k].append(v)`. -/
def push (d : Dict K (List V)) (k : K) (v : V) : Dict K (List V) := d.set k (d.listAt k ++ [v])

/-- The dictionary under a key, which is empty for an absent one. -/
def sub (d : Dict K (Dict K' V)) (k : K) : Dict K' V := (d.get? k).getD empty

@[simp] theorem listAt_empty (k : K) : (empty : Dict K (List V)).listAt k = [] := rfl

@[simp] theorem sub_empty (k : K) : (empty : Dict K (Dict K' V)).sub k = empty := rfl

theorem listAt_push (d : Dict K (List V)) (k k' : K) (v : V) :
    (d.push k v).listAt k' = d.listAt k' ++ if k' = k then [v] else [] := by
  rw [push, listAt, get?_set]
  by_cases h : k' = k
  · simp [h]
  · simp [h, listAt]

theorem sub_set (d : Dict K (Dict K' V)) (k k' : K) (e : Dict K' V) :
    (d.set k e).sub k' = if k' = k then e else d.sub k' := by
  rw [sub, get?_set]
  by_cases h : k' = k
  · simp [h]
  · simp [h, sub]

end Push

end Dict

/-! ## Hash sets -/

/-- An order in which hash sets are gone through. -/
structure SetOrder (α : Type) where
  /-- The elements of a set, in order. -/
  toList : Finset α → List α
  mem_toList : ∀ s x, x ∈ toList s ↔ x ∈ s
  nodup_toList : ∀ s, (toList s).Nodup

noncomputable instance {α : Type} : Inhabited (SetOrder α) :=
  ⟨⟨Finset.toList, fun _ _ => Finset.mem_toList, fun s => s.nodup_toList⟩⟩
