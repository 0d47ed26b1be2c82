import Mathlib

/-!
# Runs of a partial step function

A run of `step : σ → α → Option σ` over a list is `foldlM step`.

* `invariant` — the one way of proving what holds after every run that does not fail: find
  an invariant of the state that may mention the inputs consumed so far, and show that a
  step keeps it; `lockstep` is the same for two machines that run side by side, and `rel_run`
  for two that also fail together.
* `simulate` — a machine that follows another one, over inputs of its own, does not fail either.
* `transduce` — the run of a step function that also puts out something at each step, with an
  invariant rule of its own (`invariant_transduce`).
* `outputs` — what a machine puts out, when the output of a step is a function of the inputs
  before it and of its own input; `mem_outputs` finds the step that put something out.
-/

namespace Runs

variable {σ α : Type}

/-- The invariant rule, with the run up to the step at hand. -/
theorem invariant_run {step : σ → α → Option σ} {s₀ s : σ} {l : List α} (I : List α → σ → Prop)
    (hstart : I [] s₀)
    (hstep : ∀ done a s s', done ++ [a] <+: l → done.foldlM step s₀ = some s → I done s →
      step s a = some s' → I (done ++ [a]) s')
    (hrun : l.foldlM step s₀ = some s) : I l s := by
  induction l using List.reverseRecOn generalizing s with
  | nil =>
    cases hrun
    exact hstart
  | append_singleton l a ih =>
    rw [List.foldlM_append, Option.bind_eq_bind, Option.bind_eq_some_iff] at hrun
    obtain ⟨s₁, h₁, h₂⟩ := hrun
    have hlast : step s₁ a = some s := by simpa using h₂
    refine hstep l a s₁ s List.prefix_rfl h₁ (ih ?_ h₁) hlast
    intro done b t t' hpre
    exact hstep done b t t' (hpre.trans (List.prefix_append l [a]))

/-- **The invariant rule.**  An invariant that holds at the start and is kept by every step of
the run holds at its end. -/
theorem invariant {step : σ → α → Option σ} {s₀ s : σ} {l : List α} (I : List α → σ → Prop)
    (hstart : I [] s₀)
    (hstep : ∀ done a s s', done ++ [a] <+: l → I done s → step s a = some s' → I (done ++ [a]) s')
    (hrun : l.foldlM step s₀ = some s) : I l s :=
  invariant_run I hstart (fun done a s s' hpre _ => hstep done a s s' hpre) hrun

/-- A run that does not fail has made a step for each of its inputs. -/
theorem exists_step {step : σ → α → Option σ} {s₀ s : σ} {l : List α}
    (hrun : l.foldlM step s₀ = some s) {a : α} (ha : a ∈ l) : ∃ s s', step s a = some s' := by
  induction l generalizing s₀ with
  | nil => cases ha
  | cons b l ih =>
    rw [List.foldlM_cons, Option.bind_eq_bind, Option.bind_eq_some_iff] at hrun
    obtain ⟨s₁, h₁, hrest⟩ := hrun
    rcases List.mem_cons.1 ha with rfl | ha
    · exact ⟨s₀, s₁, h₁⟩
    · exact ih hrest ha

/-- **The lockstep rule.**  A relation between two machines that run over the same inputs. -/
theorem lockstep {τ : Type} {step : σ → α → Option σ} {step' : τ → α → Option τ} {s₀ s : σ}
    {t₀ t : τ} {l : List α} (I : List α → σ → τ → Prop) (hstart : I [] s₀ t₀)
    (hstep : ∀ done a s s' t t', done.foldlM step s₀ = some s → done.foldlM step' t₀ = some t →
      I done s t → step s a = some s' → step' t a = some t' → I (done ++ [a]) s' t')
    (hrun : l.foldlM step s₀ = some s) (hrun' : l.foldlM step' t₀ = some t) : I l s t := by
  refine invariant_run (fun done s => ∀ t, done.foldlM step' t₀ = some t → I done s t) ?_ ?_ hrun t
    hrun'
  · intro t ht
    cases ht
    exact hstart
  · intro done a s s' _ hs h hstep₁ t ht
    rw [List.foldlM_append, Option.bind_eq_bind, Option.bind_eq_some_iff] at ht
    obtain ⟨t₁, ht₁, hlast⟩ := ht
    exact hstep done a s s' t₁ t hs ht₁ (h t₁ ht₁) hstep₁ (by simpa using hlast)

/-- Computations that fail together, followed by functions. -/
theorem rel_map {β γ δ : Type} {R : α → β → Prop} {S : γ → δ → Prop} {f : α → γ} {g : β → δ}
    {x : Option α} {y : Option β} (h : Option.Rel R x y) (hfg : ∀ a b, R a b → S (f a) (g b)) :
    Option.Rel S (x.map f) (y.map g) := by
  cases h with
  | none => exact .none
  | some h => exact .some (hfg _ _ h)

/-- Computations that fail together, followed by functions to the same values. -/
theorem map_eq_of_rel {β γ : Type} {R : α → β → Prop} {f : α → γ} {g : β → γ} {x : Option α}
    {y : Option β} (h : Option.Rel R x y) (hfg : ∀ a b, R a b → f a = g b) :
    x.map f = y.map g := by
  cases h with
  | none => rfl
  | some h => exact congrArg some (hfg _ _ h)

/-- Computations that fail together, followed by others that do. -/
theorem rel_bind {β γ δ : Type} {R : α → β → Prop} {S : γ → δ → Prop} {f : α → Option γ}
    {g : β → Option δ} {x : Option α} {y : Option β} (h : Option.Rel R x y)
    (hfg : ∀ a b, R a b → Option.Rel S (f a) (g b)) : Option.Rel S (x.bind f) (y.bind g) := by
  cases h with
  | none => exact .none
  | some h => exact hfg _ _ h

/-- The lockstep rule for machines of which one fails if and only if the other does. -/
theorem rel_run {τ : Type} {step : σ → α → Option σ} {step' : τ → α → Option τ} {s₀ : σ} {t₀ : τ}
    {l : List α} (R : List α → σ → τ → Prop) (hstart : R [] s₀ t₀)
    (hstep : ∀ done a s t, done ++ [a] <+: l → R done s t →
      Option.Rel (R (done ++ [a])) (step s a) (step' t a)) :
    Option.Rel (R l) (l.foldlM step s₀) (l.foldlM step' t₀) := by
  induction l using List.reverseRecOn with
  | nil => exact .some hstart
  | append_singleton l a ih =>
    have hl : Option.Rel (R l) (l.foldlM step s₀) (l.foldlM step' t₀) := by
      refine ih fun done b s t hpre => ?_
      exact hstep done b s t (hpre.trans (List.prefix_append l [a]))
    rw [List.foldlM_append, List.foldlM_append]
    exact rel_bind hl fun s t h => by simpa using hstep l a s t List.prefix_rfl h

/-- **The simulation rule.**  Two machines run over lists that look the same, element by element.
If each step of the first can be followed by the second, then the second does not fail either. -/
theorem simulate {β γ τ : Type} {step : σ → α → Option σ} {step' : τ → β → Option τ} {s₀ s : σ}
    {t₀ : τ} {f : α → γ} {g : β → γ} {l : List α} {l' : List β} (hl : l.map f = l'.map g)
    (R : List α → List β → σ → τ → Prop) (hstart : R [] [] s₀ t₀)
    (hstep : ∀ done done' a b s s' t, done ++ [a] <+: l → f a = g b → R done done' s t →
      step s a = some s' → ∃ t', step' t b = some t' ∧ R (done ++ [a]) (done' ++ [b]) s' t')
    (hrun : l.foldlM step s₀ = some s) : ∃ t, l'.foldlM step' t₀ = some t ∧ R l l' s t := by
  induction l using List.reverseRecOn generalizing l' s with
  | nil =>
    rw [List.map_eq_nil_iff.1 hl.symm]
    cases hrun
    exact ⟨t₀, rfl, hstart⟩
  | append_singleton l a ih =>
    rw [List.map_append] at hl
    obtain ⟨m, m', rfl, hm, hm'⟩ := List.map_eq_append_iff.1 hl.symm
    obtain ⟨b, rfl, hab⟩ := List.map_eq_singleton_iff.1 hm'
    rw [List.foldlM_append, Option.bind_eq_bind, Option.bind_eq_some_iff] at hrun
    obtain ⟨s₁, h₁, h₂⟩ := hrun
    obtain ⟨t, ht, hR⟩ := ih hm.symm (fun done done' a b s s' t hpre =>
      hstep done done' a b s s' t (hpre.trans (List.prefix_append l _))) h₁
    obtain ⟨t', ht', hR'⟩ := hstep l m a b s₁ s t List.prefix_rfl hab.symm hR (by simpa using h₂)
    refine ⟨t', ?_, hR'⟩
    rw [List.foldlM_append, ht]
    simpa using ht'

/-- A loop over a list that does not fail has a result for each element. -/
theorem mapM_eq_some_iff {β : Type} {f : α → Option β} {l : List α} {r : List β} :
    l.mapM f = some r ↔ List.Forall₂ (fun a b => f a = some b) l r := by
  induction l generalizing r with
  | nil => simp [eq_comm]
  | cons a l ih =>
    simp only [List.mapM_cons, Option.bind_eq_bind, Option.bind_eq_some_iff, Option.pure_def,
      Option.some.injEq, ih, List.forall₂_cons_left_iff]
    constructor
    · rintro ⟨b, hb, bs, hbs, rfl⟩
      exact ⟨b, bs, hb, hbs, rfl⟩
    · rintro ⟨b, bs, hb, hbs, rfl⟩
      exact ⟨b, hb, bs, hbs, rfl⟩

/-- A loop over a list in which no element fails. -/
theorem mapM_eq_some {β : Type} {f : α → Option β} {g : α → β} {l : List α}
    (h : ∀ a ∈ l, f a = some (g a)) : l.mapM f = some (l.map g) := by
  rw [mapM_eq_some_iff, List.forall₂_map_right_iff, List.forall₂_same]
  exact h

/-- What is read off the results of a loop, when it is a function of the elements. -/
theorem map_of_mapM {β γ : Type} {f : α → Option β} {g : β → γ} {h : α → γ} {l : List α}
    {r : List β} (hr : l.mapM f = some r) (hf : ∀ a b, f a = some b → g b = h a) :
    r.map g = l.map h := by
  induction mapM_eq_some_iff.1 hr with
  | nil => rfl
  | cons hab _ ih => rw [List.map_cons, List.map_cons, hf _ _ hab, ih (mapM_eq_some_iff.2 ‹_›)]

theorem mem_of_mapM {β : Type} {f : α → Option β} {l : List α} {r : List β}
    (hr : l.mapM f = some r) {b : β} (hb : b ∈ r) : ∃ a ∈ l, f a = some b := by
  have hmap : r.map some = l.map f := map_of_mapM hr fun a b h => h.symm
  have hmem : some b ∈ l.map f := hmap ▸ List.mem_map_of_mem hb
  exact List.mem_map.1 hmem

/-- The run of a step function that puts out something at each step: the state at the end and
the outputs. -/
def transduce {β : Type} (step : σ → α → Option (σ × β)) : σ → List α → Option (σ × List β)
  | s, [] => some (s, [])
  | s, a :: l =>
      (step s a).bind fun r => (transduce step r.1 l).map fun r' => (r'.1, r.2 :: r'.2)

theorem transduce_cons {β : Type} {step : σ → α → Option (σ × β)} {s s' s'' : σ} {a : α} {b : β}
    {l : List α} {bs : List β} (h : step s a = some (s', b))
    (h' : transduce step s' l = some (s'', bs)) :
    transduce step s (a :: l) = some (s'', b :: bs) := by
  rw [transduce, h, Option.bind_some, h', Option.map_some]

theorem transduce_append {β : Type} {step : σ → α → Option (σ × β)} {s s' s'' : σ} {l l' : List α}
    {bs bs' : List β} (h : transduce step s l = some (s', bs))
    (h' : transduce step s' l' = some (s'', bs')) :
    transduce step s (l ++ l') = some (s'', bs ++ bs') := by
  induction l generalizing s bs with
  | nil =>
    cases h
    exact h'
  | cons a l ih =>
    simp only [transduce, Option.bind_eq_some_iff, Option.map_eq_some_iff] at h
    obtain ⟨⟨t, b⟩, hstep, ⟨t', cs⟩, hrest, heq⟩ := h
    cases heq
    exact transduce_cons hstep (ih hrest)

theorem length_transduce {β : Type} {step : σ → α → Option (σ × β)} {s s' : σ} {l : List α}
    {bs : List β} (h : transduce step s l = some (s', bs)) : bs.length = l.length := by
  induction l generalizing s bs with
  | nil =>
    cases h
    rfl
  | cons a l ih =>
    simp only [transduce, Option.bind_eq_some_iff, Option.map_eq_some_iff] at h
    obtain ⟨r, -, r', hrest, heq⟩ := h
    cases heq
    exact congrArg Nat.succ (ih hrest)

/-- Putting out something does not change the run. -/
theorem foldlM_eq_transduce {β : Type} (step : σ → α → Option σ) (out : σ → α → β) (s : σ)
    (l : List α) :
    l.foldlM step s =
      (transduce (fun s a => (step s a).map fun s' => (s', out s a)) s l).map Prod.fst := by
  induction l generalizing s with
  | nil => rfl
  | cons a l ih =>
    rw [List.foldlM_cons, transduce]
    cases step s a with
    | none => rfl
    | some s' =>
      simp only [Option.bind_eq_bind, Option.bind_some, Option.map_some, Option.map_map]
      exact ih s'

/-- The invariant rule for a run with outputs. -/
theorem invariant_transduce {β : Type} {step : σ → α → Option (σ × β)} {s₀ s : σ} {l : List α}
    {bs : List β} (I : List α → List β → σ → Prop) (hstart : I [] [] s₀)
    (hstep : ∀ done outs a s s' b, I done outs s → step s a = some (s', b) →
      I (done ++ [a]) (outs ++ [b]) s')
    (hrun : transduce step s₀ l = some (s, bs)) : I l bs s := by
  suffices h : ∀ done outs s₁, I done outs s₁ → ∀ l bs, transduce step s₁ l = some (s, bs) →
      I (done ++ l) (outs ++ bs) s from h [] [] s₀ hstart l bs hrun
  intro done outs s₁ hinv l
  induction l generalizing done outs s₁ with
  | nil =>
    intro bs hrun
    cases hrun
    simpa using hinv
  | cons a l ih =>
    intro bs hrun
    simp only [transduce, Option.bind_eq_some_iff, Option.map_eq_some_iff] at hrun
    obtain ⟨⟨s', b⟩, ha, ⟨s'', bs'⟩, hrest, heq⟩ := hrun
    cases heq
    simpa using ih (done ++ [a]) (outs ++ [b]) s' (hstep _ _ _ _ _ _ hinv ha) bs' hrest

/-- What is put out on the inputs that follow `done`. -/
def outputsFrom {β : Type} (f : List α → α → List β) (done : List α) : List α → List β
  | [] => []
  | a :: l => f done a ++ outputsFrom f (done ++ [a]) l

/-- What is put out on a list of inputs. -/
def outputs {β : Type} (f : List α → α → List β) (l : List α) : List β := outputsFrom f [] l

theorem outputsFrom_append_singleton {β : Type} (f : List α → α → List β) (done l : List α)
    (a : α) :
    outputsFrom f done (l ++ [a]) = outputsFrom f done l ++ f (done ++ l) a := by
  induction l generalizing done with
  | nil => simp [outputsFrom]
  | cons b l ih => simp [outputsFrom, ih]

theorem outputs_append_singleton {β : Type} (f : List α → α → List β) (l : List α) (a : α) :
    outputs f (l ++ [a]) = outputs f l ++ f l a :=
  outputsFrom_append_singleton f [] l a

theorem length_outputsFrom_le {β : Type} {f g : List α → α → List β}
    (h : ∀ done a, (g done a).length ≤ (f done a).length) (done l : List α) :
    (outputsFrom g done l).length ≤ (outputsFrom f done l).length := by
  induction l generalizing done with
  | nil => exact le_rfl
  | cons a l ih =>
    rw [outputsFrom, outputsFrom, List.length_append, List.length_append]
    exact Nat.add_le_add (h done a) (ih _)

/-- Where one function puts out something more than another one, the outputs are the same only if it
is nothing. -/
theorem outputsFrom_eq_iff {β : Type} {f g more : List α → α → List β}
    (h : ∀ done a, f done a = g done a ++ more done a) (done l : List α) :
    outputsFrom f done l = outputsFrom g done l ↔
      ∀ u a v, l = u ++ a :: v → more (done ++ u) a = [] := by
  have hle : ∀ done a, (g done a).length ≤ (f done a).length := by
    intro done a
    rw [h, List.length_append]
    exact Nat.le_add_right _ _
  induction l generalizing done with
  | nil => simp [outputsFrom]
  | cons b l ih =>
    rw [outputsFrom, outputsFrom, h, List.append_assoc, List.append_cancel_left_eq]
    constructor
    · intro heq
      -- the rest is not longer, so nothing more was put out for the first input
      have hlength := congrArg List.length heq
      rw [List.length_append] at hlength
      have hrest := length_outputsFrom_le hle (done ++ [b]) l
      have hnil : more done b = [] := List.length_eq_zero_iff.1 (by omega)
      rw [hnil, List.nil_append] at heq
      intro u a v hsplit
      cases u with
      | nil =>
        obtain ⟨rfl, -⟩ := List.cons.inj hsplit
        rwa [List.append_nil]
      | cons c u =>
        obtain ⟨rfl, rfl⟩ := List.cons.inj hsplit
        simpa using (ih _).1 heq u a v rfl
    · intro hnil
      have hfirst := hnil [] b l rfl
      rw [List.append_nil] at hfirst
      rw [hfirst, List.nil_append]
      refine (ih _).2 fun u a v hsplit => ?_
      simpa using hnil (b :: u) a v (by rw [hsplit]; rfl)

theorem mem_outputs {β : Type} {f : List α → α → List β} {l : List α} {b : β} :
    b ∈ outputs f l ↔ ∃ u a v, l = u ++ a :: v ∧ b ∈ f u a := by
  induction l using List.reverseRecOn with
  | nil => simp [outputs, outputsFrom]
  | append_singleton l a ih =>
    rw [outputs_append_singleton, List.mem_append, ih]
    constructor
    · rintro (⟨u, c, v, rfl, hb⟩ | hb)
      · exact ⟨u, c, v ++ [a], by simp, hb⟩
      · exact ⟨l, a, [], rfl, hb⟩
    · rintro ⟨u, c, v, hl, hb⟩
      rcases List.eq_nil_or_concat' v with rfl | ⟨v, d, rfl⟩
      · obtain ⟨rfl, hc⟩ := List.append_inj' hl rfl
        cases hc
        exact Or.inr hb
      · have hsplit : l ++ [a] = (u ++ c :: v) ++ [d] := by simp [hl]
        exact Or.inl ⟨u, c, v, List.append_inj_left' hsplit rfl, hb⟩

end Runs
