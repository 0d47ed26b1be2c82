import Durinn.Passes.Visitors

/-!
# What the pass does to a block

A visited block has the layout of each of its instructions around that instruction, whatever the
visitors did to the block in between.

* `Expands`, `expands_visitBlock` — the visited block.
* `Expands.outline_eq` — what it was made from can be read off it.
* `Expands.filter_isProg`, `Expands.exists_layout` — the instructions of the program are as they
  were, and what belongs to an instruction is its layout, which stands directly around it.
* `Expands.blockForm` — phis come first and a terminator last.
* `Expands.dominated` — whatever an instruction uses is there.
-/

namespace Durinn

open ListEdit PyText

/-! ## Blocks -/

/-- The instruction that an item belongs to. -/
def Item.site : Item → Option Nat
  | .prog place _ => some place
  | .added owner _ => owner

@[simp] theorem Item.site_prog (place : Nat) (i : IRInst) : (Item.prog place i).site = some place :=
  rfl

@[simp] theorem Item.site_added (owner : Option Nat) (a : Added) :
    (Item.added owner a).site = owner :=
  rfl

def Item.isProg : Item → Bool
  | .prog _ _ => true
  | .added _ _ => false

def Item.isTerminator : Item → Bool
  | .prog _ i => i.isTerminator
  | .added _ _ => false

/-- A block as it is before the pass: instructions of the program, at places of their own. -/
structure SourceBlock (b : List Item) : Prop where
  prog : ∀ item ∈ b, item.isProg = true
  places : (b.map Item.site).Nodup

instance (b : List Item) : Decidable (SourceBlock b) :=
  decidable_of_iff ((∀ item ∈ b, item.isProg = true) ∧ (b.map Item.site).Nodup)
    ⟨fun h => ⟨h.1, h.2⟩, fun h => ⟨h.prog, h.places⟩⟩

/-- The phis of a block come first, and a terminator comes last. -/
structure BlockForm (b : List Item) : Prop where
  order : b.Pairwise fun x y =>
    (CiriTracerPass.isPhi y = true → CiriTracerPass.isPhi x = true) ∧ x.isTerminator = false
  last : ∃ x ∈ b.getLast?, x.isTerminator = true

instance (b : List Item) : Decidable (BlockForm b) :=
  decidable_of_iff ((b.Pairwise fun x y => (CiriTracerPass.isPhi y = true →
      CiriTracerPass.isPhi x = true) ∧ x.isTerminator = false) ∧
        b.getLast?.any Item.isTerminator = true)
    ⟨fun h => ⟨h.1, (Option.any_eq_true _ _).1 h.2⟩,
      fun h => ⟨h.order, (Option.any_eq_true _ _).2 h.last⟩⟩

namespace CiriTracerPass

variable {p : CiriTracerPass} {ci : Nat} {i : IRInst} {b b' : List Item}

/-- Every instruction of a block has its layout around it, with a store record if it is to have
one.  What belongs to no instruction stays where it is. -/
inductive Expands (p : CiriTracerPass) : List Item → List Item → Prop where
  | nil : Expands p [] []
  | other {b b' : List Item} (a : Added) (rest : Expands p b b') :
      Expands p (.added none a :: b) (.added none a :: b')
  | cons {ci : Nat} {i : IRInst} {b b' : List Item} (L : Layout p ci i)
      (made : L.Made)
      (stores : L.callsAfter.any RecordCall.stores = emitsStore p.demangle i.kind)
      (rest : Expands p b b') :
      Expands p (.prog ci i :: b) (items ci L.before ++ .prog ci i :: (items ci L.after ++ b'))

/-- The visit of the rest of a block, after what was visited has been expanded to `done`. -/
theorem expands_foldlM {done rest : List Item} (hrest : SourceBlock rest)
    (hdone : ∀ z ∈ done, z.site ∉ rest.map Item.site)
    (h : rest.foldlM p.visitItem (done ++ rest) = some b) :
    ∃ rest', b = done ++ rest' ∧ Expands p rest rest' := by
  induction rest generalizing done with
  | nil =>
    cases h
    exact ⟨[], rfl, .nil⟩
  | cons item rest ih =>
    obtain ⟨hprog, hplaces⟩ := hrest
    rw [List.forall_mem_cons] at hprog
    rw [List.map_cons, List.nodup_cons] at hplaces
    cases item with
    | added owner a => cases hprog.1
    | prog ci i =>
      rw [List.foldlM_cons, Option.bind_eq_bind, Option.bind_eq_some_iff] at h
      obtain ⟨b₁, hvisit, hfold⟩ := h
      obtain ⟨es, hes, rfl⟩ := Option.map_eq_some_iff.1 hvisit
      obtain ⟨hnew, L, hL, hstores⟩ := lays_visit hes
      have hsite : ∀ z ∈ done, z.site ≠ some ci := fun z hz heq =>
        hdone z hz (heq ▸ List.mem_cons_self)
      -- nothing new is among what is there already
      have happly := foldl_apply (x := Item.prog ci i) (l := done) (r := rest) hL
        (fun hmem => hsite _ hmem rfl) (by simp) fun e he z hz => by
          obtain ⟨a, rfl⟩ := hnew e he z hz
          exact ⟨fun hmem => hsite _ hmem rfl, nofun⟩
      rw [List.append_nil, List.nil_append] at happly
      rw [happly] at hfold
      have hassoc : done ++ items ci L.before ++ Item.prog ci i :: (items ci L.after ++ rest) =
          (done ++ (items ci L.before ++ Item.prog ci i :: items ci L.after)) ++ rest := by simp
      have hnext : ∀ z ∈ done ++ (items ci L.before ++ Item.prog ci i :: items ci L.after),
          z.site ∉ rest.map Item.site := by
        intro z hz
        rcases List.mem_append.1 hz with hz | hz
        · exact fun hmem => hdone z hz (List.mem_cons_of_mem _ hmem)
        · have hzsite : z.site = some ci := by
            simp only [items, List.mem_append, List.mem_cons, List.mem_map] at hz
            rcases hz with ⟨a, -, rfl⟩ | rfl | ⟨a, -, rfl⟩ <;> rfl
          rw [hzsite]
          exact hplaces.1
      rw [hassoc] at hfold
      obtain ⟨rest', rfl, hexpands⟩ := ih ⟨hprog.2, hplaces.2⟩ hnext hfold
      exact ⟨items ci L.before ++ .prog ci i :: (items ci L.after ++ rest'), by simp,
        .cons L ⟨es, hes, hL⟩ hstores hexpands⟩

/-- **A visited block** is the block, with its layout around every instruction. -/
theorem expands_visitBlock (hb : SourceBlock b) (h : p.visitBlock b = some b') :
    Expands p b b' := by
  have hnone : ∀ z ∈ ([] : List Item), z.site ∉ b.map Item.site := List.forall_mem_nil _
  obtain ⟨rest, rfl, hexpands⟩ := expands_foldlM hb hnone h
  exact hexpands

/-! ### What stays -/

theorem filter_items (l : List Added) : (items ci l).filter Item.isProg = [] := by
  rw [List.filter_eq_nil_iff]
  intro x hx
  obtain ⟨a, -, rfl⟩ := List.mem_map.1 hx
  exact Bool.false_ne_true

theorem Expands.filter_isProg (h : Expands p b b') :
    b'.filter Item.isProg = b.filter Item.isProg := by
  induction h with
  | nil => rfl
  | other a rest ih => exact ih
  | cons L made stores rest ih =>
    rw [List.filter_append, List.filter_cons_of_pos rfl, List.filter_append, filter_items,
      filter_items, ih]
    rfl

theorem Expands.mem_of_isProg (h : Expands p b b') {x : Item} (hx : x ∈ b')
    (hprog : x.isProg = true) : x ∈ b := by
  have hmem : x ∈ b.filter Item.isProg := h.filter_isProg ▸ List.mem_filter.2 ⟨hx, hprog⟩
  exact List.mem_of_mem_filter hmem

/-- The instructions of the program in a block, and those that belong to none. -/
def outline (b : List Item) : List Item := b.filter fun item => item.isProg || item.site.isNone

theorem outline_append (x y : List Item) : outline (x ++ y) = outline x ++ outline y :=
  List.filter_append ..

theorem outline_items (l : List Added) : outline (items ci l) = [] := by
  rw [outline, List.filter_eq_nil_iff]
  intro x hx
  obtain ⟨a, -, rfl⟩ := List.mem_map.1 hx
  exact Bool.false_ne_true

/-- **What a block was made from** is its outline. -/
theorem Expands.outline_eq (h : Expands p b b') : outline b' = b := by
  induction h with
  | nil => rfl
  | other a rest ih => exact congrArg _ ih
  | @cons ci i b b' L made stores rest ih =>
    have hcons : outline (.prog ci i :: (items ci L.after ++ b')) =
        .prog ci i :: outline (items ci L.after ++ b') := rfl
    rw [outline_append, outline_items, List.nil_append, hcons, outline_append, outline_items,
      List.nil_append, ih]

/-- A block that was expanded is the expansion of its outline. -/
theorem Expands.self (h : Expands p b b') : Expands p (outline b') b' := by
  rwa [h.outline_eq]

theorem isProg_of_isPhi {x : Item} (h : isPhi x = true) : x.isProg = true := by
  cases x with
  | prog place i => rfl
  | added owner a => cases h

theorem before_of_isPhi (L : Layout p ci i) (h : i.isPhi = true) : items ci L.before = [] := by
  rw [Layout.before, (L.phi h).1, (L.phi h).2]
  rfl

theorem after_eq_nil (L : Layout p ci i) (h : i.isTerminator = true ∨ i.isPhi = true) :
    items ci L.after = [] := by
  obtain ⟨haux, hcalls, hpost⟩ := L.terminator h
  rw [Layout.after, haux, hcalls, hpost]
  rfl

theorem of_mem_items {l : List Added} {x : Item} (hx : x ∈ items ci l) :
    isPhi x = false ∧ x.isTerminator = false := by
  obtain ⟨a, -, rfl⟩ := List.mem_map.1 hx
  exact ⟨rfl, rfl⟩

/-- The order of phis, instructions and terminator is kept. -/
theorem Expands.order (h : Expands p b b')
    (horder : b.Pairwise fun x y => (isPhi y = true → isPhi x = true) ∧ x.isTerminator = false) :
    b'.Pairwise fun x y => (isPhi y = true → isPhi x = true) ∧ x.isTerminator = false := by
  induction h with
  | nil => exact .nil
  | @other b b' a rest ih =>
    rw [List.pairwise_cons] at horder
    refine List.pairwise_cons.2 ⟨fun y hy => ⟨fun hyphi => ?_, rfl⟩, ih horder.2⟩
    exact (horder.1 y (rest.mem_of_isProg hy (isProg_of_isPhi hyphi))).1 hyphi
  | @cons ci i b b' L made stores rest ih =>
    rw [List.pairwise_cons] at horder
    obtain ⟨hfirst, hrest⟩ := horder
    have hphi : ∀ y ∈ b', isPhi y = true → i.isPhi = true := fun y hy hyphi =>
      (hfirst y (rest.mem_of_isProg hy (isProg_of_isPhi hyphi))).1 hyphi
    have hadded : ∀ l : List Added, (items ci l).Pairwise fun x y =>
        (isPhi y = true → isPhi x = true) ∧ x.isTerminator = false := fun l =>
      List.pairwise_of_forall_mem_list fun x hx y hy =>
        ⟨fun h => absurd h (by rw [(of_mem_items hy).1]; decide), (of_mem_items hx).2⟩
    refine List.pairwise_append.2 ⟨hadded _, List.pairwise_cons.2 ⟨?_, List.pairwise_append.2
      ⟨hadded _, ih hrest, ?_⟩⟩, ?_⟩
    · -- the instruction itself and what follows
      intro y hy
      refine ⟨fun hyphi => ?_, ?_⟩
      · rcases List.mem_append.1 hy with hy | hy
        · rw [(of_mem_items hy).1] at hyphi
          cases hyphi
        · exact hphi y hy hyphi
      · by_contra hterm
        have hterm : i.isTerminator = true := Bool.eq_true_of_not_eq_false hterm
        rw [after_eq_nil L (Or.inl hterm), List.nil_append] at hy
        -- nothing comes after a terminator
        have hnil : b = [] := by
          cases b with
          | nil => rfl
          | cons x b =>
            have hfalse := (hfirst x List.mem_cons_self).2
            rw [show Item.isTerminator (.prog ci i) = true from hterm] at hfalse
            cases hfalse
        subst hnil
        cases rest
        cases hy
    · intro x hx y hy
      refine ⟨fun hyphi => ?_, (of_mem_items hx).2⟩
      rw [after_eq_nil L (Or.inr (hphi y hy hyphi))] at hx
      cases hx
    · intro x hx y hy
      refine ⟨fun hyphi => ?_, (of_mem_items hx).2⟩
      have hi : i.isPhi = true := by
        rcases List.mem_cons.1 hy with rfl | hy
        · exact hyphi
        · rcases List.mem_append.1 hy with hy | hy
          · rw [(of_mem_items hy).1] at hyphi
            cases hyphi
          · exact hphi y hy hyphi
      rw [before_of_isPhi L hi] at hx
      cases hx

theorem Expands.last (h : Expands p b b') (hlast : ∃ x ∈ b.getLast?, x.isTerminator = true) :
    ∃ x ∈ b'.getLast?, x.isTerminator = true := by
  induction h with
  | nil => exact hlast
  | @other b b' a rest ih =>
    cases b with
    | nil =>
      obtain ⟨x, hx, hterm⟩ := hlast
      cases hx
      cases hterm
    | cons y b =>
      rw [List.getLast?_cons_cons] at hlast
      obtain ⟨x, hx, hterm⟩ := ih hlast
      refine ⟨x, ?_, hterm⟩
      rw [Option.mem_def] at hx
      rw [List.getLast?_cons, hx]
      rfl
  | @cons ci i b b' L made stores rest ih =>
    cases b with
    | nil =>
      cases rest
      obtain ⟨x, hx, hterm⟩ := hlast
      cases hx
      refine ⟨.prog ci i, ?_, hterm⟩
      rw [after_eq_nil L (Or.inl hterm)]
      simp
    | cons y b =>
      rw [List.getLast?_cons_cons] at hlast
      obtain ⟨x, hx, hterm⟩ := ih hlast
      refine ⟨x, ?_, hterm⟩
      rw [List.getLast?_append, List.getLast?_cons, List.getLast?_append]
      rw [Option.mem_def] at hx
      rw [hx]
      rfl

/-- **A visited block keeps its form.** -/
theorem Expands.blockForm (h : Expands p b b') (hb : BlockForm b) : BlockForm b' :=
  ⟨h.order hb.order, h.last hb.last⟩

/-! ### Uses and definitions -/

section Dominated

variable {avail : Set Def} {P : IRValue → Prop} {owner : Option Nat}

/-- Added instructions that record nothing. -/
theorem dominated_aux (hP : ∀ v, P v → ∀ d ∈ v.needs, d ∈ avail) {aux : List Added}
    (haux : ∀ a ∈ aux, a.Aux P) : Dominated avail (aux.map (Item.added owner)) := by
  refine dominated_of_forall fun item hitem d hd => ?_
  obtain ⟨a, ha, rfl⟩ := List.mem_map.1 hitem
  have ha := haux a ha
  cases a with
  | locking | unlocking => cases hd
  | cast v type => exact hP v ha d hd
  | mul x y =>
    rcases List.mem_append.1 hd with hd | hd
    · exact hP x ha.1 d hd
    · exact hP y ha.2 d hd
  | record call => cases ha

/-- An operand of a call finds what it needs. -/
theorem operand_needs (hP : ∀ v, P v → ∀ d ∈ v.needs, d ∈ avail) {aux : List Added}
    (haux : ∀ a ∈ aux, ∀ d ∈ (Item.added owner a).gives, d ∈ avail) {o : Operand}
    (ho : o.From P aux) : ∀ d ∈ o.needs owner, d ∈ avail := by
  cases o with
  | value v => exact hP v ho
  | constExpr v type | int64 n => exact List.forall_mem_nil _
  | cast v type => exact haux _ ho
  | product x y => exact haux _ ho

/-- The calls of record functions. -/
theorem dominated_calls (hP : ∀ v, P v → ∀ d ∈ v.needs, d ∈ avail) {aux : List Added}
    (haux : ∀ a ∈ aux, ∀ d ∈ (Item.added owner a).gives, d ∈ avail) {calls : List RecordCall}
    (hcalls : ∀ c ∈ calls, ∀ o ∈ c.operands, o.From P aux) :
    Dominated avail ((calls.map Added.record).map (Item.added owner)) := by
  refine dominated_of_forall fun item hitem d hd => ?_
  rw [List.map_map] at hitem
  obtain ⟨c, hc, rfl⟩ := List.mem_map.1 hitem
  obtain ⟨o, ho, hd⟩ := List.mem_flatMap.1 hd
  exact operand_needs hP haux (hcalls c hc o ho) d hd

end Dominated

theorem needs_prog (h : i.isPhi = false) :
    (Item.prog ci i).needs = i.operands.flatMap IRValue.needs := by
  cases i with
  | phi operands => cases h
  | _ => rfl

/-- The instructions around a program instruction find what they need, and so does the rest. -/
theorem dominated_layout (L : Layout p ci i) {avail : Set Def} {rest : List Item}
    (hneeds : ∀ d ∈ (Item.prog ci i).needs, d ∈ avail)
    (hrest : Dominated (avail ∪ {d | d ∈ (Item.prog ci i).gives}) rest) :
    Dominated avail (items ci L.before ++ .prog ci i :: (items ci L.after ++ rest)) := by
  cases hphi : i.isPhi with
  | true =>
    rw [before_of_isPhi L hphi, after_eq_nil L (Or.inr hphi)]
    exact ⟨hneeds, hrest⟩
  | false =>
    rw [needs_prog hphi] at hneeds
    have hoperand : ∀ v, v ∈ i.operands → ∀ d ∈ v.needs, d ∈ avail := fun v hv d hd =>
      hneeds d (List.mem_flatMap.2 ⟨v, hv, hd⟩)
    have hvalue : ∀ v, v ∈ i.operands ∨ v.ref = .result ci → ∀ d ∈ v.needs,
        d ∈ avail ∪ {d | d ∈ (Item.prog ci i).gives} := by
      rintro v (hv | hv) d hd
      · exact Or.inl (hoperand v hv d hd)
      · rw [IRValue.needs, hv] at hd
        exact Or.inr hd
    rw [dominated_append]
    refine ⟨?_, ?_, ?_⟩
    · rw [Layout.before, items_append, dominated_append]
      refine ⟨dominated_aux hoperand L.aux_before, dominated_calls
        (fun v hv d hd => Or.inl (hoperand v hv d hd)) (fun a ha d hd => Or.inr ⟨_, ?_, hd⟩)
        fun c hc => (L.calls_before c hc).2.operands⟩
      exact List.mem_map_of_mem ha
    · rw [needs_prog hphi]
      exact fun d hd => Or.inl (hneeds d hd)
    · have hsub : ∀ {S : Set Def}, avail ∪ {d | d ∈ (Item.prog ci i).gives} ⊆
          avail ∪ S ∪ {d | d ∈ (Item.prog ci i).gives} := fun {S} =>
        Set.union_subset_union_left _ Set.subset_union_left
      rw [dominated_append, Layout.after, items_append, items_append, dominated_append,
        dominated_append]
      refine ⟨⟨⟨?_, ?_⟩, ?_⟩, hrest.mono (hsub.trans Set.subset_union_left)⟩
      · exact dominated_aux (fun v hv d hd => hsub (hvalue v hv d hd)) L.aux_after
      · refine dominated_calls (fun v hv d hd => Or.inl (hsub (hvalue v hv d hd))) ?_
          fun c hc => (L.calls_after c hc).2.operands
        intro a ha d hd
        rcases List.mem_append.1 ha with ha | ha
        · refine Or.inl (Or.inl (Or.inr ⟨_, ?_, hd⟩))
          rw [Layout.before, items_append]
          exact List.mem_append_left _ (List.mem_map_of_mem ha)
        · exact Or.inr ⟨_, List.mem_map_of_mem ha, hd⟩
      · refine dominated_aux (P := fun _ => False) (fun _ hv => hv.elim) fun a ha => ?_
        rw [L.post_unlocking a ha]
        trivial

/-- **In a visited block, every use still finds its definition.** -/
theorem Expands.dominated (h : Expands p b b') {avail : Set Def} (hb : Dominated avail b) :
    Dominated avail b' := by
  induction h generalizing avail with
  | nil => trivial
  | other a rest ih => exact ⟨hb.1, ih hb.2⟩
  | cons L made stores rest ih => exact dominated_layout L hb.1 (ih hb.2)

theorem Expands.subset (h : Expands p b b') : b ⊆ b' := by
  intro x hx
  rw [← h.outline_eq] at hx
  exact List.mem_of_mem_filter hx

end CiriTracerPass

end Durinn
