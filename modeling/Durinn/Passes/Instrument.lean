import Durinn.Lib.Runs
import Durinn.Passes.Expansion

/-!
# What the pass does to a module

After the visitors, the pass adds calls at the beginning of `main`, `api_begin` and `api_end`, and
at the beginning and the returns of the functions that model locks.

* `Func.WellFormed` — the blocks have their form, and every use has its definition, whichever way
  its block is reached; `wellFormed_of_grows` says when this is kept.
* `Expands.atFirstInsertionPt`, `Expands.beforeReturns` — the calls that belong to a function are
  not put between an instruction and its layout.
* `extends_atEntry`, `extends_modelLock` — what they do to the function.
* `runOnModule_erase` — the program stays as it is.
* `runOnModule_layout` — what is recorded for an instruction.
* `runOnModule_wellFormed` — the module stays well formed.
-/

namespace Durinn

open ListEdit PyText

/-! ## Functions -/

/-- The blocks that an instruction may jump to. -/
def Item.succs : Item → List Nat
  | .prog _ (.br _ succs) | .prog _ (.invoke _ _ succs) | .prog _ (.terminator _ succs) => succs
  | _ => []

/-- What the instructions of a block make. -/
def gives (b : List Item) : Set Def := {d | ∃ item ∈ b, d ∈ item.gives}

namespace Func

/-- What is there when the function is called. -/
def given (f : Func) : Set Def := {d | ∃ v ∈ f.args, d ∈ v.needs}

/-- In every block there is what its instructions need, whichever way it is reached: of what is
there at the beginning of a block, each block that jumps to it has all, and the first block has the
arguments. -/
def WellDefined (f : Func) : Prop :=
  ∃ avail : Nat → Set Def, avail 0 = f.given ∧ ∀ k b, f.blocks[k]? = some b →
    Dominated (avail k) b ∧ ∀ item ∈ b, ∀ s ∈ item.succs, avail s ⊆ avail k ∪ gives b

/-- The blocks have their form, and every use has its definition. -/
structure WellFormed (f : Func) : Prop where
  form : ∀ b ∈ f.blocks, BlockForm b
  defined : f.WellDefined

/-- The function is as it was before the pass. -/
def Source (f : Func) : Prop := ∀ b ∈ f.blocks, SourceBlock b

instance (f : Func) : Decidable f.Source := inferInstanceAs (Decidable (∀ b ∈ f.blocks, _))

/-- The function without what the pass added. -/
def erase (f : Func) : Func := { f with blocks := f.blocks.map (·.filter Item.isProg) }

end Func

/-- The calls that belong to a function as a whole. -/
def RecordCall.ofFunction : RecordCall → Bool
  | .init _ | .apiBegin _ | .apiEnd _ | .lockBegin _ _ | .lockEnd _ _ | .unlockBegin _ _
  | .unlockEnd _ _ => true
  | _ => false

/-- The instructions of a block have their layouts around them, and what belongs to none records the
beginning or the end of a function. -/
structure CiriTracerPass.Instrumented (p : CiriTracerPass) (b : List Item) : Prop where
  expands : p.Expands (CiriTracerPass.outline b) b
  calls : ∀ c, .added none (.record c) ∈ b → c.ofFunction = true

namespace Func

/-- `f'` is `f` with more instructions, which belong to the function as a whole. -/
structure Extends (p : CiriTracerPass) (f f' : Func) : Prop where
  name : f'.name = f.name
  args : f'.args = f.args
  prog : f'.blocks.map (·.filter Item.isProg) = f.blocks.map (·.filter Item.isProg)
  blocks : (∀ b ∈ f.blocks, p.Instrumented b) → ∀ b ∈ f'.blocks, p.Instrumented b
  wellFormed : f.WellFormed → f'.WellFormed

namespace Extends

variable {p : CiriTracerPass} {f f' f'' : Func}

theorem refl (f : Func) : f.Extends p f := ⟨rfl, rfl, rfl, id, id⟩

theorem trans (h : f.Extends p f') (h' : f'.Extends p f'') : f.Extends p f'' :=
  ⟨h'.name.trans h.name, h'.args.trans h.args, h'.prog.trans h.prog, h'.blocks ∘ h.blocks,
    h'.wellFormed ∘ h.wellFormed⟩

end Extends

end Func

/-- A block grows: it keeps its form, and jumps to nowhere new. -/
structure Grows (b b' : List Item) : Prop where
  subset : b ⊆ b'
  form : BlockForm b → BlockForm b'
  succs : ∀ item ∈ b', ∀ s ∈ item.succs, item ∈ b

theorem Grows.trans {b b' b'' : List Item} (h : Grows b b') (h' : Grows b' b'') : Grows b b'' :=
  ⟨fun _ hx => h'.subset (h.subset hx), h'.form ∘ h.form, fun item hitem s hs =>
    h.succs item (h'.succs item hitem s hs) s hs⟩

/-- A function whose blocks grow stays well formed, if the new instructions find what they need:
those of the first block there or among the arguments, those of the others also among what the
first block makes in addition. -/
theorem wellFormed_of_grows {f : Func} {blocks : List (List Item)} (more : Set Def)
    (hgrows : List.Forall₂ Grows f.blocks blocks)
    (hmore : ∀ entry, blocks[0]? = some entry → more ⊆ gives entry)
    (hentry : ∀ b b', f.blocks[0]? = some b → blocks[0]? = some b' → Dominated f.given b →
      Dominated f.given b')
    (hrest : ∀ k b b', f.blocks[k + 1]? = some b → blocks[k + 1]? = some b' → ∀ avail,
      f.given ∪ more ⊆ avail → Dominated avail b → Dominated avail b')
    (hf : f.WellFormed) : Func.WellFormed { f with blocks } := by
  obtain ⟨hform, avail, hgiven, havail⟩ := hf
  have hget : ∀ {k : Nat} {b' : List Item}, blocks[k]? = some b' → ∃ b, f.blocks[k]? = some b ∧
      Grows b b' := by
    intro k b' hb'
    obtain ⟨hlen, hall⟩ := List.forall₂_iff_get.1 hgrows
    obtain ⟨hk, rfl⟩ := List.getElem?_eq_some_iff.1 hb'
    exact ⟨_, List.getElem?_eq_getElem (hlen ▸ hk), hall k (hlen ▸ hk) hk⟩
  refine ⟨fun b' hb' => ?_, fun k => if k = 0 then f.given else avail k ∪ (f.given ∪ more),
    if_pos rfl, fun k b' hb' => ?_⟩
  · obtain ⟨k, hk⟩ := List.getElem?_of_mem hb'
    obtain ⟨b, hb, hgrow⟩ := hget hk
    exact hgrow.form (hform b (List.mem_of_getElem? hb))
  · obtain ⟨b, hb, hgrow⟩ := hget hb'
    obtain ⟨hdom, hsuccs⟩ := havail k b hb
    have hgives : gives b ⊆ gives b' := fun d hd => by
      obtain ⟨item, hitem, hd⟩ := hd
      exact ⟨item, hgrow.subset hitem, hd⟩
    refine ⟨?_, fun item hitem s hs => ?_⟩
    · cases k with
      | zero => exact hentry b b' hb hb' (hgiven ▸ hdom)
      | succ k =>
        exact hrest k b b' hb hb' _ Set.subset_union_right (hdom.mono Set.subset_union_left)
    · have hedge := hsuccs item (hgrow.succs item hitem s hs) s hs
      show (if s = 0 then _ else _) ⊆ (if k = 0 then _ else _) ∪ gives b'
      cases k with
      | zero =>
        rw [if_pos rfl]
        rw [hgiven] at hedge
        split
        · exact Set.subset_union_left
        · refine Set.union_subset (hedge.trans (Set.union_subset_union_right _ hgives))
            (Set.union_subset_union_right _ (hmore b' hb'))
      | succ k =>
        rw [if_neg (Nat.succ_ne_zero k)]
        split
        · exact fun d hd => Or.inl (Or.inr (Or.inl hd))
        · refine Set.union_subset (fun d hd => ?_) fun d hd => Or.inl (Or.inr hd)
          rcases hedge hd with hd | hd
          · exact Or.inl (Or.inl hd)
          · exact Or.inr (hgives hd)

namespace CiriTracerPass

variable {p : CiriTracerPass} {b : List Item} {new : List Added} {recEnd : Added} {f f' : Func}

/-! ### Insertions -/

theorem isPhi_of_isTerminator {x : Item} (h : x.isTerminator = true) : isPhi x = false := by
  cases x with
  | prog place i => cases i <;> first | rfl | cases h
  | added owner a => rfl

theorem mem_added_none {l : List Added} {x : Item} (hx : x ∈ l.map (Item.added none)) :
    isPhi x = false ∧ x.isTerminator = false := by
  obtain ⟨a, -, rfl⟩ := List.mem_map.1 hx
  exact ⟨rfl, rfl⟩

theorem filter_atFirstInsertionPt (new : List Added) (b : List Item) :
    (atFirstInsertionPt new b).filter Item.isProg = b.filter Item.isProg := by
  have hnew : (new.map (Item.added none)).filter Item.isProg = [] := by
    rw [List.filter_eq_nil_iff]
    intro x hx
    obtain ⟨a, -, rfl⟩ := List.mem_map.1 hx
    exact Bool.false_ne_true
  rw [atFirstInsertionPt, List.filter_append, List.filter_append, hnew, List.append_nil,
    ← List.filter_append, List.takeWhile_append_dropWhile]

theorem mem_atFirstInsertionPt {x : Item} (hx : x ∈ atFirstInsertionPt new b) :
    x ∈ new.map (Item.added none) ∨ x ∈ b := by
  rw [atFirstInsertionPt, List.mem_append, List.mem_append] at hx
  rcases hx with (hx | hx) | hx
  · exact Or.inr ((List.takeWhile_sublist _).subset hx)
  · exact Or.inl hx
  · exact Or.inr ((List.dropWhile_sublist _).subset hx)

theorem subset_atFirstInsertionPt (new : List Added) (b : List Item) :
    b ⊆ atFirstInsertionPt new b := by
  intro x hx
  rw [← List.takeWhile_append_dropWhile (p := isPhi) (l := b), List.mem_append] at hx
  rw [atFirstInsertionPt, List.mem_append, List.mem_append]
  exact hx.imp_left Or.inl

/-- What comes after the first instruction that is no phi is none either. -/
theorem isPhi_of_mem_dropWhile (hb : BlockForm b) {x : Item} (hx : x ∈ b.dropWhile isPhi) :
    isPhi x = false := by
  cases hdrop : b.dropWhile isPhi with
  | nil =>
    rw [hdrop] at hx
    cases hx
  | cons y rest =>
    have hy : isPhi y = false := by
      have hhead := List.head_dropWhile_not isPhi (l := b) (by simp [hdrop])
      simpa [hdrop] using hhead
    have hsub : (y :: rest).Pairwise fun x y => (isPhi y = true → isPhi x = true) ∧
        x.isTerminator = false := hdrop ▸ hb.order.sublist (List.dropWhile_sublist _)
    rw [hdrop] at hx
    rcases List.mem_cons.1 hx with rfl | hx
    · exact hy
    · rw [← Bool.not_eq_true]
      intro hphi
      rw [((List.pairwise_cons.1 hsub).1 x hx).1 hphi] at hy
      cases hy

theorem blockForm_atFirstInsertionPt (hb : BlockForm b) (new : List Added) :
    BlockForm (atFirstInsertionPt new b) := by
  have horder := hb.order
  rw [← List.takeWhile_append_dropWhile (p := isPhi) (l := b), List.pairwise_append] at horder
  obtain ⟨htake, hdrop, hcross⟩ := horder
  have hphi : ∀ x ∈ b.takeWhile isPhi, isPhi x = true ∧ x.isTerminator = false := by
    intro x hx
    have hxphi := List.mem_takeWhile_imp hx
    refine ⟨hxphi, ?_⟩
    rw [← Bool.not_eq_true]
    intro hterm
    rw [isPhi_of_isTerminator hterm] at hxphi
    cases hxphi
  refine ⟨List.pairwise_append.2 ⟨List.pairwise_append.2 ⟨htake, ?_, ?_⟩, hdrop, ?_⟩, ?_⟩
  · exact List.pairwise_of_forall_mem_list fun x hx y hy =>
      ⟨fun h => absurd h (by rw [(mem_added_none hy).1]; decide), (mem_added_none hx).2⟩
  · exact fun x hx y _ => ⟨fun _ => (hphi x hx).1, (hphi x hx).2⟩
  · intro x hx y hy
    rcases List.mem_append.1 hx with hx | hx
    · exact hcross x hx y hy
    · exact ⟨fun h => absurd h (by rw [isPhi_of_mem_dropWhile hb hy]; decide),
        (mem_added_none hx).2⟩
  · obtain ⟨x, hx, hterm⟩ := hb.last
    refine ⟨x, ?_, hterm⟩
    -- the terminator is no phi, so it is in the second part
    rw [Option.mem_def] at hx ⊢
    have hne : b.dropWhile isPhi ≠ [] := by
      rw [Ne, List.dropWhile_eq_nil_iff]
      intro hall
      have hxphi := hall x (List.mem_of_getLast? hx)
      rw [isPhi_of_isTerminator hterm] at hxphi
      cases hxphi
    rw [← List.takeWhile_append_dropWhile (p := isPhi) (l := b),
      List.getLast?_append_of_ne_nil _ hne] at hx
    rw [atFirstInsertionPt, List.getLast?_append_of_ne_nil _ hne, hx]

theorem dominated_atFirstInsertionPt {avail : Set Def} (hb : Dominated avail b)
    (hnew : Dominated avail (new.map (Item.added none))) :
    Dominated avail (atFirstInsertionPt new b) := by
  rw [← List.takeWhile_append_dropWhile (p := isPhi) (l := b), dominated_append] at hb
  rw [atFirstInsertionPt, dominated_append, dominated_append]
  refine ⟨⟨hb.1, hnew.mono Set.subset_union_left⟩, hb.2.mono ?_⟩
  refine Set.union_subset_union_right _ ?_
  rintro d ⟨item, hitem, hd⟩
  exact ⟨item, List.mem_append_left _ hitem, hd⟩

/-- An instruction before which something is inserted is a return. -/
theorem beforeReturns_cons (recEnd : Added) (x : Item) (b : List Item) :
    (beforeReturns recEnd (x :: b) = x :: beforeReturns recEnd b) ∨
      x.isTerminator = true ∧
        beforeReturns recEnd (x :: b) = .added none recEnd :: x :: beforeReturns recEnd b := by
  cases x with
  | added owner a => exact Or.inl rfl
  | prog place i => cases i <;> first | exact Or.inl rfl | exact Or.inr ⟨rfl, rfl⟩

theorem filter_beforeReturns (recEnd : Added) (b : List Item) :
    (beforeReturns recEnd b).filter Item.isProg = b.filter Item.isProg := by
  induction b with
  | nil => rfl
  | cons x b ih =>
    have hcons : (x :: beforeReturns recEnd b).filter Item.isProg =
        (x :: b).filter Item.isProg := by
      rw [List.filter_cons, List.filter_cons, ih]
    rcases beforeReturns_cons recEnd x b with h | ⟨-, h⟩
    · rw [h, hcons]
    · rw [h, ← hcons]
      exact List.filter_cons_of_neg Bool.false_ne_true

theorem mem_beforeReturns {x : Item} (hx : x ∈ beforeReturns recEnd b) :
    x = .added none recEnd ∨ x ∈ b := by
  induction b with
  | nil => cases hx
  | cons y b ih =>
    rcases beforeReturns_cons recEnd y b with h | ⟨-, h⟩ <;> rw [h] at hx <;>
      simp only [List.mem_cons] at hx ⊢ <;> tauto

theorem subset_beforeReturns (recEnd : Added) (b : List Item) : b ⊆ beforeReturns recEnd b := by
  induction b with
  | nil => exact fun _ h => h
  | cons y b ih =>
    intro x hx
    rcases beforeReturns_cons recEnd y b with h | ⟨-, h⟩ <;> rw [h] <;>
      rcases List.mem_cons.1 hx with rfl | hx
    · exact List.mem_cons_self
    · exact List.mem_cons_of_mem _ (ih hx)
    · exact List.mem_cons_of_mem _ List.mem_cons_self
    · exact List.mem_cons_of_mem _ (List.mem_cons_of_mem _ (ih hx))

theorem order_beforeReturns
    (hb : b.Pairwise fun x y => (isPhi y = true → isPhi x = true) ∧ x.isTerminator = false) :
    (beforeReturns recEnd b).Pairwise fun x y =>
      (isPhi y = true → isPhi x = true) ∧ x.isTerminator = false := by
  induction b with
  | nil => exact .nil
  | cons x b ih =>
    rw [List.pairwise_cons] at hb
    have hx : ∀ y ∈ beforeReturns recEnd b, isPhi y = true →
        isPhi x = true ∧ x.isTerminator = false := by
      intro y hy hphi
      rcases mem_beforeReturns hy with rfl | hy
      · cases hphi
      · exact ⟨(hb.1 y hy).1 hphi, (hb.1 y hy).2⟩
    rcases beforeReturns_cons recEnd x b with h | ⟨hterm, h⟩
    · rw [h, List.pairwise_cons]
      refine ⟨fun y hy => ⟨fun hphi => (hx y hy hphi).1, ?_⟩, ih hb.2⟩
      cases b with
      | nil => cases hy
      | cons z b => exact (hb.1 z List.mem_cons_self).2
    · -- nothing comes after a return
      have hnil : b = [] := by
        cases b with
        | nil => rfl
        | cons z b =>
          have hfalse := (hb.1 z List.mem_cons_self).2
          rw [hterm] at hfalse
          cases hfalse
      subst hnil
      rw [h]
      refine List.pairwise_cons.2 ⟨fun y hy => ⟨fun hphi => ?_, rfl⟩, List.pairwise_singleton _ _⟩
      rw [List.mem_singleton.1 hy, isPhi_of_isTerminator hterm] at hphi
      cases hphi

theorem getLast?_beforeReturns (recEnd : Added) (b : List Item) :
    (beforeReturns recEnd b).getLast? = b.getLast? := by
  induction b with
  | nil => rfl
  | cons x b ih =>
    have hcons : (x :: beforeReturns recEnd b).getLast? = (x :: b).getLast? := by
      rw [List.getLast?_cons, List.getLast?_cons, ih]
    rcases beforeReturns_cons recEnd x b with h | ⟨-, h⟩
    · rw [h, hcons]
    · rw [h, List.getLast?_cons_cons, hcons]

theorem blockForm_beforeReturns (hb : BlockForm b) (recEnd : Added) :
    BlockForm (beforeReturns recEnd b) :=
  ⟨order_beforeReturns hb.order, by rw [getLast?_beforeReturns]; exact hb.last⟩

theorem dominated_beforeReturns {avail : Set Def} (hb : Dominated avail b)
    (hrec : ∀ d ∈ (Item.added none recEnd).needs, d ∈ avail) :
    Dominated avail (beforeReturns recEnd b) := by
  induction b generalizing avail with
  | nil => trivial
  | cons x b ih =>
    have hrest := ih hb.2 fun d hd => Or.inl (hrec d hd)
    rcases beforeReturns_cons recEnd x b with h | ⟨-, h⟩
    · rw [h]
      exact ⟨hb.1, hrest⟩
    · rw [h]
      exact ⟨hrec, fun d hd => Or.inl (hb.1 d hd),
        hrest.mono (Set.union_subset_union_left _ Set.subset_union_left)⟩

theorem beforeReturns_of_forall {l : List Item} (h : ∀ x ∈ l, x.isTerminator = false) :
    beforeReturns recEnd l = l := by
  induction l with
  | nil => rfl
  | cons x l ih =>
    rw [List.forall_mem_cons] at h
    rcases beforeReturns_cons recEnd x l with hcons | ⟨hterm, -⟩
    · rw [hcons, ih h.2]
    · rw [h.1] at hterm
      cases hterm

/-- In the first block, the returns come after what was inserted. -/
theorem dominated_beforeReturns_atFirst {avail : Set Def}
    (hb : Dominated avail (atFirstInsertionPt new b))
    (hrec : ∀ d ∈ (Item.added none recEnd).needs, d ∈ avail ∪ gives (new.map (Item.added none))) :
    Dominated avail (beforeReturns recEnd (atFirstInsertionPt new b)) := by
  have hfirst : beforeReturns recEnd (b.takeWhile isPhi ++ new.map (Item.added none)) =
      b.takeWhile isPhi ++ new.map (Item.added none) := by
    refine beforeReturns_of_forall fun x hx => ?_
    rcases List.mem_append.1 hx with hx | hx
    · rw [← Bool.not_eq_true]
      intro hterm
      have hphi := List.mem_takeWhile_imp hx
      rw [isPhi_of_isTerminator hterm] at hphi
      cases hphi
    · exact (mem_added_none hx).2
  rw [atFirstInsertionPt, dominated_append] at hb
  rw [beforeReturns, atFirstInsertionPt, List.flatMap_append, ← beforeReturns,
    ← beforeReturns, hfirst, dominated_append]
  refine ⟨hb.1, dominated_beforeReturns hb.2 fun d hd => (hrec d hd).imp_right ?_⟩
  rintro ⟨item, hitem, hd⟩
  exact ⟨item, List.mem_append_right _ hitem, hd⟩

theorem grows_atFirstInsertionPt (new : List Added) (b : List Item) :
    Grows b (atFirstInsertionPt new b) := by
  refine ⟨subset_atFirstInsertionPt new b, fun hb => blockForm_atFirstInsertionPt hb new,
    fun item hitem s hs => ?_⟩
  rcases mem_atFirstInsertionPt hitem with hitem | hitem
  · obtain ⟨a, -, rfl⟩ := List.mem_map.1 hitem
    cases hs
  · exact hitem

theorem grows_beforeReturns (recEnd : Added) (b : List Item) :
    Grows b (beforeReturns recEnd b) := by
  refine ⟨subset_beforeReturns recEnd b, fun hb => blockForm_beforeReturns hb recEnd,
    fun item hitem s hs => ?_⟩
  rcases mem_beforeReturns hitem with rfl | hitem
  · cases hs
  · exact hitem

/-! ### Insertions and layouts -/

theorem atFirstInsertionPt_of_head (h : ∀ x ∈ b.head?, isPhi x = false) :
    atFirstInsertionPt new b = new.map (Item.added none) ++ b := by
  cases b with
  | nil => rfl
  | cons x b =>
    have hx : isPhi x = false := h x rfl
    simp [atFirstInsertionPt, hx]

theorem atFirstInsertionPt_of_phi {x : Item} (h : isPhi x = true) :
    atFirstInsertionPt new (x :: b) = x :: atFirstInsertionPt new b := by
  simp [atFirstInsertionPt, h]

theorem Expands.others {b b' : List Item} (h : Expands p b b') (new : List Added) :
    Expands p (new.map (Item.added none) ++ b) (new.map (Item.added none) ++ b') := by
  induction new with
  | nil => exact h
  | cons a new ih => exact .other a ih

/-- **At the first insertion point** there is no layout: phis have none. -/
theorem Expands.atFirstInsertionPt {b b' : List Item} (h : Expands p b b') (new : List Added) :
    Expands p (atFirstInsertionPt new b) (atFirstInsertionPt new b') := by
  induction h with
  | nil => exact Expands.nil.others new
  | other a rest ih =>
    rw [atFirstInsertionPt_of_head (by simp [isPhi]), atFirstInsertionPt_of_head (by simp [isPhi])]
    exact (rest.other a).others new
  | @cons ci i b b' L made stores rest ih =>
    cases hphi : i.isPhi with
    | true =>
      have hcons := Expands.cons L made stores ih
      rw [before_of_isPhi L hphi, after_eq_nil L (Or.inr hphi)] at hcons ⊢
      have hitem : isPhi (.prog ci i) = true := hphi
      rw [atFirstInsertionPt_of_phi hitem, List.nil_append, List.nil_append,
        atFirstInsertionPt_of_phi hitem]
      exact hcons
    | false =>
      have hitem : isPhi (.prog ci i) = false := hphi
      have hhead : ∀ x ∈ (items ci L.before ++ .prog ci i :: (items ci L.after ++ b')).head?,
          isPhi x = false := by
        cases L.before with
        | nil => simpa [items] using hitem
        | cons a l => simp [items, isPhi]
      rw [atFirstInsertionPt_of_head (by simpa using hitem), atFirstInsertionPt_of_head hhead]
      exact (Expands.cons L made stores rest).others new

theorem beforeReturns_append (x y : List Item) :
    beforeReturns recEnd (x ++ y) = beforeReturns recEnd x ++ beforeReturns recEnd y :=
  List.flatMap_append ..

theorem beforeReturns_cons_eq (x : Item) (b : List Item) :
    beforeReturns recEnd (x :: b) = beforeReturns recEnd [x] ++ beforeReturns recEnd b :=
  beforeReturns_append [x] b

theorem beforeReturns_items (ci : Nat) (l : List Added) :
    beforeReturns recEnd (items ci l) = items ci l :=
  beforeReturns_of_forall fun _ hx => (of_mem_items hx).2

/-- **At the returns** there is none either. -/
theorem Expands.beforeReturns {b b' : List Item} (h : Expands p b b') (recEnd : Added) :
    Expands p (beforeReturns recEnd b) (beforeReturns recEnd b') := by
  induction h with
  | nil => exact .nil
  | other a rest ih => exact ih.other a
  | @cons ci i b b' L made stores rest ih =>
    have hcons := Expands.cons L made stores ih
    rw [beforeReturns_append, beforeReturns_items, beforeReturns_cons_eq _ b,
      beforeReturns_cons_eq _ (_ ++ b'), beforeReturns_append, beforeReturns_items]
    by_cases hret : ∃ v, i = .ret v
    · obtain ⟨v, rfl⟩ := hret
      obtain ⟨hbefore, hafter⟩ := made_nil made rfl
      rw [hbefore, hafter] at hcons ⊢
      exact hcons.other recEnd
    · have hsame : CiriTracerPass.beforeReturns recEnd [.prog ci i] = [.prog ci i] := by
        cases i with
        | ret v => exact absurd ⟨v, rfl⟩ hret
        | _ => rfl
      rw [hsame]
      exact hcons

theorem Instrumented.atFirstInsertionPt (h : Instrumented p b)
    (hnew : ∀ c, .record c ∈ new → c.ofFunction = true) :
    Instrumented p (atFirstInsertionPt new b) := by
  refine ⟨(h.expands.atFirstInsertionPt new).self, fun c hc => ?_⟩
  rcases mem_atFirstInsertionPt hc with hc | hc
  · exact hnew c (by simpa using hc)
  · exact h.calls c hc

theorem Instrumented.beforeReturns (h : Instrumented p b) {c : RecordCall}
    (hc : c.ofFunction = true) : Instrumented p (beforeReturns (.record c) b) := by
  refine ⟨(h.expands.beforeReturns _).self, fun c' hc' => ?_⟩
  rcases mem_beforeReturns hc' with heq | hc'
  · cases heq
    exact hc
  · exact h.calls c' hc'

/-! ### The calls at the beginning and at the returns -/

/-- A call without operands, at the beginning. -/
theorem extends_atEntry {c : RecordCall} (hc : c.operands = []) (hfunction : c.ofFunction = true)
    (h : atEntry [.record c] f = some f') : f.Extends p f' := by
  unfold atEntry at h
  cases hblocks : f.blocks with
  | nil =>
    rw [hblocks] at h
    cases h
  | cons entry blocks =>
    rw [hblocks] at h
    cases h
    refine ⟨rfl, rfl, ?_, ?_, wellFormed_of_grows ∅ ?_ (by simp) ?_ ?_⟩
    · rw [hblocks, List.map_cons, List.map_cons, filter_atFirstInsertionPt]
    · rw [hblocks, List.forall_mem_cons, List.forall_mem_cons]
      exact And.imp_left fun hentry => hentry.atFirstInsertionPt (by simpa using hfunction)
    · rw [hblocks]
      exact .cons (grows_atFirstInsertionPt _ _)
        (List.forall₂_same.2 fun b _ => ⟨fun _ h => h, id, fun _ h _ _ => h⟩)
    · intro b b' hb hb' hdom
      rw [hblocks] at hb
      cases hb
      cases hb'
      refine dominated_atFirstInsertionPt hdom (dominated_of_forall ?_)
      rw [List.map_singleton, List.forall_mem_singleton, Item.needs, hc]
      exact List.forall_mem_nil _
    · intro k b b' hb hb' avail _ hdom
      rw [hblocks] at hb
      cases hb.symm.trans hb'
      exact hdom

/-- **The modelling of a lock**: the pointer is cast at the beginning, and the cast is there at
every return. -/
theorem extends_modelLock {begins ends : UInt32 → Operand → RecordCall}
    (hbegins : ∀ id o, (begins id o).operands = [o] ∧ (begins id o).ofFunction = true)
    (hends : ∀ id o, (ends id o).operands = [o] ∧ (ends id o).ofFunction = true)
    (h : modelLock begins ends f = some f') : f.Extends p f' := by
  simp only [modelLock, atEntry, Option.bind_eq_bind, Option.bind_eq_some_iff, Option.pure_def,
    Option.some.injEq] at h
  obtain ⟨pointer, hpointer, f₁, hf₁, rfl⟩ := h
  cases hblocks : f.blocks with
  | nil =>
    rw [hblocks] at hf₁
    cases hf₁
  | cons entry blocks =>
    rw [hblocks] at hf₁
    cases hf₁
    have hgiven : ∀ v, v = pointer → ∀ d ∈ v.needs, d ∈ f.given := by
      rintro v rfl d hd
      exact ⟨v, List.mem_of_head? hpointer, hd⟩
    have hfrom : (castTo pointer .voidPtr).From (· = pointer) (castInsts pointer .voidPtr) :=
      castTo_from (P := (· = pointer)) rfl fun _ ha => ha
    -- what is recorded at the returns
    have hends' : ∀ avail : Set Def, f.given ⊆ avail →
        gives ((castInsts pointer .voidPtr).map (Item.added none)) ⊆ avail →
        ∀ d ∈ (Item.added none (.record (ends noID (castTo pointer .voidPtr)))).needs,
          d ∈ avail := by
      intro avail hsub hcasts
      rw [Item.needs, (hends _ _).1, List.flatMap_singleton]
      exact operand_needs (fun v hv d hd => hsub (hgiven v hv d hd))
        (fun a ha d hd => hcasts ⟨_, List.mem_map_of_mem ha, hd⟩) hfrom
    refine ⟨rfl, rfl, ?_, ?_, wellFormed_of_grows
      (gives ((castInsts pointer .voidPtr).map (Item.added none))) ?_ ?_ ?_ ?_⟩
    · rw [hblocks]
      simp only [List.map_cons, List.map_map, filter_beforeReturns, filter_atFirstInsertionPt,
        Function.comp_def]
    · rw [hblocks]
      intro hall
      rw [List.forall_mem_cons] at hall
      refine List.forall_mem_map.2 (List.forall_mem_cons.2 ⟨?_, fun b hb => ?_⟩)
      · refine (hall.1.atFirstInsertionPt fun c hc => ?_).beforeReturns (hends _ _).2
        rcases List.mem_append.1 hc with hc | hc
        · obtain ⟨v, ty, heq, -⟩ := castInsts_cast (P := fun _ => True) trivial .voidPtr _ hc
          cases heq
        · cases List.mem_singleton.1 hc
          exact (hbegins _ _).2
      · exact (hall.2 b hb).beforeReturns (hends _ _).2
    · rw [hblocks]
      refine .cons ((grows_atFirstInsertionPt _ _).trans (grows_beforeReturns _ _)) ?_
      rw [List.forall₂_map_right_iff]
      exact List.forall₂_same.2 fun b _ => grows_beforeReturns _ b
    · intro entry' hentry'
      cases hentry'
      rintro d ⟨item, hitem, hd⟩
      refine ⟨item, subset_beforeReturns _ _ ?_, hd⟩
      rw [atFirstInsertionPt, List.map_append]
      exact List.mem_append_left _ (List.mem_append_right _ (List.mem_append_left _ hitem))
    · intro b b' hb hb' hdom
      rw [hblocks] at hb
      cases hb
      cases hb'
      refine dominated_beforeReturns_atFirst (dominated_atFirstInsertionPt hdom ?_) ?_
      · rw [List.map_append, dominated_append]
        refine ⟨dominated_aux hgiven fun a ha => ?_, ?_⟩
        · obtain ⟨v, ty, rfl, hv⟩ := castInsts_cast (P := (· = pointer)) rfl .voidPtr a ha
          exact hv
        · refine dominated_of_forall ?_
          rw [List.map_singleton, List.forall_mem_singleton, Item.needs, (hbegins _ _).1,
            List.flatMap_singleton]
          exact operand_needs (fun v hv d hd => Or.inl (hgiven v hv d hd))
            (fun a ha d hd => Or.inr ⟨_, List.mem_map_of_mem ha, hd⟩) hfrom
      · refine hends' _ Set.subset_union_left fun d hd => Or.inr ?_
        obtain ⟨item, hitem, hd⟩ := hd
        exact ⟨item, by rw [List.map_append]; exact List.mem_append_left _ hitem, hd⟩
    · intro k b b' hb hb' avail havail hdom
      rw [hblocks] at hb
      rw [List.map_cons, List.getElem?_cons_succ, List.getElem?_map] at hb'
      rw [List.getElem?_cons_succ] at hb
      rw [hb] at hb'
      cases hb'
      exact dominated_beforeReturns hdom (hends' avail (Set.subset_union_left.trans havail)
        (Set.subset_union_right.trans havail))

/-! ### The visit -/

theorem Expands.grows {b b' : List Item} (h : Expands p b b') : Grows b b' := by
  refine ⟨h.subset, h.blockForm, fun item hitem s hs => h.mem_of_isProg hitem ?_⟩
  cases item with
  | prog place i => rfl
  | added owner a => cases hs

theorem Expands.instrumented {b b' : List Item} (hb : SourceBlock b) (h : Expands p b b') :
    b'.filter Item.isProg = b ∧ Instrumented p b' := by
  refine ⟨h.filter_isProg.trans (List.filter_eq_self.2 hb.prog), h.self, fun c hc => ?_⟩
  have hmem : Item.added none (.record c) ∈ outline b' := List.mem_filter.2 ⟨hc, rfl⟩
  rw [h.outline_eq] at hmem
  cases hb.prog _ hmem

/-- **The visit of a function.** -/
theorem expands_visitFunc (hf : f.Source) (h : p.visitFunc f = some f') :
    f'.name = f.name ∧ f'.args = f.args ∧ List.Forall₂ (Expands p) f.blocks f'.blocks ∧
      (f.WellFormed → f'.WellFormed) := by
  obtain ⟨blocks, hblocks, rfl⟩ := Option.map_eq_some_iff.1 h
  have hexpands : List.Forall₂ (Expands p) f.blocks blocks :=
    ((List.forall₂_and_left _ _).2 ⟨hf, Runs.mapM_eq_some_iff.1 hblocks⟩).imp fun _ _ h =>
      expands_visitBlock h.1 h.2
  have hdom : ∀ {k : Nat} {b b' : List Item}, f.blocks[k]? = some b → blocks[k]? = some b' →
      Expands p b b' := by
    intro k b b' hb hb'
    obtain ⟨hk, rfl⟩ := List.getElem?_eq_some_iff.1 hb
    obtain ⟨hk', rfl⟩ := List.getElem?_eq_some_iff.1 hb'
    exact hexpands.get hk hk'
  exact ⟨rfl, rfl, hexpands, wellFormed_of_grows ∅ (hexpands.imp fun _ _ h => h.grows) (by simp)
    (fun b b' hb hb' => (hdom hb hb').dominated) fun k b b' hb hb' _ _ => (hdom hb hb').dominated⟩

/-! ## Modules -/

section Modules

variable {m m' : List Func}

theorem extends_modifyFunction {k : Nat} {g : Func → Option Func}
    (hg : ∀ f f', g f = some f' → f.Extends p f') (h : modifyFunction m k g = some m') :
    List.Forall₂ (Func.Extends p) m m' := by
  simp only [modifyFunction, Option.bind_eq_bind, Option.bind_eq_some_iff, Option.pure_def,
    Option.some.injEq] at h
  obtain ⟨f, hf, f', hf', rfl⟩ := h
  obtain ⟨hk, rfl⟩ := List.getElem?_eq_some_iff.1 hf
  refine List.forall₂_of_length_eq_of_get (List.length_set).symm fun j hj hj' => ?_
  rw [List.get_eq_getElem, List.get_eq_getElem, List.getElem_set]
  split
  · next heq =>
    subst heq
    exact hg _ _ hf'
  · exact .refl _

theorem forall₂_extends_trans {m'' : List Func} (h : List.Forall₂ (Func.Extends p) m m')
    (h' : List.Forall₂ (Func.Extends p) m' m'') : List.Forall₂ (Func.Extends p) m m'' := by
  induction h generalizing m'' with
  | nil => exact h'
  | cons hf _ ih =>
    cases h' with
    | cons hf' h' => exact .cons (hf.trans hf') (ih h')

theorem extends_instrumentModeling {begins ends : UInt32 → Operand → RecordCall}
    (hbegins : ∀ id o, (begins id o).operands = [o] ∧ (begins id o).ofFunction = true)
    (hends : ∀ id o, (ends id o).operands = [o] ∧ (ends id o).ofFunction = true)
    {names : List Text} (h : instrumentModeling begins ends names m = some m') :
    List.Forall₂ (Func.Extends p) m m' := by
  induction names generalizing m with
  | nil =>
    cases h
    exact List.forall₂_same.2 fun f _ => .refl f
  | cons name names ih =>
    rw [instrumentModeling, List.foldlM_cons, Option.bind_eq_bind, Option.bind_eq_some_iff] at h
    obtain ⟨m₁, hm₁, hrest⟩ := h
    refine forall₂_extends_trans ?_ (ih hrest)
    cases hk : getFunction m name with
    | none =>
      rw [hk] at hm₁
      cases hm₁
      exact List.forall₂_same.2 fun f _ => .refl f
    | some k =>
      rw [hk] at hm₁
      exact extends_modifyFunction (fun f f' => extends_modelLock hbegins hends) hm₁

/-- **What the pass does to a module**: first every instruction gets its layout, then the functions
get calls at their beginning and their returns. -/
theorem runOnModule_spec (h : p.runOnModule m = some m') :
    ∃ m₁, List.Forall₂ (fun f f' => p.visitFunc f = some f') m m₁ ∧
      List.Forall₂ (Func.Extends p) m₁ m' := by
  simp only [runOnModule, Option.bind_eq_bind, Option.bind_eq_some_iff] at h
  obtain ⟨m₁, hvisit, m₂, hinit, m₃, hbegin, m₄, hend, m₅, hlock, hunlock⟩ := h
  refine ⟨m₁, Runs.mapM_eq_some_iff.1 hvisit, ?_⟩
  have hatEntry : ∀ {m m' : List Func} {k : Option Nat} {c : RecordCall}, c.operands = [] →
      c.ofFunction = true → (k.bind fun k => modifyFunction m k (atEntry [.record c])) = some m' →
      List.Forall₂ (Func.Extends p) m m' := by
    intro m m' k c hc hfunction h
    obtain ⟨k, -, h⟩ := Option.bind_eq_some_iff.1 h
    exact extends_modifyFunction (fun f f' => extends_atEntry hc hfunction) h
  have hmodeling := forall₂_extends_trans (p := p)
    (extends_instrumentModeling (fun _ _ => ⟨rfl, rfl⟩) (fun _ _ => ⟨rfl, rfl⟩) hlock)
    (extends_instrumentModeling (fun _ _ => ⟨rfl, rfl⟩) (fun _ _ => ⟨rfl, rfl⟩) hunlock)
  exact forall₂_extends_trans (hatEntry rfl rfl hinit) (forall₂_extends_trans
    (hatEntry rfl rfl hbegin) (forall₂_extends_trans (hatEntry rfl rfl hend) hmodeling))

/-- What the pass makes of a function. -/
structure Instruments (p : CiriTracerPass) (f f' : Func) : Prop where
  name : f'.name = f.name
  args : f'.args = f.args
  prog : f'.blocks.map (·.filter Item.isProg) = f.blocks
  blocks : ∀ b ∈ f'.blocks, Instrumented p b
  wellFormed : f.WellFormed → f'.WellFormed

theorem instruments_of_visitFunc {f₁ : Func} (hf : f.Source) (h : p.visitFunc f = some f₁)
    (h' : f₁.Extends p f') : Instruments p f f' := by
  obtain ⟨hname, hargs, hexpands, hwf⟩ := expands_visitFunc hf h
  have hblocks : List.Forall₂ (fun b b' => b'.filter Item.isProg = b ∧ Instrumented p b')
      f.blocks f₁.blocks :=
    ((List.forall₂_and_left _ _).2 ⟨hf, hexpands⟩).imp fun _ _ h => h.2.instrumented h.1
  refine ⟨h'.name.trans hname, h'.args.trans hargs, h'.prog.trans ?_, h'.blocks ?_,
    h'.wellFormed ∘ hwf⟩
  · rw [← List.forall₂_eq_eq_eq, List.forall₂_map_left_iff]
    exact List.Forall₂.flip (hblocks.imp fun _ _ h => h.1)
  · intro b' hb'
    obtain ⟨k, hk⟩ := List.mem_iff_getElem?.1 hb'
    obtain ⟨hk', rfl⟩ := List.getElem?_eq_some_iff.1 hk
    exact (hblocks.get (hblocks.length_eq ▸ hk') hk').2

theorem instruments_runOnModule (hsource : ∀ f ∈ m, f.Source) (h : p.runOnModule m = some m') :
    List.Forall₂ (Instruments p) m m' := by
  obtain ⟨m₁, hvisit, hextends⟩ := runOnModule_spec h
  clear h
  induction hvisit generalizing m' with
  | nil =>
    cases hextends
    exact .nil
  | cons hf hvisit ih =>
    rw [List.forall_mem_cons] at hsource
    cases hextends with
    | cons hf' hextends =>
      exact .cons (instruments_of_visitFunc hsource.1 hf hf') (ih hsource.2 hextends)

theorem Instruments.erase_eq (h : Instruments p f f') : f'.erase = f := by
  obtain ⟨name, args, blocks⟩ := f'
  cases h.name
  cases h.args
  exact congrArg (Func.mk _ _) h.prog

/-- **The program stays as it is.**  Without what the pass adds, the instrumented module is the
module: no instruction is lost, changed or moved. -/
theorem runOnModule_erase (hsource : ∀ f ∈ m, f.Source) (h : p.runOnModule m = some m') :
    m'.map Func.erase = m := by
  have hall : List.Forall₂ (· = ·) (m'.map Func.erase) m := by
    rw [List.forall₂_map_left_iff]
    exact List.Forall₂.flip ((instruments_runOnModule hsource h).imp fun _ _ h => h.erase_eq)
  rwa [List.forall₂_eq_eq_eq] at hall

theorem exists_instruments (hsource : ∀ f ∈ m, f.Source) (h : p.runOnModule m = some m') :
    ∀ f' ∈ m', ∃ f ∈ m, Instruments p f f' := by
  intro f' hf'
  obtain ⟨k, hk⟩ := List.mem_iff_getElem?.1 hf'
  have hall := instruments_runOnModule hsource h
  obtain ⟨hk', rfl⟩ := List.getElem?_eq_some_iff.1 hk
  exact ⟨_, List.getElem_mem (hall.length_eq ▸ hk'), hall.get (hall.length_eq ▸ hk') hk'⟩

/-- A pass that models `my_lock`. -/
def smallPass : CiriTracerPass :=
  ⟨"trace".toList, ["my_lock".toList], [], fun _ => 8, fun place => UInt32.ofNat (place + 1),
    fun _ => none⟩

/-- A function that tests what its argument points to, and changes it on one of two ways. -/
def smallLock : Func :=
  let pointer : IRValue := ⟨.argument 0, .other "i64*".toList⟩
  ⟨"my_lock".toList, [pointer],
    [[.prog 0 (.load pointer .int64), .prog 1 (.br (some ⟨.result 0, .int64⟩) [1, 2])],
      [.prog 2 (.store ⟨.result 0, .int64⟩ pointer), .prog 3 (.ret none)], [.prog 4 (.ret none)]]⟩

/-- A function without instructions. -/
def smallReturn (name : String) (place : Nat) : Func :=
  ⟨name.toList, [], [[.prog place (.ret none)]]⟩

/-- A module with what the pass looks for. -/
def smallModule : List Func :=
  [smallLock, smallReturn "main" 5, smallReturn "api_begin" 6, smallReturn "api_end" 7]

theorem smallModule_source : ∀ f ∈ smallModule, f.Source := by decide +kernel

theorem smallModule_runs : ∃ m', smallPass.runOnModule smallModule = some m' :=
  Option.isSome_iff_exists.1 (by decide +kernel)

theorem runOnModule_erase_small :
    ∃ m', smallPass.runOnModule smallModule = some m' ∧ m'.map Func.erase = smallModule := by
  obtain ⟨m', h⟩ := smallModule_runs
  exact ⟨m', h, runOnModule_erase smallModule_source h⟩

/-- **The module stays well formed.**  In every block the phis come first and a terminator last,
and whatever an instruction uses is there, whichever way its block is reached.  The operands of phis
are not looked at: they are used at the end of the blocks that come before. -/
theorem runOnModule_wellFormed (hsource : ∀ f ∈ m, f.Source) (hwf : ∀ f ∈ m, f.WellFormed)
    (h : p.runOnModule m = some m') : ∀ f' ∈ m', f'.WellFormed := by
  intro f' hf'
  obtain ⟨f, hf, hinst⟩ := exists_instruments hsource h f' hf'
  exact hinst.wellFormed (hwf f hf)

theorem smallModule_wellFormed : ∀ f ∈ smallModule, f.WellFormed := by
  have hreturn : ∀ name place, (smallReturn name place).WellFormed := by
    intro name place
    refine ⟨?_, fun _ => Func.given (smallReturn name place), rfl, fun k b hb => ?_⟩
    · intro b hb
      cases List.mem_singleton.1 hb
      exact ⟨List.pairwise_singleton _ _, _, rfl, rfl⟩
    · cases List.mem_singleton.1 (List.mem_of_getElem? hb)
      refine ⟨⟨by simp [Item.needs, IRInst.operands], trivial⟩, ?_⟩
      rw [List.forall_mem_singleton]
      exact List.forall_mem_nil _
  have hlock : smallLock.WellFormed := by
    refine ⟨?_, fun k => if k = 0 then smallLock.given else smallLock.given ∪ {.result 0},
      if_pos rfl, fun k b hb => ?_⟩
    · decide +kernel
    · have hargument : Def.argument 0 ∈ smallLock.given :=
        ⟨_, List.mem_singleton.2 rfl, List.mem_singleton.2 rfl⟩
      rcases k with _ | _ | _ | k
      · cases hb
        refine ⟨by simp [Dominated, Item.needs, IRInst.operands, IRValue.needs, Item.gives,
          hargument], fun item _ s _ d hd => ?_⟩
        have hd : d ∈ smallLock.given ∪ {.result 0} := by
          by_cases hs : s = 0 <;> simp only [hs, if_true, if_false] at hd
          · exact Or.inl hd
          · exact hd
        exact hd.imp_right fun hd => ⟨_, List.mem_cons_self, List.mem_singleton.2 hd⟩
      · cases hb
        simp [Dominated, Item.needs, IRInst.operands, IRValue.needs, Item.gives, Item.succs,
          hargument]
      · cases hb
        simp [Dominated, Item.needs, IRInst.operands, Item.succs]
      · cases hb
  simp only [smallModule, List.forall_mem_cons, List.not_mem_nil, false_imp_iff, implies_true,
    and_true]
  exact ⟨hlock, hreturn _ _, hreturn _ _, hreturn _ _⟩

theorem runOnModule_wellFormed_small :
    ∃ m', smallPass.runOnModule smallModule = some m' ∧ ∀ f' ∈ m', f'.WellFormed := by
  obtain ⟨m', h⟩ := smallModule_runs
  exact ⟨m', h, runOnModule_wellFormed smallModule_source smallModule_wellFormed h⟩

end Modules

end CiriTracerPass

end Durinn
