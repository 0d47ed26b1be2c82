import Mathlib

/-!
# Images: finite memories under overlapping writes

An *image* is a finite run of cells that starts at a base address; seen from
outside it is a partial map from addresses to contents.  A write replaces a
contiguous run of cells, and is itself such a partial map, so that writing is
overlaying one partial map with another.

* `sliceAssign` — assignment to a slice `data[start:stop] = v` of a fixed-size
  buffer, with the index rules of Python's sequences: negative indices count
  from the end, out-of-range ones are clamped, and a value of another length than
  the slice is refused.
* `sliceAssign_eq_splice`, `view_sliceAssign` — inside the buffer, slice assignment puts cells in
  place of others, and is an overlay.
* `overlayAll_apply` — after a sequence of writes, a cell holds what the last
  write that touches it put there; hence sequences that agree on the writes
  touching each cell have the same effect, in whatever order the others stand.
-/

namespace Image

/-! ## Overlays -/

section Overlay

variable {A B : Type*}

/-- `w` written over `m`. -/
def overlay (m w : A → Option B) : A → Option B := fun a => (w a).or (m a)

/-- A sequence of writes over `m`, the first one first. -/
def overlayAll (m : A → Option B) (ws : List (A → Option B)) : A → Option B :=
  ws.foldl overlay m

@[simp] theorem overlayAll_append_singleton (m : A → Option B) (ws : List (A → Option B))
    (w : A → Option B) : overlayAll m (ws ++ [w]) = overlay (overlayAll m ws) w := by
  simp [overlayAll]

/-- **The last write that touches a cell decides its contents.** -/
theorem overlayAll_apply (m : A → Option B) (ws : List (A → Option B)) (a : A) :
    overlayAll m ws a = ((ws.filterMap (· a)).getLast?).or (m a) := by
  induction ws using List.reverseRecOn with
  | nil => rfl
  | append_singleton ws w ih =>
    rw [overlayAll_append_singleton, overlay, ih, List.filterMap_append, List.getLast?_append]
    cases hw : w a <;> simp [hw]

variable {S : Type*} (f : S → A → Option B)

/-- Only the writes that touch a cell matter to it. -/
theorem overlayAll_congr_at {m : A → Option B} {ss ts : List S} {a : A}
    (h : ss.filter (fun s => (f s a).isSome) = ts.filter (fun s => (f s a).isSome)) :
    overlayAll m (ss.map f) a = overlayAll m (ts.map f) a := by
  have hfm : ∀ l : List S, (l.map f).filterMap (· a) =
      (l.filter fun s => (f s a).isSome).filterMap (f · a) := by
    intro l
    rw [List.filterMap_map, List.filterMap_filter]
    refine List.filterMap_congr fun s _ => ?_
    cases hs : f s a <;> simp [hs]
  rw [overlayAll_apply, overlayAll_apply, hfm, hfm, h]

/-- Sequences of writes that agree within each class of a partition of the cells have
the same effect. -/
theorem overlayAll_congr {L : Type*} [DecidableEq L] {m : A → Option B} {ss ts : List S}
    (line : S → L) (hline : ∀ a, ∃ l, ∀ s, s ∈ ss ∨ s ∈ ts → (f s a).isSome → line s = l)
    (h : ∀ l, ss.filter (fun s => line s = l) = ts.filter (fun s => line s = l)) :
    overlayAll m (ss.map f) = overlayAll m (ts.map f) := by
  funext a
  obtain ⟨l, hl⟩ := hline a
  refine overlayAll_congr_at f ?_
  have hsub : ∀ us : List S, (∀ s ∈ us, s ∈ ss ∨ s ∈ ts) →
      us.filter (fun s => (f s a).isSome) =
        (us.filter fun s => line s = l).filter fun s => (f s a).isSome := by
    intro us hus
    rw [List.filter_filter]
    refine List.filter_congr fun s hs => ?_
    cases hfs : (f s a).isSome
    · simp
    · simp [hl s (hus s hs) hfs]
  rw [hsub ss fun s hs => Or.inl hs, hsub ts fun s hs => Or.inr hs, h l]

end Overlay

/-! ## Finite buffers -/

variable {β : Type*}

/-- A slice index as Python adjusts it to a sequence of length `n`. -/
def adjustIndex (n : Nat) (i : Int) : Nat :=
  if i < 0 then (i + n).toNat else min i.toNat n

/-- `data[start:stop]`. -/
def slice (data : List β) (start stop : Int) : List β :=
  (data.take (adjustIndex data.length stop)).drop (adjustIndex data.length start)

/-- `data[start:]`. -/
def sliceFrom (data : List β) (start : Int) : List β := data.drop (adjustIndex data.length start)

theorem adjustIndex_of_le {n i : Nat} (h : i ≤ n) : adjustIndex n i = i := by
  unfold adjustIndex
  rw [if_neg (by omega)]
  omega

/-- A slice of the middle part. -/
theorem slice_append {u v w : List β} {i : Int} (h₁ : (u.length : Int) ≤ i)
    (h₂ : i ≤ u.length + v.length) :
    slice (u ++ v ++ w) u.length i = v.take (i.toNat - u.length) := by
  obtain ⟨k, rfl⟩ : ∃ k : Nat, i = (u.length + k : Nat) := ⟨i.toNat - u.length, by omega⟩
  have hlen : (u ++ v ++ w).length = u.length + v.length + w.length := by
    simp [Nat.add_assoc]
  unfold slice
  rw [adjustIndex_of_le (by omega), adjustIndex_of_le (by omega), List.append_assoc,
    List.take_length_add_append, List.drop_left, List.take_append_of_le_length (by omega),
    Int.toNat_natCast, Nat.add_sub_cancel_left]

theorem sliceFrom_append {u v : List β} : sliceFrom (u ++ v) u.length = v := by
  unfold sliceFrom
  rw [adjustIndex_of_le (by simp), List.drop_left]

/-- `data[start:stop] = v` on a buffer that keeps its size: `none` is the `IndexError`
raised when the slice has another length than `v`. -/
def sliceAssign (data : List β) (start stop : Int) (v : List β) : Option (List β) :=
  let lo := adjustIndex data.length start
  let hi := adjustIndex data.length stop
  if v.length = hi - lo then some (data.take lo ++ v ++ data.drop (lo + (hi - lo)))
  else none

/-- The cells of `data`, placed at address `base`. -/
def view (base : Nat) (data : List β) (a : Nat) : Option β :=
  if base ≤ a then data[a - base]? else none

theorem isSome_view {base : Nat} {data : List β} {a : Nat} :
    (view base data a).isSome ↔ base ≤ a ∧ a < base + data.length := by
  unfold view
  split
  · rw [Option.isSome_iff_ne_none, ne_eq, List.getElem?_eq_none_iff]
    omega
  · simp only [Option.isSome_none, Bool.false_eq_true, false_iff]
    omega

/-- An image is determined by its size and what it looks like from outside. -/
theorem view_injective {base : Nat} {d₁ d₂ : List β} (h : view base d₁ = view base d₂) :
    d₁ = d₂ := by
  refine List.ext_getElem? fun i => ?_
  have := congrFun h (base + i)
  simpa [view] using this

/-- `v` in place of as many cells of `data`, from the index `i` on. -/
def splice (data : List β) (i : Nat) (v : List β) : List β :=
  data.take i ++ v ++ data.drop (i + v.length)

theorem length_splice {data v : List β} {i : Nat} (h : i + v.length ≤ data.length) :
    (splice data i v).length = data.length := by
  simp only [splice, List.length_append, List.length_take, List.length_drop]
  omega

theorem getElem?_splice {data v : List β} {i : Nat} (h : i + v.length ≤ data.length) (j : Nat) :
    (splice data i v)[j]? = if i ≤ j ∧ j < i + v.length then v[j - i]? else data[j]? := by
  have htake : (data.take i).length = i := by
    rw [List.length_take]
    omega
  rw [splice, List.append_assoc]
  rcases Nat.lt_or_ge j i with hj | hj
  · rw [List.getElem?_append_left (by omega), List.getElem?_take_of_lt hj, if_neg (by omega)]
  · rw [List.getElem?_append_right (by omega), htake]
    rcases Nat.lt_or_ge (j - i) v.length with hv | hv
    · rw [List.getElem?_append_left hv, if_pos (by omega)]
    · rw [List.getElem?_append_right hv, List.getElem?_drop, if_neg (by omega)]
      congr 1
      omega

theorem splice_nil (data : List β) (i : Nat) : splice data i [] = data := by
  simp [splice]

/-- Repeating only a part of a write, `n` cells from `k` on, gives the same if and only if the
rest of it changed nothing. -/
theorem splice_part_iff {data v : List β} {i k n : Nat} (hv : i + v.length ≤ data.length)
    (hn : k + n ≤ data.length) :
    splice data k (((splice data i v).drop k).take n) = splice data i v ↔
      ∀ j, i ≤ j → j < i + v.length → j < k ∨ k + n ≤ j → data[j]? = v[j - i]? := by
  have hlen : (((splice data i v).drop k).take n).length = n := by
    rw [List.length_take, List.length_drop, length_splice hv]
    omega
  have hpart : ∀ j, k ≤ j → j < k + n →
      (((splice data i v).drop k).take n)[j - k]? = (splice data i v)[j]? := by
    intro j hk hj
    rw [List.getElem?_take_of_lt (by omega), List.getElem?_drop, Nat.add_sub_cancel' hk]
  rw [List.ext_getElem?_iff]
  constructor
  · intro h j hi hj hout
    have hj' := h j
    rwa [getElem?_splice (by rw [hlen]; exact hn), hlen, if_neg (by omega), getElem?_splice hv,
      if_pos ⟨hi, hj⟩] at hj'
  · intro h j
    rw [getElem?_splice (by rw [hlen]; exact hn), hlen]
    split
    · rename_i hj
      exact hpart j hj.1 hj.2
    · rw [getElem?_splice hv]
      split
      · rename_i hout hin
        exact h j hin.1 hin.2 (by omega)
      · rfl

/-- Assigning to a slice inside the buffer. -/
theorem sliceAssign_eq_splice {base addr n : Nat} {data : List β} (v : List β) (hlo : base ≤ addr)
    (hhi : addr + n ≤ base + data.length) :
    sliceAssign data ((addr : Int) - base) (((addr + n : Nat) : Int) - base) v =
      if v.length = n then some (splice data (addr - base) v) else none := by
  have h1 : adjustIndex data.length ((addr : Int) - base) = addr - base := by
    unfold adjustIndex
    rw [if_neg (by omega)]
    omega
  have h2 : adjustIndex data.length (((addr + n : Nat) : Int) - base) = addr - base + n := by
    unfold adjustIndex
    rw [if_neg (by omega)]
    omega
  simp only [sliceAssign, h1, h2, Nat.add_sub_cancel_left]
  split
  · rename_i hv
    rw [splice, hv]
  · rfl

/-- **Inside the buffer, assigning to a slice is overlaying a write.** -/
theorem view_sliceAssign (base addr : Nat) (data v : List β) (hlo : base ≤ addr)
    (hhi : addr + v.length ≤ base + data.length) :
    ∃ data', sliceAssign data ((addr : Int) - base) (((addr + v.length : Nat) : Int) - base) v =
        some data' ∧ data'.length = data.length ∧
      view base data' = overlay (view base data) (view addr v) := by
  have hin : addr - base + v.length ≤ data.length := by omega
  refine ⟨splice data (addr - base) v, ?_, length_splice hin, ?_⟩
  · rw [sliceAssign_eq_splice v hlo hhi, if_pos rfl]
  · funext a
    simp only [overlay, view]
    by_cases hb : base ≤ a
    · rw [if_pos hb, if_pos hb, getElem?_splice hin]
      by_cases ha : addr ≤ a
      · rw [if_pos ha, show a - base - (addr - base) = a - addr by omega]
        by_cases hv : a - addr < v.length
        · rw [if_pos (by omega), List.getElem?_eq_getElem hv, Option.some_or]
        · rw [if_neg (by omega), List.getElem?_eq_none (by omega : v.length ≤ a - addr),
            Option.none_or]
      · rw [if_neg ha, if_neg (by omega), Option.none_or]
    · rw [if_neg hb, if_neg hb, if_neg (by omega), Option.none_or]

end Image
