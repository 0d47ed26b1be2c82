import Durinn.Lib.Image
import Durinn.Tracer.RoundTrip

/-!
# The memory of the traced program

Persistent memory is mapped into the address space of the program, once or twice, and the rest
of the memory is not recorded.

* `Memory.strlen_eq_some_iff` — what `strlen` finds.
* `PmRange.Maps`, `PmRange.Within` — how the ranges of the run-time relate to the persistent
  memory, and which accesses stay inside it; `PmRange.index` is the place of an address in it.
* `Within.isPmAddr`, `Maps.getPmAddr` — what the run-time computes for such an access.
* `World.read`, `World.write` — what the program reads and writes there; `bytes_write` says that
  what was written is read.
* `splice_strcat_iff` — when the beginning of a string that `strcat` made stands for what was
  appended to it.
-/

namespace Durinn

open Image

/-! ## Strings -/

namespace Memory

variable {mem mem' : Memory}

theorem strlenFrom_eq_some_iff {left p n : Nat} :
    mem.strlenFrom left p = some n ↔ n < left ∧ (∀ i < n, mem (p + i) ≠ 0) ∧ mem (p + n) = 0 := by
  induction left generalizing p n with
  | zero => simp [strlenFrom]
  | succ left ih =>
    rw [strlenFrom]
    by_cases hp : mem p = 0
    · rw [if_pos hp, Option.some.injEq]
      constructor
      · rintro rfl
        exact ⟨by omega, by simp, hp⟩
      · rintro ⟨-, hne, -⟩
        by_contra hn
        exact hne 0 (by omega) hp
    · rw [if_neg hp, Option.map_eq_some_iff]
      constructor
      · rintro ⟨m, hm, rfl⟩
        obtain ⟨hlt, hne, hzero⟩ := ih.1 hm
        refine ⟨by omega, fun i hi => ?_, ?_⟩
        · cases i with
          | zero => exact hp
          | succ i =>
            rw [Nat.add_comm i 1, ← Nat.add_assoc]
            exact hne i (by omega)
        · rw [Nat.add_comm m 1, ← Nat.add_assoc]
          exact hzero
      · rintro ⟨hlt, hne, hzero⟩
        cases n with
        | zero => exact absurd hzero hp
        | succ m =>
          rw [Nat.add_comm m 1, ← Nat.add_assoc] at hzero
          refine ⟨m, ih.2 ⟨by omega, fun i hi => ?_, hzero⟩, rfl⟩
          have := hne (i + 1) (by omega)
          rwa [Nat.add_comm i 1, ← Nat.add_assoc] at this

/-- **What `strlen` finds**: the first zero, if there is one before the end of the addresses. -/
theorem strlen_eq_some_iff {p : UInt64} {n : Nat} :
    mem.strlen p = some n ↔
      p.toNat + n < 2 ^ 64 ∧ (∀ i < n, mem (p.toNat + i) ≠ 0) ∧ mem (p.toNat + n) = 0 := by
  rw [strlen, strlenFrom_eq_some_iff]
  have := p.toNat_lt
  refine and_congr_left fun _ => ?_
  omega

theorem stringSize_eq {p : UInt64} {n : Nat} (h : mem.strlen p = some n) :
    Call.stringSize mem p = n + 1 := by
  rw [Call.stringSize, h]
  rfl

theorem length_bytes (mem : Memory) (p n : Nat) : (mem.bytes p n).length = n := by simp [bytes]

theorem getElem?_bytes {p n i : Nat} (h : i < n) : (mem.bytes p n)[i]? = some (mem (p + i)) := by
  simp [bytes, h]

/-- The bytes one by one. -/
theorem apply_of_bytes_eq {p q n : Nat} (h : mem.bytes p n = mem'.bytes q n) :
    ∀ i < n, mem (p + i) = mem' (q + i) := by
  intro i hi
  have hget := congrArg (fun l => l[i]?) h
  simp only [getElem?_bytes hi, Option.some.injEq] at hget
  exact hget

/-- A copy of a string has its length. -/
theorem strlen_congr {p q : UInt64} {n : Nat} (hp : p.toNat + n < 2 ^ 64)
    (h : ∀ i < n + 1, mem (p.toNat + i) = mem' (q.toNat + i)) (hq : mem'.strlen q = some n) :
    mem.strlen p = some n := by
  obtain ⟨-, hne, hzero⟩ := strlen_eq_some_iff.1 hq
  refine strlen_eq_some_iff.2 ⟨hp, fun i hi => ?_, ?_⟩
  · rw [h i (by omega)]
    exact hne i hi
  · rw [h n (by omega)]
    exact hzero

/-- The string that two strings make up, one after the other. -/
theorem strlen_concat {p s : UInt64} {m n : Nat} (hlt : p.toNat + (m + n) < 2 ^ 64)
    (h : ∀ i < m + n + 1, mem' (p.toNat + i) =
      if i < m then mem (p.toNat + i) else mem (s.toNat + (i - m)))
    (hp : mem.strlen p = some m) (hs : mem.strlen s = some n) : mem'.strlen p = some (m + n) := by
  obtain ⟨-, hpne, -⟩ := strlen_eq_some_iff.1 hp
  obtain ⟨-, hsne, hszero⟩ := strlen_eq_some_iff.1 hs
  refine strlen_eq_some_iff.2 ⟨hlt, fun i hi => ?_, ?_⟩
  · rw [h i (by omega)]
    split
    · exact hpne i ‹_›
    · exact hsne (i - m) (by omega)
  · rw [h (m + n) (by omega), if_neg (by omega), Nat.add_sub_cancel_left]
    exact hszero

end Memory

/-! ## Mapped ranges -/

namespace PmRange

variable {r : PmRange} {size a n : Nat}

/-- The ranges show a persistent memory of this size: the first one shows all of it, the other
one a part, and they do not overlap. -/
structure Maps (r : PmRange) (size : Nat) : Prop where
  whole : r.pmAddrStart.toNat + size = r.pmAddrEnd.toNat
  dup : r.pmAddrEndDup.toNat ≤ r.pmAddrStartDup.toNat + size
  disjoint : r.pmAddrEndDup.toNat ≤ r.pmAddrStart.toNat ∨
    r.pmAddrEnd.toNat ≤ r.pmAddrStartDup.toNat

/-- So many bytes from the address on lie in one of the ranges. -/
def Within (r : PmRange) (a n : Nat) : Prop :=
  (r.pmAddrStart.toNat ≤ a ∧ a + n ≤ r.pmAddrEnd.toNat) ∨
    (r.pmAddrStartDup.toNat ≤ a ∧ a + n ≤ r.pmAddrEndDup.toNat)

instance (r : PmRange) (a n : Nat) : Decidable (r.Within a n) :=
  inferInstanceAs (Decidable (_ ∨ _))

/-- The place in the persistent memory that is mapped at an address. -/
def index (r : PmRange) (a : Nat) : Nat :=
  if r.pmAddrStartDup.toNat ≤ a ∧ a < r.pmAddrEndDup.toNat then a - r.pmAddrStartDup.toNat
  else a - r.pmAddrStart.toNat

/-- A part of a range. -/
theorem Within.part (h : r.Within a n) {i m : Nat} (hm : i + m ≤ n) : r.Within (a + i) m := by
  unfold Within at *
  omega

/-- Ranges end before the last address. -/
theorem Within.add_lt (h : r.Within a n) : a + n < 2 ^ 64 := by
  have := r.pmAddrEnd.toNat_lt
  have := r.pmAddrEndDup.toNat_lt
  unfold Within at h
  omega

/-- Bytes that follow each other in a range do so in the persistent memory. -/
theorem Maps.index_add (hr : r.Maps size) (h : r.Within a n) {i : Nat} (hi : i < n) :
    r.index (a + i) = r.index a + i := by
  have := hr.disjoint
  unfold index
  unfold Within at h
  split <;> split <;> omega

theorem Maps.index_le (hr : r.Maps size) (h : r.Within a n) (hn : 0 < n) :
    r.index a + n ≤ size := by
  obtain ⟨hwhole, hdup, hdisjoint⟩ := hr
  unfold index
  unfold Within at h
  split <;> omega

theorem Maps.index_add_length (hr : r.Maps size) {bytes : List UInt8}
    (h : r.Within a bytes.length) (hne : bytes ≠ []) : r.index a + bytes.length ≤ size :=
  hr.index_le h (List.length_pos_of_ne_nil hne)

theorem Within.isPmAddr {p : UInt64} (h : r.Within p.toNat n) (hn : 0 < n) :
    r.isPmAddr p = true := by
  unfold Within at h
  simp only [PmRange.isPmAddr, Bool.or_eq_true, decide_eq_true_eq, UInt64.le_iff_toNat_le,
    UInt64.lt_iff_toNat_lt]
  omega

/-- `get_pm_addr` gives the address in the first range. -/
theorem Maps.getPmAddr {p : UInt64} (hr : r.Maps size) (h : r.Within p.toNat n) (hn : 0 < n) :
    (r.getPmAddr p).toNat = r.pmAddrStart.toNat + r.index p.toNat := by
  have hle := hr.index_le h hn
  have hlt := r.pmAddrEnd.toNat_lt
  have hwhole := hr.whole
  have hdisjoint := hr.disjoint
  unfold PmRange.getPmAddr
  unfold index at *
  simp only [UInt64.le_iff_toNat_le, UInt64.lt_iff_toNat_lt]
  split
  · rename_i hdup
    rw [if_pos hdup] at hle
    rw [UInt64.toNat_add, UInt64.toNat_sub_of_le _ _ (UInt64.le_iff_toNat_le.2 hdup.1)]
    omega
  · unfold Within at h
    omega

end PmRange

/-! ## Reading and writing -/

/-- The contents of the persistent memory, and of the rest. -/
structure World where
  pm : List UInt8
  other : Memory

namespace World

variable {r : PmRange} {w : World} {a n : Nat}

/-- What the program reads. -/
def read (r : PmRange) (w : World) : Memory := fun a =>
  if r.Within a 1 then w.pm.getD (r.index a) 0 else w.other a

/-- The program writes bytes to the persistent memory. -/
def write (r : PmRange) (w : World) (a : Nat) (bytes : List UInt8) : World :=
  { w with pm := splice w.pm (r.index a) bytes }

theorem getElem?_index (hr : r.Maps w.pm.length) (h : r.Within a n) {i : Nat} (hi : i < n) :
    w.pm[r.index a + i]? = some (w.read r (a + i)) := by
  have hle := hr.index_le h (by omega)
  rw [read, if_pos (h.part hi), hr.index_add h hi, List.getD_eq_getElem?_getD,
    List.getElem?_eq_getElem (by omega)]
  rfl

theorem length_write (hr : r.Maps w.pm.length) {bytes : List UInt8}
    (h : r.Within a bytes.length) : (w.write r a bytes).pm.length = w.pm.length := by
  by_cases hne : bytes = []
  · rw [hne, write, splice_nil]
  · exact length_splice (hr.index_add_length h hne)

theorem write_nil (r : PmRange) (w : World) (a : Nat) : w.write r a [] = w := by
  rw [write, splice_nil]

/-- What was written is read. -/
theorem bytes_write (hr : r.Maps w.pm.length) {bytes : List UInt8} (h : r.Within a bytes.length) :
    ((w.write r a bytes).read r).bytes a bytes.length = bytes := by
  refine List.ext_getElem? fun i => ?_
  rcases Nat.lt_or_ge i bytes.length with hi | hi
  · have hle := hr.index_le h (by omega)
    have hr' : r.Maps (w.write r a bytes).pm.length := by rwa [length_write hr h]
    rw [Memory.getElem?_bytes hi, ← getElem?_index hr' h hi, write, getElem?_splice hle,
      if_pos (by omega), Nat.add_sub_cancel_left]
  · rw [List.getElem?_eq_none (by rw [Memory.length_bytes]; exact hi), List.getElem?_eq_none hi]

/-- The bytes of a range, taken out of the persistent memory. -/
theorem bytes_eq (hr : r.Maps w.pm.length) (h : r.Within a n) (hn : 0 < n) :
    (w.read r).bytes a n = (w.pm.drop (r.index a)).take n := by
  have hle := hr.index_le h hn
  refine List.ext_getElem? fun i => ?_
  rcases Nat.lt_or_ge i n with hi | hi
  · rw [Memory.getElem?_bytes hi, List.getElem?_take_of_lt hi, List.getElem?_drop,
      getElem?_index hr h hi]
  · rw [List.getElem?_eq_none (by rw [Memory.length_bytes]; exact hi),
      List.getElem?_eq_none (by rw [List.length_take]; omega)]

/-- Writing what is there changes nothing. -/
theorem splice_bytes (hr : r.Maps w.pm.length) (h : r.Within a n) :
    splice w.pm (r.index a) ((w.read r).bytes a n) = w.pm := by
  rcases Nat.eq_zero_or_pos n with rfl | hn
  · exact splice_nil _ _
  · have hpart : splice w.pm (r.index a) (((splice w.pm 0 []).drop (r.index a)).take n) =
        splice w.pm 0 [] :=
      (splice_part_iff (Nat.zero_le _) (hr.index_le h hn)).2
        fun j _ hj => absurd hj (Nat.not_lt_zero j)
    rwa [splice_nil, ← bytes_eq hr h hn] at hpart

/-! ### Appending a string -/

/-- The string at `s`, of length `n`, is appended to the one at `p`, of length `m`. -/
def strcat (r : PmRange) (w : World) (p s : UInt64) (m n : Nat) : World :=
  w.write r (p.toNat + m) ((w.read r).bytes s.toNat (n + 1))

section Strcat

variable {p s : UInt64} {m n : Nat} (hr : r.Maps w.pm.length) (hin : r.Within p.toNat (m + n + 1))

include hr hin

theorem length_strcat : (w.strcat r p s m n).pm.length = w.pm.length := by
  refine length_write hr ?_
  rw [Memory.length_bytes]
  exact hin.part (by omega)

theorem pm_strcat : (w.strcat r p s m n).pm =
    splice w.pm (r.index p.toNat + m) ((w.read r).bytes s.toNat (n + 1)) := by
  rw [strcat, write, hr.index_add hin (by omega)]

/-- The string at `p` afterwards. -/
theorem read_strcat : ∀ i < m + n + 1, (w.strcat r p s m n).read r (p.toNat + i) =
    if i < m then w.read r (p.toNat + i) else w.read r (s.toNat + (i - m)) := by
  intro i hi
  have hle := hr.index_le hin (by omega)
  have hlen := Memory.length_bytes (w.read r) s.toNat (n + 1)
  have hr' : r.Maps (w.strcat r p s m n).pm.length := by rwa [length_strcat hr hin]
  refine Option.some.inj ?_
  rw [← getElem?_index hr' hin hi, pm_strcat hr hin, getElem?_splice (by omega), hlen]
  by_cases him : i < m
  · rw [if_neg (by omega), if_pos him, getElem?_index hr hin hi]
  · rw [if_pos (by omega), if_neg him, Nat.add_sub_add_left, Memory.getElem?_bytes (by omega)]

/-- **Repeating the beginning of the result instead of what was appended.**  It gives the same if
and only if what was appended beyond it was there already. -/
theorem splice_strcat_iff :
    splice w.pm (r.index p.toNat) (((w.strcat r p s m n).read r).bytes p.toNat (n + 1)) =
        (w.strcat r p s m n).pm ↔
      ∀ i, m ≤ i → n < i → i ≤ m + n → w.read r (p.toNat + i) = w.read r (s.toNat + (i - m)) := by
  have hle := hr.index_le hin (by omega)
  have hlen := Memory.length_bytes (w.read r) s.toNat (n + 1)
  have hr' : r.Maps (w.strcat r p s m n).pm.length := by rwa [length_strcat hr hin]
  have hcell : ∀ i, m ≤ i → i ≤ m + n →
      (w.pm[r.index p.toNat + i]? = ((w.read r).bytes s.toNat (n + 1))[i - m]? ↔
        w.read r (p.toNat + i) = w.read r (s.toNat + (i - m))) := by
    intro i hmi hi
    rw [getElem?_index hr hin (by omega), Memory.getElem?_bytes (by omega), Option.some.injEq]
  have hfirst : r.Within p.toNat (n + 1) := hin.part (i := 0) (by omega)
  rw [bytes_eq hr' hfirst (by omega), pm_strcat hr hin, splice_part_iff (by omega) (by omega), hlen]
  constructor
  · intro h i hmi hni hi
    have hj := h (r.index p.toNat + i) (by omega) (by omega) (by omega)
    rw [Nat.add_sub_add_left] at hj
    exact (hcell i hmi hi).1 hj
  · intro h j hlo hhi hout
    obtain ⟨i, rfl⟩ : ∃ i, j = r.index p.toNat + i := ⟨j - r.index p.toNat, by omega⟩
    rw [Nat.add_sub_add_left]
    exact (hcell i (by omega) (by omega)).2 (h i (by omega) (by omega) (by omega))

end Strcat

end World

end Durinn
