import Durinn.Lib.FloatDiv

/-!
# Memory operations of a trace

The data model of `trace_checker/lib/memops.py` and `trace_checker/lib/utils.py`: the
operations a persistent-memory trace consists of, the address ranges they act
on, and the comparison of ranges that decides whether a flush reaches a store.

The attribute `flushing` of stores and loads is not part of the operations
here.  It is changed only through a cache that holds the operation, so each
cache keeps it beside the operation (`Durinn.Cell`); a freshly built operation
starts with `flushing = 0`, and so does a freshly cached one.
-/

namespace Durinn

/-- A piece of text. -/
abbrev Text := List Char

/-- Texts are looked up by comparing them. -/
instance : LawfulBEq Text := inferInstance

/-! ## Cachelines -/

/-- Cacheline size in bytes. -/
def cachelineBytes : Nat := 64

/-- Atomic write size in bytes. -/
def atomicWriteBytes : Nat := 8

/-- The cacheline start address: `int(address / CACHELINE_BYTES) * CACHELINE_BYTES`, a
division in floating point. -/
def getCachelineAddress (address : Nat) : Nat :=
  FloatDiv.truncTrueDiv address cachelineBytes * cachelineBytes

/-- Rounding down to a cacheline is idempotent, floating point notwithstanding. -/
@[simp] theorem getCachelineAddress_idem (address : Nat) :
    getCachelineAddress (getCachelineAddress address) = getCachelineAddress address := by
  unfold getCachelineAddress
  rw [FloatDiv.truncTrueDiv_mul_self address (by decide)]

theorem dvd_getCachelineAddress (address : Nat) :
    cachelineBytes ∣ getCachelineAddress address :=
  Dvd.intro_left _ rfl

/-- Two cachelines that share a byte are the same. -/
theorem cacheline_eq_of_overlap {l₁ l₂ a : Nat} (h₁ : cachelineBytes ∣ l₁)
    (h₂ : cachelineBytes ∣ l₂) (ha₁ : l₁ ≤ a ∧ a < l₁ + cachelineBytes)
    (ha₂ : l₂ ≤ a ∧ a < l₂ + cachelineBytes) : l₁ = l₂ := by
  obtain ⟨m, rfl⟩ := h₁
  obtain ⟨n, rfl⟩ := h₂
  simp only [cachelineBytes] at *
  omega

/-! ## Ranges -/

/-- The `Rangeable` interface. -/
class Rangeable (α : Type) where
  /-- `get_base_address`. -/
  getBaseAddress : α → Nat
  /-- `get_max_address`. -/
  getMaxAddress : α → Nat

export Rangeable (getBaseAddress getMaxAddress)

/-- `range_cmp`: `lt` for -1, `gt` for 1 and `eq`, for 0, on overlap. -/
def rangeCmp {α β : Type} [Rangeable α] [Rangeable β] (lhs : α) (rhs : β) : Ordering :=
  if getMaxAddress lhs ≤ getBaseAddress rhs then .lt
  else if getMaxAddress rhs ≤ getBaseAddress lhs then .gt
  else .eq

theorem rangeCmp_eq_iff {α β : Type} [Rangeable α] [Rangeable β] {lhs : α} {rhs : β} :
    rangeCmp lhs rhs = .eq ↔
      getBaseAddress rhs < getMaxAddress lhs ∧ getBaseAddress lhs < getMaxAddress rhs := by
  unfold rangeCmp
  split
  · simp only [reduceCtorEq, false_iff]
    omega
  · split
    · simp only [reduceCtorEq, false_iff]
      omega
    · simp only [true_iff]
      omega

/-! ## Operations -/

/-- What every operation carries. -/
structure BaseOperation where
  id : Nat
  tid : Nat
  srcInfo : Text
  deriving DecidableEq, Repr

/-- A store of `valueBytes` at `address`. -/
structure Store extends BaseOperation where
  address : Nat
  size : Nat
  valueBytes : List UInt8
  isCas : Nat
  deriving DecidableEq, Repr

instance : Rangeable Store where
  getBaseAddress s := s.address
  getMaxAddress s := s.address + s.size

/-- A load; `Trace` uses the same class for the allocations it records. -/
structure Load extends BaseOperation where
  address : Nat
  size : Nat
  deriving DecidableEq, Repr

instance : Rangeable Load where
  getBaseAddress l := l.address
  getMaxAddress l := l.address + l.size

/-- A flush of the cacheline of `addressNotAligned`. -/
structure Flush extends BaseOperation where
  addressNotAligned : Nat
  deriving DecidableEq, Repr

/-- The cacheline a flush acts on. -/
def Flush.address (f : Flush) : Nat := getCachelineAddress f.addressNotAligned

instance : Rangeable Flush where
  getBaseAddress f := f.address
  getMaxAddress f := f.address + cachelineBytes

/-- `Flush.is_in_flush`. -/
def Flush.isInFlush {α : Type} [Rangeable α] (f : Flush) (op : α) : Bool :=
  rangeCmp op f = .eq

/-- Acquiring the lock at `address`. -/
structure Lock extends BaseOperation where
  address : Nat
  deriving DecidableEq, Repr

instance : Rangeable Lock where
  getBaseAddress l := l.address
  getMaxAddress l := l.address + 8

/-- Releasing the lock at `address`. -/
structure UnLock extends BaseOperation where
  address : Nat
  deriving DecidableEq, Repr

instance : Rangeable UnLock where
  getBaseAddress u := u.address
  getMaxAddress u := u.address + 8

/-- An operation of a trace. -/
inductive Op where
  | store (s : Store)
  | load (l : Load)
  | flush (f : Flush)
  | fence (b : BaseOperation)
  | lock (l : Lock)
  | unlock (u : UnLock)
  | apiBegin (b : BaseOperation)
  | apiEnd (b : BaseOperation)
  deriving DecidableEq, Repr

namespace Op

/-- The attributes every operation has. -/
def base : Op → BaseOperation
  | .store s => s.toBaseOperation
  | .load l => l.toBaseOperation
  | .flush f => f.toBaseOperation
  | .fence b => b
  | .lock l => l.toBaseOperation
  | .unlock u => u.toBaseOperation
  | .apiBegin b => b
  | .apiEnd b => b

/-- The position the parser gave the operation. -/
def id (op : Op) : Nat := op.base.id

/-- Does the operation delimit an API call? -/
def isBoundary : Op → Bool
  | .apiBegin _ => true
  | .apiEnd _ => true
  | _ => false

/-- `isinstance(op, Fence)`. -/
def isFence : Op → Bool
  | .fence _ => true
  | _ => false

/-- Is the operation a flush that reaches `x`? -/
def flushes {α : Type} [Rangeable α] (x : α) : Op → Bool
  | .flush f => f.isInFlush x
  | _ => false

/-- The store an operation is, if it is one. -/
def store? : Op → Option Store
  | .store s => some s
  | _ => none

end Op

/-- The stores of a list of operations, in order. -/
def storesOf (ops : List Op) : List Store := ops.filterMap Op.store?

@[simp] theorem storesOf_nil : storesOf [] = [] := rfl

@[simp] theorem storesOf_append (u v : List Op) : storesOf (u ++ v) = storesOf u ++ storesOf v :=
  List.filterMap_append

theorem mem_storesOf {s : Store} {ops : List Op} : s ∈ storesOf ops ↔ Op.store s ∈ ops := by
  simp only [storesOf, List.mem_filterMap]
  constructor
  · rintro ⟨op, hop, h⟩
    cases op <;> simp_all [Op.store?]
  · intro h
    exact ⟨_, h, rfl⟩

/-- In a list without duplicates an operation has one place. -/
theorem split_unique {ops u u' v v' : List Op} {op : Op} (hnodup : ops.Nodup)
    (h : ops = u ++ op :: v) (h' : ops = u' ++ op :: v') : u = u' ∧ v = v' := by
  rw [h] at hnodup
  have hplace := List.nodup_middle.1 hnodup
  rw [List.nodup_cons, List.mem_append, not_or] at hplace
  obtain ⟨hu, -, hv⟩ := (List.append_cons_inj_of_notMem hplace.1.1 hplace.1.2).1 (h.symm.trans h')
  exact ⟨hu, hv⟩

/-! ## Flushed and fenced -/

/-- The operations contain a flush with the property `p`, and a fence after it. -/
def FlushedAndFenced (p : Flush → Prop) (v : List Op) : Prop :=
  ∃ v₁ f v₂, v = v₁ ++ .flush f :: v₂ ∧ p f ∧ ∃ b, Op.fence b ∈ v₂

@[simp] theorem not_flushedAndFenced_nil {p : Flush → Prop} : ¬FlushedAndFenced p [] := by
  simp [FlushedAndFenced]

theorem flushedAndFenced_cons {p : Flush → Prop} {op : Op} {v : List Op} :
    FlushedAndFenced p (op :: v) ↔
      (∃ f, op = .flush f ∧ p f ∧ ∃ b, Op.fence b ∈ v) ∨ FlushedAndFenced p v := by
  constructor
  · rintro ⟨v₁, f, v₂, hv, hf, hb⟩
    cases v₁ with
    | nil =>
      obtain ⟨rfl, rfl⟩ := List.cons.inj hv
      exact Or.inl ⟨f, rfl, hf, hb⟩
    | cons o v₁ =>
      obtain ⟨rfl, rfl⟩ := List.cons.inj hv
      exact Or.inr ⟨v₁, f, v₂, rfl, hf, hb⟩
  · rintro (⟨f, rfl, hf, hb⟩ | ⟨v₁, f, v₂, rfl, hf, hb⟩)
    · exact ⟨[], f, v, rfl, hf, hb⟩
    · exact ⟨op :: v₁, f, v₂, rfl, hf, hb⟩

/-- In two lists of operations, the flush and the fence are in the first, in the second, or
one in each. -/
theorem flushedAndFenced_append {p : Flush → Prop} {v w : List Op} :
    FlushedAndFenced p (v ++ w) ↔ FlushedAndFenced p v ∨
      ((∃ f, Op.flush f ∈ v ∧ p f) ∧ ∃ b, Op.fence b ∈ w) ∨ FlushedAndFenced p w := by
  induction v with
  | nil => simp [FlushedAndFenced]
  | cons op v ih =>
    rw [List.cons_append, flushedAndFenced_cons, flushedAndFenced_cons, ih]
    constructor
    · rintro (⟨f, rfl, hf, b, hb⟩ | h | ⟨⟨f, hf, hp⟩, hb⟩ | h)
      · rcases List.mem_append.1 hb with hb | hb
        · exact Or.inl (Or.inl ⟨f, rfl, hf, b, hb⟩)
        · exact Or.inr (Or.inl ⟨⟨f, by simp, hf⟩, b, hb⟩)
      · exact Or.inl (Or.inr h)
      · exact Or.inr (Or.inl ⟨⟨f, List.mem_cons_of_mem _ hf, hp⟩, hb⟩)
      · exact Or.inr (Or.inr h)
    · rintro ((⟨f, rfl, hf, b, hb⟩ | h) | ⟨⟨f, hf, hp⟩, b, hb⟩ | h)
      · exact Or.inl ⟨f, rfl, hf, b, List.mem_append_left w hb⟩
      · exact Or.inr (Or.inl h)
      · rcases List.mem_cons.1 hf with rfl | hf
        · exact Or.inl ⟨f, rfl, hp, b, List.mem_append_right v hb⟩
        · exact Or.inr (Or.inr (Or.inl ⟨⟨f, hf, hp⟩, b, hb⟩))
      · exact Or.inr (Or.inr (Or.inr h))

/-- A flush that reaches `x`, and a fence after it. -/
def PersistedIn {α : Type} [Rangeable α] (x : α) (v : List Op) : Prop :=
  FlushedAndFenced (fun f => f.isInFlush x = true) v

/-- A flush of this very line, and a fence after it. -/
def LineFlushedIn (line : Nat) (v : List Op) : Prop :=
  FlushedAndFenced (fun f => f.address = line) v

/-! ## Stores, byte by byte -/

namespace Store

/-- Does the store write the byte at address `a`? -/
def covers (s : Store) (a : Nat) : Bool := decide (s.address ≤ a ∧ a < s.address + s.size)

/-- Does the store write a byte of the cacheline that starts at `line`? -/
def touches (s : Store) (line : Nat) : Bool :=
  decide (line < s.address + s.size ∧ s.address < line + cachelineBytes)

/-- The cacheline the store starts in, as `get_cacheline_address` computes it. -/
def line (s : Store) : Nat := getCachelineAddress s.address

/-- The store lies inside its cacheline: what `WitcherCacheline.accept_store` asserts. -/
def InLine (s : Store) : Prop :=
  s.line ≤ s.address ∧ s.address + s.size ≤ s.line + cachelineBytes

instance (s : Store) : Decidable s.InLine := inferInstanceAs (Decidable (_ ∧ _))

theorem dvd_line (s : Store) : cachelineBytes ∣ s.line := dvd_getCachelineAddress s.address

/-- A store that covers a byte of a line touches the line. -/
theorem touches_of_covers {s : Store} {line a : Nat} (hs : s.covers a = true)
    (h₁ : line ≤ a) (h₂ : a < line + cachelineBytes) : s.touches line = true := by
  simp only [covers, touches, decide_eq_true_eq] at *
  omega

/-- A non-empty store inside its cacheline touches no other. -/
theorem touches_iff_of_inLine {s : Store} (h : s.InLine) (hs : 1 ≤ s.size) {l : Nat}
    (hl : cachelineBytes ∣ l) : s.touches l = true ↔ l = s.line := by
  obtain ⟨m, rfl⟩ := hl
  obtain ⟨n, hn⟩ := s.dvd_line
  simp only [InLine, cachelineBytes] at h hn
  rw [hn] at h ⊢
  simp only [touches, decide_eq_true_eq]
  simp only [cachelineBytes]
  omega

/-- Stores inside their cachelines that share a byte have the same cacheline. -/
theorem line_eq_of_covers {s t : Store} (hs : s.InLine) (ht : t.InLine) {a : Nat}
    (hsa : s.covers a = true) (hta : t.covers a = true) : s.line = t.line := by
  simp only [covers, decide_eq_true_eq, InLine] at hsa hta hs ht
  exact cacheline_eq_of_overlap s.dvd_line t.dvd_line (a := a) (by omega) (by omega)

end Store

theorem Flush.isInFlush_store (f : Flush) (s : Store) : f.isInFlush s = s.touches f.address := by
  simp [Flush.isInFlush, rangeCmp_eq_iff, Store.touches, getBaseAddress, getMaxAddress]

/-- A flush reaches a non-empty store inside its cacheline exactly if it flushes that line. -/
theorem Flush.isInFlush_iff_of_inLine (f : Flush) {s : Store} (h : s.InLine) (hs : 1 ≤ s.size) :
    f.isInFlush s = true ↔ f.address = s.line := by
  rw [Flush.isInFlush_store]
  exact Store.touches_iff_of_inLine h hs (dvd_getCachelineAddress _)

end Durinn
