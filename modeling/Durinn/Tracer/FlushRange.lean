import Durinn.Persist.Cache
import Durinn.Tracer.World

/-!
# Flushing a range

The wrappers around the flush instructions take a range.  `recordFlushWrapper` aligns the pointer
to its cacheline and records one flush for each line up to the end of the range; every pointer is
translated on its own, and the reader aligns the address once more, in floating point.

* `getAlignedAddr64_toNat` — the mask rounds down to a multiple of the line.
* `flushLines_spec`, `recordFlushWrapper_lines` — what the loop writes, in as many turns as there
  are lines.
* `translate_add`, `translate_line` — the addresses in a range are translated by the same distance,
  a multiple of the line.
* `foldlM_flushLine` — how the lines of the trace are read.
* `acceptFlush_foldl` — what the flushes of a list of cachelines mark.
* `recordFlushWrapper_spec` — the flushes are those of the lines that meet the translated range,
  each once and in increasing order, and mark the operations that have a byte in one of them.  They
  also mark an operation of size 0 inside a line (`recordFlushWrapper_marks_empty`).
-/

namespace Durinn

open OStream PyText Tracer

/-! ## The loop -/

/-- `LayoutUtil::get_aligned_addr_64`, with `CACHELINE_MASK`. -/
def getAlignedAddr64 (p : UInt64) : UInt64 := p &&& ~~~(64 - 1)

theorem getAlignedAddr64_toNat (p : UInt64) :
    (getAlignedAddr64 p).toNat = p.toNat / 64 * 64 := by
  have hmask : (~~~(64 - 1) : UInt64).toNat = (2 ^ 58 - 1) * 2 ^ 6 := by decide
  rw [getAlignedAddr64, UInt64.toNat_and, hmask, show (64 : Nat) = 2 ^ 6 from rfl]
  refine Nat.eq_of_testBit_eq fun i => ?_
  simp only [Nat.testBit_and, Nat.testBit_mul_two_pow, Nat.testBit_div_two_pow,
    Nat.testBit_two_pow_sub_one]
  by_cases hlow : 6 ≤ i
  · by_cases hhigh : i < 64
    · simp [hlow, show i - 6 < 58 by omega]
    · have hbit : p.toNat.testBit i = false := Nat.testBit_lt_two_pow
        (p.toNat_lt.trans_le (Nat.pow_le_pow_right (by omega) (by omega)))
      simp [hlow, hbit, show i - 6 + 6 = i by omega]
  · simp [hlow]

namespace Tracer

variable {t : Tracer} (tid : UInt64) (id : UInt32)

/-- The loop of `recordFlushWrapper`, in so many turns at most: `none` says that they were not
enough. -/
def flushLines (stop : UInt64) :
    Nat → Tracer → UInt64 → Option Tracer
  | 0, _, _ => none
  | turns + 1, t, ptrAligned =>
      if ptrAligned < stop then
        flushLines stop turns (t.recordFlush tid id ptrAligned) (ptrAligned + 64)
      else some t

/-- `recordFlushWrapper`. -/
def recordFlushWrapper (turns : Nat) (t : Tracer) (tid : UInt64) (id : UInt32)
    (ptr length : UInt64) : Option Tracer :=
  flushLines tid id (ptr + length) turns t (getAlignedAddr64 ptr)

/-- The line that a flush at this address is recorded by. -/
def flushLine (t : Tracer) (tid : UInt64) (id : UInt32) (a : Nat) : Text :=
  (Call.flush id (UInt64.ofNat a)).line t tid fun _ => 0

theorem recordFlush_wrote (hrec : t.recording = true) (hw : t.record.width = 0) (a : Nat) :
    ∃ base fill, t.recordFlush tid id (UInt64.ofNat a) = { t with record :=
      ⟨t.record.out ++ (t.flushLine tid id a ++ ['\n']), base, fill, 0⟩ } := by
  obtain ⟨base, fill, h⟩ := wrote_putLock hw "Flush".toList tid (t.getPmAddr (UInt64.ofNat a)) id
  refine ⟨base, fill, ?_⟩
  rw [recordFlush, if_neg (by simp [hrec]), ← List.append_assoc]
  exact h

/-- **What the loop writes**, when it takes `n` turns to the end and the pointer does not wrap
around on the way. -/
theorem flushLines_spec {stop : UInt64} {a n : Nat} (hrec : t.recording = true)
    (hw : t.record.width = 0) (hlt : a + 64 * n < 2 ^ 64) (hgo : ∀ k < n, a + 64 * k < stop.toNat)
    (hstop : stop.toNat ≤ a + 64 * n) :
    ∃ t', (∀ turns, n < turns → flushLines tid id stop turns t (UInt64.ofNat a) = some t') ∧
      t'.record.out = t.record.out ++
        unlines ((List.range n).map fun k => t.flushLine tid id (a + 64 * k)) := by
  induction n generalizing t a with
  | zero =>
    have hnot : ¬UInt64.ofNat a < stop := by
      rw [UInt64.lt_iff_toNat_lt, UInt64.toNat_ofNat_of_lt' (show a < 2 ^ 64 by omega)]
      omega
    refine ⟨t, fun turns hturns => ?_, by simp [unlines]⟩
    obtain ⟨turns, rfl⟩ := Nat.exists_eq_add_one_of_ne_zero hturns.ne'
    rw [flushLines, if_neg hnot]
  | succ n ih =>
    have hnext : UInt64.ofNat a < stop := by
      rw [UInt64.lt_iff_toNat_lt, UInt64.toNat_ofNat_of_lt' (show a < 2 ^ 64 by omega)]
      exact hgo 0 (Nat.succ_pos n)
    obtain ⟨base, fill, hflush⟩ := recordFlush_wrote tid id hrec hw a
    obtain ⟨t', hrun, hout⟩ := ih (t := t.recordFlush tid id (UInt64.ofNat a)) (a := a + 64)
      (by rw [hflush]; exact hrec) (by rw [hflush]) (by omega)
      (fun k hk => by have := hgo (k + 1) (by omega); omega) (by omega)
    refine ⟨t', fun turns hturns => ?_, ?_⟩
    · obtain ⟨turns, rfl⟩ := Nat.exists_eq_add_one_of_ne_zero (by omega : turns ≠ 0)
      have hrest := hrun turns (by omega)
      rw [UInt64.ofNat_add] at hrest
      rw [flushLines, if_pos hnext]
      exact hrest
    · have hsame : (t.recordFlush tid id (UInt64.ofNat a)).flushLine tid id =
          t.flushLine tid id := by
        rw [hflush]
        rfl
      rw [hout, hsame, hflush, List.range_succ_eq_map]
      simp [unlines, Function.comp_def, Nat.mul_add, Nat.add_assoc, Nat.add_comm 64]

end Tracer

/-! ## Translated addresses -/

namespace PmRange

variable {r : PmRange} {a n : Nat}

/-- The address that is recorded for the byte at an address. -/
def translate (r : PmRange) (a : Nat) : Nat := (r.getPmAddr (UInt64.ofNat a)).toNat

/-- Both ranges consist of pages, and they do not overlap. -/
structure Paged (r : PmRange) : Prop where
  start : 4096 ∣ r.pmAddrStart.toNat
  stop : 4096 ∣ r.pmAddrEnd.toNat
  startDup : 4096 ∣ r.pmAddrStartDup.toNat
  stopDup : 4096 ∣ r.pmAddrEndDup.toNat
  disjoint : r.pmAddrEndDup.toNat ≤ r.pmAddrStart.toNat ∨
    r.pmAddrEnd.toNat ≤ r.pmAddrStartDup.toNat

theorem translate_eq (ha : a < 2 ^ 64) :
    r.translate a = if r.pmAddrStartDup.toNat ≤ a ∧ a < r.pmAddrEndDup.toNat then
      (a - r.pmAddrStartDup.toNat + r.pmAddrStart.toNat) % 2 ^ 64 else a := by
  have hto : (UInt64.ofNat a).toNat = a := UInt64.toNat_ofNat_of_lt' ha
  have hle : r.pmAddrStartDup ≤ UInt64.ofNat a ↔ r.pmAddrStartDup.toNat ≤ a := by
    rw [UInt64.le_iff_toNat_le, hto]
  have hlt : UInt64.ofNat a < r.pmAddrEndDup ↔ a < r.pmAddrEndDup.toNat := by
    rw [UInt64.lt_iff_toNat_lt, hto]
  simp only [translate, getPmAddr, hle, hlt]
  split
  · next h => rw [UInt64.toNat_add, UInt64.toNat_sub_of_le _ _ (hle.2 h.1), hto]
  · exact hto

/-- Bytes that follow each other in a range are recorded as such, if their addresses are small:
the translation does not wrap around between two of them. -/
theorem translate_add (hr : r.Paged) (h : r.Within a n)
    (hlow : ∀ i < n, r.translate (a + i) < 2 ^ 53) :
    ∀ i < n, r.translate (a + i) = r.translate a + i := by
  intro i hi
  have hlt := h.add_lt
  have hdisjoint := hr.disjoint
  -- if the translation wrapped around, the address `2 ^ 53` would have been passed before
  have hpass := hlow (2 ^ 53 - r.translate a)
  have hfirst := hlow 0 (by omega)
  unfold Within at h
  rw [Nat.add_zero] at hfirst
  rw [translate_eq (by omega)] at hpass hfirst ⊢
  rw [translate_eq (by omega)]
  by_cases hdup : r.pmAddrStartDup.toNat ≤ a ∧ a < r.pmAddrEndDup.toNat
  · rw [if_pos hdup] at hpass hfirst ⊢
    rw [if_pos (by omega)]
    by_cases hwrap : 2 ^ 53 - (a - r.pmAddrStartDup.toNat + r.pmAddrStart.toNat) % 2 ^ 64 < n
    · have := hpass hwrap
      rw [translate_eq (by omega), if_pos (by omega)] at this
      omega
    · omega
  · rw [if_neg hdup, if_neg (by omega)]

/-- The line of an address is translated to the line of its translation. -/
theorem translate_line (hr : r.Paged) (h : r.Within a n) (hn : 0 < n) :
    r.translate (a / 64 * 64) = r.translate a / 64 * 64 := by
  obtain ⟨hstart, hstop, hstartDup, hstopDup, hdisjoint⟩ := hr
  have hlt := h.add_lt
  unfold Within at h
  rw [translate_eq (by omega), translate_eq (by omega)]
  split <;> split <;> omega

theorem translate_mod (hr : r.Paged) (ha : a < 2 ^ 64) : r.translate a % 64 = a % 64 := by
  have hstart := hr.start
  have hstartDup := hr.startDup
  rw [translate_eq ha]
  split
  · rw [Nat.mod_mod_of_dvd _ (by decide)]
    omega
  · rfl

/-- The lines of a range are translated to the lines of its translation. -/
theorem translate_lines (hr : r.Paged) (h : r.Within a n) (hn : 0 < n)
    (hlow : ∀ i < n, r.translate (a + i) < 2 ^ 53) {k : Nat} (hk : a / 64 * 64 + 64 * k < a + n) :
    r.translate (a / 64 * 64 + 64 * k) = r.translate a / 64 * 64 + 64 * k := by
  cases k with
  | zero => rw [Nat.mul_zero, Nat.add_zero, Nat.add_zero, translate_line hr h hn]
  | succ k =>
    -- from the second line on, the line starts inside the range
    obtain ⟨i, hi⟩ : ∃ i, a / 64 * 64 + 64 * (k + 1) = a + i :=
      ⟨_, (Nat.add_sub_of_le (by omega)).symm⟩
    have hlt := h.add_lt
    have hmod : r.translate a % 64 = a % 64 := translate_mod hr (by omega)
    rw [hi, translate_add hr h hlow i (by omega)]
    omega

end PmRange

/-! ## Reading the lines -/

section Reading

variable {t : Tracer} {tid : UInt64} {id : UInt32} {onlyPersist : Bool}

theorem Extraction.append_append (st : Extraction) (ops ops' : List Op) :
    (st.append ops).append ops' = st.append (ops ++ ops') := by
  simp [Extraction.append, Nat.add_assoc]

theorem newline_notMem_flushLine (a : Nat) : '\n' ∉ t.flushLine tid id a :=
  (Call.splitOn_line _).2

/-- Outside the modelling of a lock, the line is read as a flush in both modes. -/
theorem step_flushLine {st : Extraction} (hskip : st.skipLockModeling = false) (a : Nat) :
    Extraction.step onlyPersist st (t.flushLine tid id a) = some (st.append
      [.flush ⟨⟨st.opCurrIndex, tid.toNat, decField id.toNat⟩, t.translate a⟩]) := by
  have hparse : parseOp ((Call.flush id (UInt64.ofNat a)).fields t tid fun _ => 0) st.opCurrIndex
      .flush = some (.flush ⟨⟨st.opCurrIndex, tid.toNat, decField id.toNat⟩, t.translate a⟩) := by
    simp [Call.fields, lockEntry, parseOp, baseOf, natField, PmRange.translate]
  simp only [Extraction.step, flushLine, (Call.splitOn_line _).1, Call.entryKind_fields, Call.kind,
    hskip]
  rw [if_neg Bool.false_ne_true, Option.bind_some, Extraction.extractEntry, hparse,
    Option.map_some]

/-- The flushes of lines that follow each other from an address on, with the next ids. -/
def flushesFrom (tid : UInt64) (id : UInt32) (index line n : Nat) : List Flush :=
  (List.range n).map fun k =>
    ⟨⟨index + k, tid.toNat, decField id.toNat⟩, line + cachelineBytes * k⟩

/-- **The lines are read as the flushes of the lines.** -/
theorem foldlM_flushLine {st : Extraction} (hskip : st.skipLockModeling = false) {a line n : Nat}
    (h : ∀ k < n, t.translate (a + 64 * k) = line + 64 * k) :
    ((List.range n).map fun k => t.flushLine tid id (a + 64 * k)).foldlM
      (Extraction.step onlyPersist) st =
        some (st.append ((flushesFrom tid id st.opCurrIndex line n).map .flush)) := by
  induction n with
  | zero => simp [flushesFrom, Extraction.append_nil]
  | succ n ih =>
    rw [List.range_succ, List.map_append, List.foldlM_append, ih fun k hk => h k (by omega)]
    simp only [List.map_cons, List.map_nil, List.foldlM_cons, List.foldlM_nil, Option.bind_eq_bind,
      Option.bind_some]
    rw [step_flushLine, h n (by omega), Extraction.append_append]
    · simp [flushesFrom, List.range_succ, Extraction.append, cachelineBytes]
    · exact hskip

/-- A line whose number is small is its own line, in floating point too. -/
theorem getCachelineAddress_of_dvd {a : Nat} (hdvd : cachelineBytes ∣ a) (ha : a < 2 ^ 53) :
    getCachelineAddress a = a := by
  obtain ⟨m, rfl⟩ := hdvd
  rw [getCachelineAddress, Nat.mul_comm, FloatDiv.truncTrueDiv_mul (by decide)
    (FloatDiv.representable_of_le (by simp only [cachelineBytes] at ha; omega))]

theorem address_flushesFrom {index line n : Nat} (hdvd : cachelineBytes ∣ line)
    (hlow : ∀ k < n, line + cachelineBytes * k < 2 ^ 53) :
    (flushesFrom tid id index line n).map Flush.address =
      (List.range n).map fun k => line + cachelineBytes * k := by
  rw [flushesFrom, List.map_map]
  refine List.map_congr_left fun k hk => ?_
  exact getCachelineAddress_of_dvd (Dvd.dvd.add hdvd (Nat.dvd_mul_right _ _))
    (hlow k (List.mem_range.1 hk))

end Reading

/-! ## Marking -/

section Marking

variable {α : Type} [Rangeable α]

/-- The operation has a byte in one of the lines. -/
def HasByteIn (lines : List Nat) (op : α) : Prop :=
  ∃ l ∈ lines, ∃ x, (l ≤ x ∧ x < l + cachelineBytes) ∧ getBaseAddress op ≤ x ∧ x < getMaxAddress op

/-- The operation has no bytes, but its address lies inside one of the lines. -/
def EmptyInside (lines : List Nat) (op : α) : Prop :=
  getMaxAddress op = getBaseAddress op ∧
    ∃ l ∈ lines, l < getBaseAddress op ∧ getBaseAddress op < l + cachelineBytes

/-- A flush is of the operations with a byte in its line, and those without bytes inside it. -/
theorem Flush.isInFlush_iff {f : Flush} {op : α} (hop : getBaseAddress op ≤ getMaxAddress op) :
    f.isInFlush op = true ↔ HasByteIn [f.address] op ∨ EmptyInside [f.address] op := by
  have hflush : f.isInFlush op = true ↔ f.address < getMaxAddress op ∧
      getBaseAddress op < f.address + cachelineBytes := by
    rw [Flush.isInFlush, decide_eq_true_iff, rangeCmp_eq_iff]
    rfl
  simp only [hflush, HasByteIn, EmptyInside, List.mem_singleton, exists_eq_left, cachelineBytes]
  refine ⟨?_, ?_⟩
  · rintro ⟨hmax, hbase⟩
    rcases hop.eq_or_lt with heq | hlt
    · exact Or.inr ⟨heq.symm, by omega, hbase⟩
    · exact Or.inl ⟨max f.address (getBaseAddress op), by omega, by omega, by omega⟩
  · rintro (⟨x, hx, hop⟩ | ⟨hempty, hl⟩) <;> omega

/-- **What flushes mark**: exactly the operations that one of them is of; the others keep their
mark. -/
theorem acceptFlush_foldl (flushes : List Flush) (c : Cache α) :
    flushes.foldl Cache.acceptFlush c = ⟨c.ops.map fun e =>
      if flushes.any fun f => f.isInFlush e.op then { e with flushing := .flushing } else e⟩ := by
  induction flushes generalizing c with
  | nil => simp
  | cons f flushes ih =>
    rw [List.foldl_cons, ih, Cache.acceptFlush, List.map_map]
    congr 1
    refine List.map_congr_left fun e _ => ?_
    cases hf : f.isInFlush e.op <;> simp [hf]

theorem hasByteIn_iff {lines : List Nat} {op : α} :
    HasByteIn lines op ↔ ∃ l ∈ lines, HasByteIn [l] op := by
  simp only [HasByteIn, List.mem_singleton, exists_eq_left]

theorem emptyInside_iff {lines : List Nat} {op : α} :
    EmptyInside lines op ↔ ∃ l ∈ lines, EmptyInside [l] op := by
  simp only [EmptyInside, List.mem_singleton, exists_eq_left]
  refine ⟨?_, ?_⟩
  · rintro ⟨hempty, l, hl, hin⟩
    exact ⟨l, hl, hempty, hin⟩
  · rintro ⟨l, hl, hempty, hin⟩
    exact ⟨hempty, l, hl, hin⟩

/-- The flushes of lines are of the operations with a byte in one of the lines, and those without
bytes inside one. -/
theorem any_isInFlush_iff {flushes : List Flush} {op : α}
    (hop : getBaseAddress op ≤ getMaxAddress op) :
    (flushes.any fun f => f.isInFlush op) = true ↔
      HasByteIn (flushes.map Flush.address) op ∨ EmptyInside (flushes.map Flush.address) op := by
  rw [hasByteIn_iff, emptyInside_iff, ← exists_or, List.any_eq_true]
  simp only [← and_or_left, Flush.isInFlush_iff hop, List.mem_map, exists_exists_and_eq_and]

/-- How a mark changes: the operation stays, and is marked exactly on the condition. -/
def Marked (hit : α → Prop) (e e' : Cell α) : Prop :=
  e'.op = e.op ∧ (hit e.op → e'.flushing = .flushing) ∧ (¬hit e.op → e'.flushing = e.flushing)

theorem marked_acceptFlush_foldl {flushes : List Flush} {c : Cache α}
    (hops : ∀ e ∈ c.ops, getBaseAddress e.op ≤ getMaxAddress e.op) :
    List.Forall₂ (Marked fun op => HasByteIn (flushes.map Flush.address) op ∨
      EmptyInside (flushes.map Flush.address) op) c.ops
      (flushes.foldl Cache.acceptFlush c).ops := by
  rw [acceptFlush_foldl, List.forall₂_map_right_iff, List.forall₂_same]
  intro e he
  simp only [Marked, ← any_isInFlush_iff (hops e he)]
  split
  · next h => exact ⟨rfl, fun _ => rfl, fun hnot => absurd h hnot⟩
  · next h => exact ⟨rfl, fun hit => absurd hit h, fun _ => rfl⟩

end Marking

/-! ## The wrapper -/

/-- The number of lines that a range meets. -/
def lineCount (a n : Nat) : Nat := (a % 64 + n + 63) / 64

theorem lt_lineCount_iff {a n k : Nat} : k < lineCount a n ↔ a / 64 * 64 + 64 * k < a + n := by
  unfold lineCount
  omega

theorem le_lineCount (a n : Nat) : a + n ≤ a / 64 * 64 + 64 * lineCount a n := by
  unfold lineCount
  omega

/-- The lines that a range meets are so many from its first one on. -/
theorem mem_lines_iff {a n l : Nat} (hn : 0 < n) :
    l ∈ (List.range (lineCount a n)).map (fun k => a / 64 * 64 + cachelineBytes * k) ↔
      cachelineBytes ∣ l ∧ ∃ i < n, l ≤ a + i ∧ a + i < l + cachelineBytes := by
  simp only [List.mem_map, List.mem_range, lt_lineCount_iff, cachelineBytes]
  refine ⟨?_, ?_⟩
  · rintro ⟨k, hk, rfl⟩
    exact ⟨by omega, a / 64 * 64 + 64 * k - a, by omega, by omega, by omega⟩
  · rintro ⟨⟨m, rfl⟩, i, hi, hle, hlt⟩
    exact ⟨m - a / 64, by omega, by omega⟩

/-- The lines of a range in one of the mappings do not reach the end of the addresses: a mapping
ends where a line does. -/
theorem PmRange.Paged.lines_lt {r : PmRange} (hr : r.Paged) {a n : Nat} (h : r.Within a n) :
    a / 64 * 64 + 64 * lineCount a n < 2 ^ 64 := by
  have := hr.stop
  have := hr.stopDup
  have := r.pmAddrEnd.toNat_lt
  have := r.pmAddrEndDup.toNat_lt
  unfold Within at h
  unfold lineCount
  omega

/-- The number of lines is small enough for so many turns. -/
theorem lineCount_le (a n : Nat) : lineCount a n ≤ n / 64 + 2 := by
  unfold lineCount
  omega

/-- **What the wrapper writes**: a line for each line that the range meets. -/
theorem recordFlushWrapper_lines {t : Tracer} (tid : UInt64) (id : UInt32) {p length : UInt64}
    (hrec : t.recording = true) (hw : t.record.width = 0) (hr : t.Paged)
    (hin : t.Within p.toNat length.toNat) :
    ∃ t', (∀ turns, length.toNat / 64 + 2 < turns →
        recordFlushWrapper turns t tid id p length = some t') ∧
      t'.record.out = t.record.out ++ unlines ((List.range (lineCount p.toNat length.toNat)).map
        fun k => t.flushLine tid id (p.toNat / 64 * 64 + 64 * k)) := by
  have hstop : (p + length).toNat = p.toNat + length.toNat := by
    rw [UInt64.toNat_add, Nat.mod_eq_of_lt hin.add_lt]
  have halign : getAlignedAddr64 p = UInt64.ofNat (p.toNat / 64 * 64) := by
    rw [← getAlignedAddr64_toNat, UInt64.ofNat_toNat]
  obtain ⟨t', hrun, hout⟩ := flushLines_spec tid id hrec hw (hr.lines_lt hin)
    (fun k hk => hstop ▸ lt_lineCount_iff.1 hk) (hstop ▸ le_lineCount p.toNat length.toNat)
  refine ⟨t', fun turns hturns => ?_, hout⟩
  rw [recordFlushWrapper, halign]
  exact hrun turns (lt_of_le_of_lt (lineCount_le _ _) hturns)

/-- The addresses of the flushes that these lines are read as. -/
theorem PmRange.address_flushes {r : PmRange} {a n : Nat} (hr : r.Paged) (h : r.Within a n)
    (hn : 0 < n) (hlow : ∀ i < n, r.translate (a + i) < 2 ^ 53) (tid : UInt64) (id : UInt32)
    (index : Nat) :
    (flushesFrom tid id index (r.translate a / 64 * 64) (lineCount a n)).map Flush.address =
      (List.range (lineCount (r.translate a) n)).map
        fun k => r.translate a / 64 * 64 + cachelineBytes * k := by
  have hlt := h.add_lt
  have hcount : lineCount a n = lineCount (r.translate a) n := by
    rw [lineCount, lineCount, translate_mod hr (by omega)]
  rw [hcount]
  refine address_flushesFrom (Nat.dvd_mul_left _ _) fun k hk => ?_
  -- a line that meets the range starts at or below its last byte
  have hlast := hlow (n - 1) (by omega)
  rw [translate_add hr h hlow _ (by omega)] at hlast
  rw [lt_lineCount_iff] at hk
  simp only [cachelineBytes]
  omega

/-- **A range flush covers exactly its cachelines.**  In enough turns the loop comes to its end,
and what it writes is, outside the modelling of a lock, read as flushes of the cachelines that meet
the translated range, each once and in increasing order.  A cache that is fed them marks exactly
the operations that have a byte in one of the lines, and those of size 0 inside one. -/
theorem recordFlushWrapper_spec {t : Tracer} (tid : UInt64) (id : UInt32) (p length : UInt64)
    (hrec : t.recording = true) (hw : t.record.width = 0) (hr : t.Paged) (hlen : 1 ≤ length)
    (hin : t.Within p.toNat length.toNat)
    (hlow : ∀ i < length.toNat, t.translate (p.toNat + i) < 2 ^ 53) :
    ∃ t' lines, (∀ turns, length.toNat / 64 + 2 < turns →
        recordFlushWrapper turns t tid id p length = some t') ∧
      t'.record.out = t.record.out ++ unlines lines ∧ (∀ line ∈ lines, '\n' ∉ line) ∧
      ∀ (onlyPersist : Bool) (st : Extraction), st.skipLockModeling = false →
        ∃ flushes : List Flush,
          lines.foldlM (Extraction.step onlyPersist) st =
            some (st.append (flushes.map .flush)) ∧
          (flushes.map Flush.address).Pairwise (· < ·) ∧
          (∀ l, l ∈ flushes.map Flush.address ↔ cachelineBytes ∣ l ∧ ∃ i < length.toNat,
            l ≤ t.translate (p.toNat + i) ∧ t.translate (p.toNat + i) < l + cachelineBytes) ∧
          ∀ {α : Type} [Rangeable α] (c : Cache α),
            (∀ e ∈ c.ops, getBaseAddress e.op ≤ getMaxAddress e.op) →
            List.Forall₂ (Marked fun op => HasByteIn (flushes.map Flush.address) op ∨
              EmptyInside (flushes.map Flush.address) op)
              c.ops (flushes.foldl Cache.acceptFlush c).ops := by
  have hpos : 0 < length.toNat := UInt64.le_iff_toNat_le.1 hlen
  obtain ⟨t', hrun, hout⟩ := recordFlushWrapper_lines tid id hrec hw hr hin
  refine ⟨t', _, hrun, hout, ?_, fun onlyPersist st hskip => ?_⟩
  · intro line hline
    obtain ⟨k, -, rfl⟩ := List.mem_map.1 hline
    exact newline_notMem_flushLine _
  · have hlines := t.address_flushes hr hin hpos hlow tid id st.opCurrIndex
    refine ⟨flushesFrom tid id st.opCurrIndex (t.translate p.toNat / 64 * 64)
      (lineCount p.toNat length.toNat), foldlM_flushLine hskip fun k hk => ?_, ?_, fun l => ?_,
      fun c hops => marked_acceptFlush_foldl hops⟩
    · exact t.translate_lines hr hin hpos hlow (lt_lineCount_iff.1 hk)
    · rw [hlines, List.pairwise_map]
      refine List.pairwise_lt_range.imp fun hk => ?_
      simp only [cachelineBytes]
      omega
    · rw [hlines, mem_lines_iff hpos]
      refine and_congr_right fun _ => exists_congr fun i => and_congr_right fun hi => ?_
      rw [t.translate_add hr hin hlow i hi]

/-- The run-time with a page of persistent memory at `0x1000` and, once more, at `0x4000`. -/
def twoPages : Tracer := ⟨⟨0x1000, 0x2000, 0x4000, 0x5000⟩, true, false, false, OStream.fresh⟩

theorem paged_twoPages : twoPages.Paged := by
  constructor <;> decide

/-- The flush of `0x31` bytes in the second mapping, from the middle of a line on. -/
theorem recordFlushWrapper_spec_secondPage :
    ∃ t' lines, recordFlushWrapper 3 twoPages 1 7 0x4050 0x31 = some t' ∧
      t'.record.out = unlines lines ∧ ∃ flushes : List Flush,
        lines.foldlM (Extraction.step false) Extraction.start =
          some (Extraction.start.append (flushes.map .flush)) ∧
        (flushes.map Flush.address).Pairwise (· < ·) ∧
        (∀ l, l ∈ flushes.map Flush.address ↔ cachelineBytes ∣ l ∧ ∃ i < 0x31,
          l ≤ twoPages.translate (0x4050 + i) ∧
            twoPages.translate (0x4050 + i) < l + cachelineBytes) ∧
        ∀ c : Cache Store, List.Forall₂ (Marked fun op => HasByteIn (flushes.map Flush.address) op ∨
          EmptyInside (flushes.map Flush.address) op)
            c.ops (flushes.foldl Cache.acceptFlush c).ops := by
  obtain ⟨t', lines, hrun, hout, -, hread⟩ := recordFlushWrapper_spec (t := twoPages) 1 7
    0x4050 0x31 rfl rfl paged_twoPages (by decide) (by decide) (by decide +kernel)
  obtain ⟨flushes, hfold, hsorted, hlines, hmarks⟩ := hread false Extraction.start rfl
  exact ⟨t', lines, hrun 3 (by decide), hout, flushes, hfold, hsorted, hlines,
    fun c => hmarks c fun e _ => Nat.le_add_right _ _⟩

/-- A store of size 0 has no byte in any line, but the flush of the line it lies in marks it. -/
theorem recordFlushWrapper_marks_empty :
    ∃ (s : Store) (f : Flush), twoPages.Paged ∧ twoPages.Within 0x1040 1 ∧
      (∀ i < 1, twoPages.translate (0x1040 + i) < 2 ^ 53) ∧
      ((recordFlushWrapper 3 twoPages 1 7 0x1040 1).bind fun t' =>
        (Trace.new ("Store,1,1044,0,,5,0\n".toList ++ t'.record.out) false).map Trace.ops) =
          some [.store s, .flush f] ∧
      ((Cache.empty.acceptOp s).acceptFlush f).getFlushingOps = [s] ∧
      ¬HasByteIn [f.address] s := by
  refine ⟨⟨⟨0, 1, ['5']⟩, 0x1044, 0, [], 0⟩, ⟨⟨1, 1, ['7']⟩, 0x1040⟩, paged_twoPages, by decide,
    by decide, by decide +kernel, by decide +kernel, ?_⟩
  rintro ⟨l, -, x, -, hbase, hmax⟩
  exact absurd hmax (Nat.not_lt.2 hbase)

end Durinn
