import Durinn.Lib.TextJoin
import Durinn.Tracer.Record

/-!
# Reading what was recorded

The lines that the run-time writes, read by `Trace.extract_operations`.

* `Call` — the calls of the record functions that write one line; `Call.Emits` says when they do.
* `run_wrote` — such a call writes the line with the fields `Call.fields`, whatever the stream was
  left like.
* `effect_line` — what the reader makes of the line.
* `roundTrip` — the operation that is read is the one that was recorded (`Call.op`).  The calls
  that delimit API calls and the modelling of locks do not record their instruction.
* `recordLockEnd_noInstruction` — an instance of that.
-/

namespace Durinn

open OStream PyText Tracer

/-- A call of a record function that writes one line. -/
inductive Call where
  | lock (id : UInt32) (p : UInt64)
  | lockBegin (id : UInt32) (p : UInt64)
  | lockEnd (id : UInt32) (p : UInt64)
  | unlock (id : UInt32) (p : UInt64)
  | unlockBegin (id : UInt32) (p : UInt64)
  | unlockEnd (id : UInt32) (p : UInt64)
  | apiBegin (id : UInt32)
  | apiEnd (id : UInt32)
  | br (id : UInt32)
  | load (id : UInt32) (p length : UInt64)
  | strLoad (id : UInt32) (p : UInt64)
  | store (id : UInt32) (p length : UInt64)
  | atomicStore (id : UInt32) (p length : UInt64)
  | strStore (id : UInt32) (p : UInt64)
  | strcatStore (id : UInt32) (p s : UInt64)
  | flush (id : UInt32) (p : UInt64)
  | fence (id : UInt32)
  | alloc (id : UInt32) (p length : UInt64)
  | txAlloc (id : UInt32) (p length : UInt64)

namespace Call

variable (t : Tracer) (tid : UInt64) (mem : Memory)

/-- Carry out the call. -/
def run : Call → Option Tracer
  | .lock id p => some (t.recordLock tid id p)
  | .lockBegin id p => some (t.recordLockBegin tid id p)
  | .lockEnd id p => some (t.recordLockEnd tid id p)
  | .unlock id p => some (t.recordUnlock tid id p)
  | .unlockBegin id p => some (t.recordUnlockBegin tid id p)
  | .unlockEnd id p => some (t.recordUnlockEnd tid id p)
  | .apiBegin id => some (t.recordAPIBegin tid id)
  | .apiEnd id => some (t.recordAPIEnd tid id)
  | .br id => some (t.recordBr tid id)
  | .load id p length => some (t.recordLoad tid id p length)
  | .strLoad id p => t.recordStrLoad tid mem id p
  | .store id p length => some (t.recordStore tid mem id p length)
  | .atomicStore id p length => some (t.recordAtomicStore tid mem id p length)
  | .strStore id p => t.recordStrStore tid mem id p
  | .strcatStore id p s => t.recordStrcatStore tid mem id p s
  | .flush id p => some (t.recordFlush tid id p)
  | .fence id => some (t.recordFence tid id)
  | .alloc id p length => some (t.recordAlloc tid id p length)
  | .txAlloc id p length => some (t.recordTxAlloc tid id p length)

/-- The string has an end, and a size that a number can hold. -/
def IsString (p : UInt64) : Prop := ∃ n, mem.strlen p = some n ∧ n + 1 < 2 ^ 64

/-- The size of a string, with the zero at its end. -/
def stringSize (p : UInt64) : Nat := (mem.strlen p).getD 0 + 1

/-- The call writes a line. -/
def Emits : Call → Prop
  | .lock _ _ | .lockBegin _ _ | .lockEnd _ _ | .unlock _ _ | .unlockBegin _ _ | .unlockEnd _ _ =>
      t.recording = true ∧ t.replayMode = false
  | .apiBegin _ | .apiEnd _ | .flush _ _ | .fence _ => t.recording = true
  | .br _ => t.noAllocBr = false ∧ t.recording = true ∧ t.replayMode = false
  | .load _ p length =>
      t.recording = true ∧ t.replayMode = false ∧ t.isPmAddr p = true ∧ length ≠ 0
  | .strLoad _ p =>
      t.recording = true ∧ t.replayMode = false ∧ t.isPmAddr p = true ∧ IsString mem p
  | .store _ p length | .atomicStore _ p length =>
      t.recording = true ∧ t.isPmAddr p = true ∧ length ≠ 0
  | .strStore _ p => t.recording = true ∧ t.isPmAddr p = true ∧ IsString mem p
  | .strcatStore _ p s =>
      t.recording = true ∧ t.isPmAddr p = true ∧ (mem.strlen p).isSome ∧ IsString mem s
  | .alloc _ p length | .txAlloc _ p length => t.noAllocBr = false ∧ t.recording = true ∧
      t.replayMode = false ∧ t.isPmAddr p = true ∧ length ≠ 0

/-- The fields of the line. -/
def fields : Call → List Text
  | .lock id p => lockEntry "Lock".toList tid p (decField id.toNat)
  | .lockBegin _ p => lockEntry "LockBegin".toList tid p "NA".toList
  | .lockEnd _ p => lockEntry "LockEnd".toList tid p "NA".toList
  | .unlock id p => lockEntry "UnLock".toList tid p (decField id.toNat)
  | .unlockBegin _ p => lockEntry "UnLockBegin".toList tid p "NA".toList
  | .unlockEnd _ p => lockEntry "UnLockEnd".toList tid p "NA".toList
  | .apiBegin _ => fenceEntry "APIBegin".toList tid "NA".toList
  | .apiEnd _ => fenceEntry "APIEnd".toList tid "NA".toList
  | .br id => fenceEntry "Br".toList tid (decField id.toNat)
  | .load id p length =>
      accessEntry "Load".toList tid (t.getPmAddr p) length.toNat (decField id.toNat)
  | .strLoad id p =>
      accessEntry "Load".toList tid (t.getPmAddr p) (stringSize mem p) (decField id.toNat)
  | .store id p length => storeEntry tid (t.getPmAddr p) length.toNat
      (fun i => ofUnsignedChar (mem (p.toNat + i))) (decField id.toNat) '0'
  | .atomicStore id p length => storeEntry tid (t.getPmAddr p) length.toNat
      (fun i => ofUnsignedChar (mem (p.toNat + i))) (decField id.toNat) '1'
  | .strStore id p => storeEntry tid (t.getPmAddr p) (stringSize mem p)
      (fun i => ofChar (mem (p.toNat + i))) (decField id.toNat) '0'
  | .strcatStore id p s => storeEntry tid (t.getPmAddr p) (stringSize mem s)
      (fun i => ofChar (mem (p.toNat + i))) (decField id.toNat) '0'
  | .flush id p => lockEntry "Flush".toList tid (t.getPmAddr p) (decField id.toNat)
  | .fence id => fenceEntry "Fence".toList tid (decField id.toNat)
  | .alloc id p length | .txAlloc id p length =>
      accessEntry "Alloc".toList tid (t.getPmAddr p) length.toNat (decField id.toNat)

/-- The kind of the line, by its first field. -/
def kind : Call → EntryKind
  | .lock _ _ => .lock
  | .lockBegin _ _ => .lockBegin
  | .lockEnd _ _ => .lockEnd
  | .unlock _ _ => .unlock
  | .unlockBegin _ _ => .unlockBegin
  | .unlockEnd _ _ => .unlockEnd
  | .apiBegin _ => .apiBegin
  | .apiEnd _ => .apiEnd
  | .br _ => .br
  | .load _ _ _ | .strLoad _ _ => .load
  | .store _ _ _ | .atomicStore _ _ _ | .strStore _ _ | .strcatStore _ _ _ => .store
  | .flush _ _ => .flush
  | .fence _ => .fence
  | .alloc _ _ _ | .txAlloc _ _ _ => .alloc

/-- The line. -/
def line (c : Call) : Text := [','].intercalate (c.fields t tid mem)

/-- The operation that was recorded, as the `i`th.  Allocations and branches are none. -/
def op (i : Nat) : Call → Option Op
  | .lock id p => some (.lock ⟨⟨i, tid.toNat, decField id.toNat⟩, p.toNat⟩)
  | .lockEnd _ p => some (.lock ⟨⟨i, tid.toNat, "NA".toList⟩, p.toNat⟩)
  | .unlock id p => some (.unlock ⟨⟨i, tid.toNat, decField id.toNat⟩, p.toNat⟩)
  | .unlockEnd _ p => some (.unlock ⟨⟨i, tid.toNat, "NA".toList⟩, p.toNat⟩)
  | .apiBegin _ => some (.apiBegin ⟨i, tid.toNat, "NA".toList⟩)
  | .apiEnd _ => some (.apiEnd ⟨i, tid.toNat, "NA".toList⟩)
  | .load id p length =>
      some (.load ⟨⟨i, tid.toNat, decField id.toNat⟩, (t.getPmAddr p).toNat, length.toNat⟩)
  | .strLoad id p =>
      some (.load ⟨⟨i, tid.toNat, decField id.toNat⟩, (t.getPmAddr p).toNat, stringSize mem p⟩)
  | .store id p length => some (.store ⟨⟨i, tid.toNat, decField id.toNat⟩, (t.getPmAddr p).toNat,
      length.toNat, mem.bytes p.toNat length.toNat, 0⟩)
  | .atomicStore id p length => some (.store ⟨⟨i, tid.toNat, decField id.toNat⟩,
      (t.getPmAddr p).toNat, length.toNat, mem.bytes p.toNat length.toNat, 1⟩)
  | .strStore id p => some (.store ⟨⟨i, tid.toNat, decField id.toNat⟩, (t.getPmAddr p).toNat,
      stringSize mem p, mem.bytes p.toNat (stringSize mem p), 0⟩)
  | .strcatStore id p s => some (.store ⟨⟨i, tid.toNat, decField id.toNat⟩,
      (t.getPmAddr p).toNat, stringSize mem s, mem.bytes p.toNat (stringSize mem s), 0⟩)
  | .flush id p => some (.flush ⟨⟨i, tid.toNat, decField id.toNat⟩, (t.getPmAddr p).toNat⟩)
  | .fence id => some (.fence ⟨i, tid.toNat, decField id.toNat⟩)
  | .lockBegin _ _ | .unlockBegin _ _ | .br _ | .alloc _ _ _ | .txAlloc _ _ _ => none

/-- The operation that the line is read as.  The bytes of strings were converted from `char`. -/
def readOp (i : Nat) (c : Call) : Option Op :=
  (c.op t tid mem i).map fun
    | .store s =>
        match c with
        | .strStore _ _ | .strcatStore _ _ _ =>
            .store { s with valueBytes := s.valueBytes.flatMap signedBytes }
        | _ => .store s
    | op => op

/-- What the reader does on the line. -/
def lineEffect (isOpen : Bool) (i : Nat) (c : Call) : Effect :=
  match c with
  | .lockBegin _ _ | .unlockBegin _ _ => .append [] true
  | .apiBegin _ => .apiBegin ⟨i, tid.toNat, "NA".toList⟩
  | .apiEnd _ => .apiEnd ⟨i, tid.toNat, "NA".toList⟩
  | .br id => if isOpen then .br (decField id.toNat) else .append [] false
  | .alloc id p length | .txAlloc id p length =>
      .alloc ⟨⟨0, tid.toNat, decField id.toNat⟩, (t.getPmAddr p).toNat, length.toNat⟩
  | .load id p _ | .strLoad id p =>
      .load (c.readOp t tid mem i).toList (t.getPmAddr p).toNat (decField id.toNat)
  | c => .append (c.readOp t tid mem i).toList false

variable {t tid mem}

/-- The size of a string, as a 64-bit number. -/
theorem IsString.size {p : UInt64} (h : IsString mem p) :
    ∃ n, mem.strlen p = some n ∧ UInt64.ofNat (n + 1) ≠ 0 ∧
      (UInt64.ofNat (n + 1)).toNat = stringSize mem p := by
  obtain ⟨n, hn, hlt⟩ := h
  have htoNat : (UInt64.ofNat (n + 1)).toNat = n + 1 := UInt64.toNat_ofNat_of_lt' hlt
  refine ⟨n, hn, fun hzero => ?_, ?_⟩
  · rw [hzero] at htoNat
    simp at htoNat
  · rw [htoNat, stringSize, hn]
    rfl

/-- **A call that is not filtered out writes its line.** -/
theorem run_wrote (tid : UInt64) (hw : t.record.width = 0) {c : Call} (h : c.Emits t mem) :
    ∃ t', c.run t tid mem = some t' ∧ t.Wrote t' (c.fields t tid mem) := by
  cases c with
  | lock id p =>
    refine ⟨_, rfl, ?_⟩
    simp only [recordLock, h.1, h.2]
    exact wrote_putLock hw _ _ _ _
  | lockBegin id p =>
    refine ⟨_, rfl, ?_⟩
    simp only [recordLockBegin, h.1, h.2]
    exact wrote_putLockModeling hw _ _ _
  | lockEnd id p =>
    refine ⟨_, rfl, ?_⟩
    simp only [recordLockEnd, h.1, h.2]
    exact wrote_putLockModeling hw _ _ _
  | unlock id p =>
    refine ⟨_, rfl, ?_⟩
    simp only [recordUnlock, h.1, h.2]
    exact wrote_putLock hw _ _ _ _
  | unlockBegin id p =>
    refine ⟨_, rfl, ?_⟩
    simp only [recordUnlockBegin, h.1, h.2]
    exact wrote_putLockModeling hw _ _ _
  | unlockEnd id p =>
    refine ⟨_, rfl, ?_⟩
    simp only [recordUnlockEnd, h.1, h.2]
    exact wrote_putLockModeling hw _ _ _
  | apiBegin id =>
    refine ⟨_, rfl, ?_⟩
    simp only [recordAPIBegin, show t.recording = true from h]
    exact wrote_putApi hw _ _
  | apiEnd id =>
    refine ⟨_, rfl, ?_⟩
    simp only [recordAPIEnd, show t.recording = true from h]
    exact wrote_putApi hw _ _
  | br id =>
    refine ⟨_, rfl, ?_⟩
    simp only [recordBr, h.1, h.2.1, h.2.2]
    exact wrote_putFence hw _ _ _
  | load id p length =>
    refine ⟨_, rfl, ?_⟩
    simp only [recordLoad, h.1, h.2.1, h.2.2.1, h.2.2.2, if_false]
    exact wrote_putAccess hw _ _ _ _ _
  | strLoad id p =>
    obtain ⟨hrec, hreplay, hpm, hstring⟩ := h
    obtain ⟨n, hn, hne, hsize⟩ := hstring.size
    refine ⟨t.putAccess "Load".toList tid (t.getPmAddr p) (UInt64.ofNat (n + 1)) id, ?_, ?_⟩
    · simp only [run, recordStrLoad, hrec, hreplay, hpm, hn, hne, Option.map_some, if_false]
      rfl
    · rw [fields, ← hsize]
      exact wrote_putAccess hw _ _ _ _ _
  | store id p length =>
    refine ⟨_, rfl, ?_⟩
    simp only [recordStore, h.1, h.2.1, h.2.2, if_false]
    exact wrote_putStore hw _ _ h.2.2 _ _ _
  | atomicStore id p length =>
    refine ⟨_, rfl, ?_⟩
    simp only [recordAtomicStore, h.1, h.2.1, h.2.2, if_false]
    exact wrote_putStore hw _ _ h.2.2 _ _ _
  | strStore id p =>
    obtain ⟨hrec, hpm, hstring⟩ := h
    obtain ⟨n, hn, hne, hsize⟩ := hstring.size
    refine ⟨t.putStore tid (t.getPmAddr p) (UInt64.ofNat (n + 1))
      (fun i => ofChar (mem (p.toNat + i))) id '0', ?_, ?_⟩
    · simp only [run, recordStrStore, hrec, hpm, hn, hne, Option.map_some, if_false]
      rfl
    · rw [fields, ← hsize]
      exact wrote_putStore hw _ _ hne _ _ _
  | strcatStore id p s =>
    obtain ⟨hrec, hpm, hp, hstring⟩ := h
    obtain ⟨m, hm⟩ := Option.isSome_iff_exists.1 hp
    obtain ⟨n, hn, hne, hsize⟩ := hstring.size
    refine ⟨t.putStore tid (t.getPmAddr p) (UInt64.ofNat (n + 1))
      (fun i => ofChar (mem (p.toNat + i))) id '0', ?_, ?_⟩
    · simp only [run, recordStrcatStore, hrec, hpm, hm, hn, hne, Option.bind_eq_bind,
        Option.bind_some, if_false]
      rfl
    · rw [fields, ← hsize]
      exact wrote_putStore hw _ _ hne _ _ _
  | flush id p =>
    refine ⟨_, rfl, ?_⟩
    simp only [recordFlush, show t.recording = true from h]
    exact wrote_putLock hw _ _ _ _
  | fence id =>
    refine ⟨_, rfl, ?_⟩
    simp only [recordFence, show t.recording = true from h]
    exact wrote_putFence hw _ _ _
  | alloc id p length | txAlloc id p length =>
    refine ⟨_, rfl, ?_⟩
    simp only [recordAlloc, recordTxAlloc, recordObject, h.1, h.2.1, h.2.2.1, h.2.2.2.1,
      h.2.2.2.2, if_false]
    exact wrote_putAccess hw _ _ _ _ _

/-! ## Reading a line -/

/-- Neither the end of a field nor of a line. -/
def Plain (field : Text) : Prop := ',' ∉ field ∧ '\n' ∉ field ∧ '\r' ∉ field

instance (field : Text) : Decidable (Plain field) := inferInstanceAs (Decidable (_ ∧ _))

theorem plain_toDigits {base : Nat} (hlo : 2 ≤ base) (hhi : base ≤ 16) (n : Nat) :
    Plain (Nat.toDigits base n) := by
  have hno : ∀ c ∈ [',', '\n', '\r'], c ∉ Nat.toDigits base n := by
    intro c hc hmem
    have hne := (isDigitChar_of_mem hlo hhi hmem).ne.2
    simp only [List.mem_cons, List.not_mem_nil, or_false] at hc hne
    tauto
  exact ⟨hno _ (by simp), hno _ (by simp), hno _ (by simp)⟩

theorem plain_bytesField (p : Nat → BitVec 32) (n : Nat) : Plain (bytesField p n) := by
  refine ⟨?_, ?_, ?_⟩
  all_goals
    refine notMem_intercalate (by decide) fun text htext hc => ?_
    obtain ⟨i, -, rfl⟩ := List.mem_map.1 htext
    exact absurd (by simp) (isDigitChar_of_mem_hexText hc).ne.2

theorem plain_fields (c : Call) : ∀ field ∈ c.fields t tid mem, Plain field := by
  have hdec : ∀ n, Plain (decField n) := plain_toDigits (by omega) (by omega)
  have hhex : ∀ n, Plain (hexField n) := plain_toDigits (by omega) (by omega)
  cases c <;> simp only [fields, lockEntry, fenceEntry, accessEntry, storeEntry,
    List.forall_mem_cons, hdec, hhex, plain_bytesField, true_and] <;> decide

theorem fields_ne_nil (c : Call) : c.fields t tid mem ≠ [] := by
  cases c <;> simp [fields, lockEntry, fenceEntry, accessEntry, storeEntry]

/-- The line is one line, and is split into its fields. -/
theorem splitOn_line (c : Call) :
    (c.line t tid mem).splitOn ',' = c.fields t tid mem ∧ '\n' ∉ c.line t tid mem := by
  constructor
  · exact List.splitOn_intercalate ',' (fun field hfield => (plain_fields c field hfield).1)
      (fields_ne_nil c)
  · exact notMem_intercalate (by decide) fun field hfield => (plain_fields c field hfield).2.1

/-- The line is one line, whatever ends lines. -/
theorem noLineEnd_line (c : Call) : '\n' ∉ c.line t tid mem ∧ '\r' ∉ c.line t tid mem :=
  ⟨(splitOn_line c).2,
    notMem_intercalate (by decide) fun field hfield => (plain_fields c field hfield).2.2⟩

@[simp] theorem natOfText_decField (n : Nat) : natOfText 10 (decField n) = some n :=
  natOfText_toDigits (Or.inl rfl) n

@[simp] theorem natOfText_hexField (n : Nat) : natOfText 16 (hexField n) = some n :=
  natOfText_toDigits (Or.inr rfl) n

/-- The store that the line of one is read as. -/
theorem parseOp_storeEntry {tid addr : UInt64} {n : Nat} (hn : 0 < n) {p : Nat → BitVec 32}
    {bytes : Nat → List UInt8} (hbytes : ∀ i, fromHex (hexText (p i)) = some (bytes i))
    {isCas : Char} {k : Nat} (hcas : natOfText 10 [isCas] = some k) (srcInfo : Text) (i : Nat) :
    parseOp (storeEntry tid addr n p srcInfo isCas) i .store =
      some (.store ⟨⟨i, tid.toNat, srcInfo⟩, addr.toNat, n, (List.range n).flatMap bytes, k⟩) := by
  have hsplit : (bytesField p n).splitOn ' ' = (List.range n).map fun i => hexText (p i) := by
    refine List.splitOn_intercalate ' ' (fun text htext hc => ?_) ?_
    · obtain ⟨i, -, rfl⟩ := List.mem_map.1 htext
      exact absurd (by simp) (isDigitChar_of_mem_hexText hc).ne.2
    · simpa using hn.ne'
  have hhex : fromHex ((List.range n).map fun i => hexText (p i)).flatten =
      some ((List.range n).flatMap bytes) := by
    rw [← List.flatMap_def]
    exact fromHex_flatMap fun i _ => hbytes i
  simp [parseOp, storeEntry, natField, Store.new, hsplit, hhex, hcas]

theorem flatMap_range_bytes (p n : Nat) (f : UInt8 → List UInt8) :
    (List.range n).flatMap (fun i => f (mem (p + i))) = (mem.bytes p n).flatMap f := by
  rw [Memory.bytes, List.flatMap_map]

theorem stringSize_pos (p : UInt64) : 0 < stringSize mem p := Nat.succ_pos _

theorem entryKind_fields (c : Call) : entryKind (c.fields t tid mem) = some c.kind := by
  cases c <;> rfl

/-- The operation that the fields are read as. -/
theorem parseOp_fields (tid : UInt64) {c : Call} (h : c.Emits t mem) (i : Nat) :
    parseOp (c.fields t tid mem) i c.kind = c.readOp t tid mem i := by
  have hzero : natOfText 10 ['0'] = some 0 := by decide
  have hone : natOfText 10 ['1'] = some 1 := by decide
  cases c with
  | store id p length =>
    rw [fields, kind, parseOp_storeEntry (toNat_pos h.2.2) (fun i => fromHex_hexText_unsigned _)
      hzero _ i, ← List.map_eq_flatMap]
    rfl
  | atomicStore id p length =>
    rw [fields, kind, parseOp_storeEntry (toNat_pos h.2.2) (fun i => fromHex_hexText_unsigned _)
      hone _ i, ← List.map_eq_flatMap]
    rfl
  | strStore id p =>
    rw [fields, kind, parseOp_storeEntry (stringSize_pos p) (fun i => fromHex_hexText_signed _)
      hzero _ i, flatMap_range_bytes]
    rfl
  | strcatStore id p s =>
    rw [fields, kind, parseOp_storeEntry (stringSize_pos s) (fun i => fromHex_hexText_signed _)
      hzero _ i, flatMap_range_bytes]
    rfl
  | _ =>
    simp [fields, lockEntry, fenceEntry, accessEntry, kind, parseOp, baseOf, natField, readOp, op]

/-- **What the reader makes of the line.** -/
theorem effect_line (tid : UInt64) {c : Call} (h : c.Emits t mem) {isOpen : Bool}
    (hopen : ∀ id, c = .apiEnd id → isOpen = true) (i : Nat) :
    effect false false isOpen i (c.line t tid mem) = some (c.lineEffect t tid mem isOpen i) := by
  have hparse := parseOp_fields tid h i
  simp only [effect, (splitOn_line c).1, entryKind_fields]
  cases c with
  | lockBegin id p | unlockBegin id p => rfl
  | apiBegin id => simp [kind, entryEffect, fields, fenceEntry, baseOf, natField, lineEffect]
  | apiEnd id =>
    simp [kind, entryEffect, fields, fenceEntry, baseOf, natField, lineEffect, hopen id rfl]
  | br id =>
    cases isOpen <;>
      simp [kind, entryEffect, fields, fenceEntry, baseOf, natField, lineEffect]
  | alloc id p length | txAlloc id p length =>
    simp [kind, entryEffect, readAlloc, fields, accessEntry, baseOf, natField, lineEffect]
  | lockEnd id p | unlockEnd id p =>
    simp only [kind] at hparse ⊢
    rw [hparse]
    rfl
  | _ =>
    simp only [kind, entryEffect] at hparse ⊢
    simp only [hparse]
    rfl

/-! ## There and back -/

/-- The bytes that are recorded as those of a string are seven-bit. -/
def Ascii (mem : Memory) : Call → Prop
  | .strStore _ p => ∀ b ∈ mem.bytes p.toNat (stringSize mem p), b < 0x80
  | .strcatStore _ p s => ∀ b ∈ mem.bytes p.toNat (stringSize mem s), b < 0x80
  | _ => True

/-- Seven-bit bytes are read back. -/
theorem flatMap_signedBytes {bytes : List UInt8} (h : ∀ b ∈ bytes, b < 0x80) :
    bytes.flatMap signedBytes = bytes := by
  induction bytes with
  | nil => rfl
  | cons b bytes ih =>
    rw [List.flatMap_cons, signedBytes_of_lt (h b List.mem_cons_self),
      ih fun c hc => h c (List.mem_cons_of_mem b hc), List.singleton_append]

theorem readOp_eq_op {c : Call} (h : c.Ascii mem) (i : Nat) :
    c.readOp t tid mem i = c.op t tid mem i := by
  cases c with
  | strStore id p => simp only [readOp, op, Option.map_some, flatMap_signedBytes h]
  | strcatStore id p s => simp only [readOp, op, Option.map_some, flatMap_signedBytes h]
  | _ => rfl

theorem ops_lineEffect (c : Call) (isOpen : Bool) (i : Nat) :
    (c.lineEffect t tid mem isOpen i).ops = (c.readOp t tid mem i).toList := by
  cases c with
  | br id => cases isOpen <;> rfl
  | _ => rfl

/-- **What was recorded is read back.**  Whatever base and fill character the stream was left
with, a call that records something writes one line; and wherever the line is read outside the
modelling of a lock, it is accepted, and appends the operation that was recorded and nothing
else.  An `APIEnd` has to come while an API call is open. -/
theorem roundTrip (tid : UInt64) {c : Call} (hw : t.record.width = 0) (hemits : c.Emits t mem)
    (hascii : c.Ascii mem) :
    ∃ t' line, c.run t tid mem = some t' ∧ t'.record.out = t.record.out ++ line ++ ['\n'] ∧
      '\n' ∉ line ∧ t'.record.width = 0 ∧
      ∀ st : Extraction, st.skipLockModeling = false →
        ((∃ id, c = .apiEnd id) → st.opCurrApiBeginIndex.isSome = true) →
        ∃ st', Extraction.step false st line = some st' ∧
          st'.ops = st.ops ++ (c.op t tid mem st.opCurrIndex).toList := by
  obtain ⟨t', hrun, base, fill, rfl⟩ := run_wrote tid hw hemits
  refine ⟨_, c.line t tid mem, hrun, rfl, (splitOn_line c).2, rfl, fun st hskip hopen => ?_⟩
  have heffect := effect_line tid hemits (fun id hid => hopen ⟨id, hid⟩) st.opCurrIndex
  refine ⟨st.perform (c.lineEffect t tid mem st.opCurrApiBeginIndex.isSome st.opCurrIndex), ?_, ?_⟩
  · rw [Extraction.step_eq_perform, hskip, heffect]
    rfl
  · rw [Extraction.perform_ops, ops_lineEffect, readOp_eq_op hascii]

/-- The run-time with persistent memory from `0x40` to `0x80`. -/
def smallPm : Tracer := ⟨⟨0x40, 0x80, 0, 0⟩, true, false, false, OStream.fresh⟩

/-- A memory that holds the string `~A` at `0x40`. -/
def smallMemory : Memory := fun a => if a = 0x40 then 0x7e else if a = 0x41 then 0x41 else 0

/-- The string is recorded after a call that left the base sixteen behind. -/
theorem roundTrip_strStore :
    ∃ t' line, Call.run (smallPm.recordLockEnd 1 7 0x40) 1 smallMemory (.strStore 8 0x40) =
        some t' ∧
      t'.record.out = (smallPm.recordLockEnd 1 7 0x40).record.out ++ line ++ ['\n'] ∧
      '\n' ∉ line ∧ t'.record.width = 0 ∧
      ∀ st : Extraction, st.skipLockModeling = false →
        ∃ st', Extraction.step false st line = some st' ∧
          st'.ops = st.ops ++
            [.store ⟨⟨st.opCurrIndex, 1, ['8']⟩, 0x40, 3, [0x7e, 0x41, 0], 0⟩] := by
  have hlen : smallMemory.strlen 0x40 = some 2 := by decide +kernel
  have hemits : (Call.strStore 8 0x40).Emits (smallPm.recordLockEnd 1 7 0x40) smallMemory :=
    ⟨by decide +kernel, by decide +kernel, 2, hlen, by norm_num⟩
  have hascii : (Call.strStore 8 0x40).Ascii smallMemory := by
    simp only [Ascii, stringSize, hlen]
    decide +kernel
  obtain ⟨t', line, hrun, hout, hline, hwidth, hread⟩ :=
    roundTrip 1 (by decide +kernel) hemits hascii
  refine ⟨t', line, hrun, hout, hline, hwidth, fun st hskip => ?_⟩
  obtain ⟨st', hstep, hops⟩ := hread st hskip (by rintro ⟨id, hid⟩; cases hid)
  refine ⟨st', hstep, hops.trans ?_⟩
  simp only [op, stringSize, hlen]
  rfl

/-- The instruction `7` is not recorded at the end of the modelling of a lock; and the line of an
`APIEnd` alone is not accepted. -/
theorem recordLockEnd_noInstruction :
    (Trace.new (smallPm.recordLockEnd 1 7 0x40).record.out false).map (fun trace => trace.ops) =
        some [.lock ⟨⟨0, 1, "NA".toList⟩, 0x40⟩] ∧
      (Trace.new (smallPm.recordAPIEnd 1 7).record.out false).isNone = true := by
  decide +kernel

end Call

end Durinn
