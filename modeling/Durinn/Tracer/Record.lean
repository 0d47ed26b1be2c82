import Durinn.Lib.OStream
import Durinn.Trace.Indices

/-!
# Writing a trace

The model of the run-time functions of `tracer/Tracing.cpp`.  The compiler pass puts calls of
them into the traced program; each appends a line to the trace file, unless recording is off or
what happened does not concern persistent memory.

The file is a C++ stream, whose base and fill character stay as the last call left them.

* `recordLock` to `recordAlloc` — the record functions; they share the output of a line of each
  shape (`putLock` to `putStore`).
* `Wrote` — what such an output appends, whatever the stream was left like.
-/

namespace Durinn

open OStream PyText

/-! ## Memory -/

/-- The bytes of the memory of the traced program. -/
abbrev Memory := Nat → UInt8

/-- The bytes from an address on. -/
def Memory.bytes (mem : Memory) (p n : Nat) : List UInt8 := (List.range n).map fun i => mem (p + i)

/-- `strlen`, on as many bytes as are left. -/
def Memory.strlenFrom (mem : Memory) : Nat → Nat → Option Nat
  | 0, _ => none
  | left + 1, p => if mem p = 0 then some 0 else (mem.strlenFrom left (p + 1)).map (· + 1)

/-- `strlen`: the number of bytes before the first zero. -/
def Memory.strlen (mem : Memory) (p : UInt64) : Option Nat :=
  mem.strlenFrom (2 ^ 64 - p.toNat) p.toNat

/-! ## The run-time -/

/-- Where the persistent memory is mapped: a range, and a second one with the same contents. -/
structure PmRange where
  pmAddrStart : UInt64
  pmAddrEnd : UInt64
  pmAddrStartDup : UInt64
  pmAddrEndDup : UInt64

/-- `is_pm_addr`. -/
def PmRange.isPmAddr (r : PmRange) (addr : UInt64) : Bool :=
  (r.pmAddrStart ≤ addr ∧ addr < r.pmAddrEnd) || (r.pmAddrStartDup ≤ addr ∧ addr < r.pmAddrEndDup)

/-- `get_pm_addr`. -/
def PmRange.getPmAddr (r : PmRange) (p : UInt64) : UInt64 :=
  if r.pmAddrStartDup ≤ p ∧ p < r.pmAddrEndDup then p - r.pmAddrStartDup + r.pmAddrStart else p

/-- The variables of the run-time. -/
structure Tracer extends PmRange where
  recording : Bool
  replayMode : Bool
  noAllocBr : Bool
  record : OStream

namespace Tracer

/-! ### Lines -/

/-- A line with an address and an instruction. -/
def putLock (t : Tracer) (name : Text) (tid addr : UInt64) (id : UInt32) : Tracer :=
  { t with record := t.record.text (name ++ [',']) |>.dec |>.unsigned tid.toNat |>.text [',']
      |>.hex |>.unsigned addr.toNat |>.text [','] |>.dec |>.unsigned id.toNat |>.endl }

/-- A line with an address and `NA` in place of the instruction. -/
def putLockModeling (t : Tracer) (name : Text) (tid addr : UInt64) : Tracer :=
  { t with record := t.record.text (name ++ [',']) |>.dec |>.unsigned tid.toNat |>.text [',']
      |>.hex |>.unsigned addr.toNat |>.text [','] |>.text "NA".toList |>.endl }

/-- A line with an instruction. -/
def putFence (t : Tracer) (name : Text) (tid : UInt64) (id : UInt32) : Tracer :=
  { t with record := t.record.text (name ++ [',']) |>.dec |>.unsigned tid.toNat |>.text [',']
      |>.dec |>.unsigned id.toNat |>.endl }

/-- A line with `NA` in place of the instruction. -/
def putApi (t : Tracer) (name : Text) (tid : UInt64) : Tracer :=
  { t with record := t.record.text (name ++ [',']) |>.dec |>.unsigned tid.toNat
      |>.text ",NA".toList |>.endl }

/-- A line with an address, a length and an instruction. -/
def putAccess (t : Tracer) (name : Text) (tid addr length : UInt64) (id : UInt32) : Tracer :=
  { t with record := t.record.text (name ++ [',']) |>.dec |>.unsigned tid.toNat |>.text [',']
      |>.hex |>.unsigned addr.toNat |>.text [','] |>.dec |>.unsigned length.toNat |>.text [',']
      |>.dec |>.unsigned id.toNat |>.endl }

/-- `record << std::hex << std::setfill('0') << std::setw(2) << n`. -/
def putByte (os : OStream) (n : BitVec 32) : OStream := ((os.hex.setfill '0').setw 2).int n

/-- The loop over the bytes but the last, and the last. -/
def putBytes (os : OStream) (p : Nat → BitVec 32) (length : Nat) : OStream :=
  putByte ((List.range (length - 1)).foldl (fun os i => (putByte os (p i)).text [' ']) os)
    (p (length - 1))

/-- The line of a store, with the bytes converted to `int`. -/
def putStore (t : Tracer) (tid addr length : UInt64) (p : Nat → BitVec 32) (id : UInt32)
    (isCas : Char) : Tracer :=
  let os := t.record.text "Store,".toList |>.dec |>.unsigned tid.toNat |>.text [',']
      |>.hex |>.unsigned addr.toNat |>.text [','] |>.dec |>.unsigned length.toNat |>.text [',']
  { t with record := (putBytes os p length.toNat).text [','] |>.dec |>.unsigned id.toNat
      |>.text [',', isCas] |>.endl }

/-! ### The record functions -/

variable (t : Tracer) (tid : UInt64) (mem : Memory)

def recordLock (id : UInt32) (p : UInt64) : Tracer :=
  if !t.recording then t
  else if t.replayMode then t
  else t.putLock "Lock".toList tid p id

def recordLockBegin (_id : UInt32) (p : UInt64) : Tracer :=
  if !t.recording then t
  else if t.replayMode then t
  else t.putLockModeling "LockBegin".toList tid p

def recordLockEnd (_id : UInt32) (p : UInt64) : Tracer :=
  if !t.recording then t
  else if t.replayMode then t
  else t.putLockModeling "LockEnd".toList tid p

def recordUnlock (id : UInt32) (p : UInt64) : Tracer :=
  if !t.recording then t
  else if t.replayMode then t
  else t.putLock "UnLock".toList tid p id

def recordUnlockBegin (_id : UInt32) (p : UInt64) : Tracer :=
  if !t.recording then t
  else if t.replayMode then t
  else t.putLockModeling "UnLockBegin".toList tid p

def recordUnlockEnd (_id : UInt32) (p : UInt64) : Tracer :=
  if !t.recording then t
  else if t.replayMode then t
  else t.putLockModeling "UnLockEnd".toList tid p

def recordAPIBegin (_id : UInt32) : Tracer :=
  if !t.recording then t
  else t.putApi "APIBegin".toList tid

def recordAPIEnd (_id : UInt32) : Tracer :=
  if !t.recording then t
  else t.putApi "APIEnd".toList tid

def recordBr (id : UInt32) : Tracer :=
  if t.noAllocBr then t
  else if !t.recording then t
  else if t.replayMode then t
  else t.putFence "Br".toList tid id

def recordLoad (id : UInt32) (p length : UInt64) : Tracer :=
  if !t.recording then t
  else if t.replayMode then t
  else if !t.isPmAddr p then t
  else if length = 0 then t
  else t.putAccess "Load".toList tid (t.getPmAddr p) length id

/-- `none` if the string has no end. -/
def recordStrLoad (id : UInt32) (p : UInt64) : Option Tracer :=
  if !t.recording then some t
  else if t.replayMode then some t
  else if !t.isPmAddr p then some t
  else (mem.strlen p).map fun n =>
    let length := UInt64.ofNat (n + 1)
    if length = 0 then t
    else t.putAccess "Load".toList tid (t.getPmAddr p) length id

def recordStore (id : UInt32) (p length : UInt64) : Tracer :=
  if !t.recording then t
  else if !t.isPmAddr p then t
  else if length = 0 then t
  else t.putStore tid (t.getPmAddr p) length (fun i => ofUnsignedChar (mem (p.toNat + i))) id '0'

def recordAtomicStore (id : UInt32) (p length : UInt64) : Tracer :=
  if !t.recording then t
  else if !t.isPmAddr p then t
  else if length = 0 then t
  else t.putStore tid (t.getPmAddr p) length (fun i => ofUnsignedChar (mem (p.toNat + i))) id '1'

/-- `none` if the string has no end.  The bytes are of type `char`. -/
def recordStrStore (id : UInt32) (p : UInt64) : Option Tracer :=
  if !t.recording then some t
  else if !t.isPmAddr p then some t
  else (mem.strlen p).map fun n =>
    let length := UInt64.ofNat (n + 1)
    if length = 0 then t
    else t.putStore tid (t.getPmAddr p) length (fun i => ofChar (mem (p.toNat + i))) id '0'

/-- `none` if one of the strings has no end.  What `strlen(p)` is for, the place where the string
was appended, is not used. -/
def recordStrcatStore (id : UInt32) (p s : UInt64) : Option Tracer :=
  if !t.recording then some t
  else if !t.isPmAddr p then some t
  else do
    let _ ← mem.strlen p
    let n ← mem.strlen s
    let length := UInt64.ofNat (n + 1)
    return if length = 0 then t
      else t.putStore tid (t.getPmAddr p) length (fun i => ofChar (mem (p.toNat + i))) id '0'

def recordFlush (id : UInt32) (p : UInt64) : Tracer :=
  if !t.recording then t
  else t.putLock "Flush".toList tid (t.getPmAddr p) id

def recordFence (id : UInt32) : Tracer :=
  if !t.recording then t
  else t.putFence "Fence".toList tid id

/-- What `recordAlloc` and `recordTxAlloc` do, after `pmemobj_direct` has given the address. -/
def recordObject (id : UInt32) (p length : UInt64) : Tracer :=
  if t.noAllocBr then t
  else if !t.recording then t
  else if t.replayMode then t
  else if !t.isPmAddr p then t
  else if length = 0 then t
  else t.putAccess "Alloc".toList tid (t.getPmAddr p) length id

/-- `recordAlloc`, which is passed a pointer to the object. -/
def recordAlloc (id : UInt32) (p length : UInt64) : Tracer := t.recordObject tid id p length

/-- `recordTxAlloc`, which is passed the object. -/
def recordTxAlloc (id : UInt32) (p length : UInt64) : Tracer := t.recordObject tid id p length

/-! ### What a line is -/

variable {t}

/-- The line with these fields was written, and nothing else changed but how the stream
formats. -/
def Wrote (t t' : Tracer) (fields : List Text) : Prop :=
  ∃ base fill, t' = { t with record :=
    ⟨t.record.out ++ [','].intercalate fields ++ ['\n'], base, fill, 0⟩ }

/-- The fields of a number, in base ten and sixteen. -/
abbrev decField (n : Nat) : Text := Nat.toDigits 10 n

@[inherit_doc decField]
abbrev hexField (n : Nat) : Text := Nat.toDigits 16 n

/-- The field of the bytes of a store. -/
def bytesField (p : Nat → BitVec 32) (n : Nat) : Text :=
  [' '].intercalate ((List.range n).map fun i => hexText (p i))

/-- The fields of a line about an instruction. -/
def fenceEntry (name : Text) (tid : UInt64) (srcInfo : Text) : List Text :=
  [name, decField tid.toNat, srcInfo]

/-- The fields of a line about an address. -/
def lockEntry (name : Text) (tid addr : UInt64) (srcInfo : Text) : List Text :=
  [name, decField tid.toNat, hexField addr.toNat, srcInfo]

/-- The fields of a line about a range. -/
def accessEntry (name : Text) (tid addr : UInt64) (length : Nat) (srcInfo : Text) : List Text :=
  [name, decField tid.toNat, hexField addr.toNat, decField length, srcInfo]

/-- The fields of a line about a store. -/
def storeEntry (tid addr : UInt64) (length : Nat) (p : Nat → BitVec 32) (srcInfo : Text)
    (isCas : Char) : List Text :=
  ["Store".toList, decField tid.toNat, hexField addr.toNat, decField length, bytesField p length,
    srcInfo, [isCas]]

theorem wrote_putLock (hw : t.record.width = 0) (name : Text) (tid addr : UInt64) (id : UInt32) :
    t.Wrote (t.putLock name tid addr id) (lockEntry name tid addr (decField id.toNat)) := by
  obtain ⟨r, recording, replay, noAlloc, ⟨out, base, fill, width⟩⟩ := t
  cases hw
  exact ⟨10, fill, by simp [putLock, lockEntry, List.intercalate]⟩

theorem wrote_putLockModeling (hw : t.record.width = 0) (name : Text) (tid addr : UInt64) :
    t.Wrote (t.putLockModeling name tid addr) (lockEntry name tid addr "NA".toList) := by
  obtain ⟨r, recording, replay, noAlloc, ⟨out, base, fill, width⟩⟩ := t
  cases hw
  exact ⟨16, fill, by simp [putLockModeling, lockEntry, List.intercalate]⟩

theorem wrote_putFence (hw : t.record.width = 0) (name : Text) (tid : UInt64) (id : UInt32) :
    t.Wrote (t.putFence name tid id) (fenceEntry name tid (decField id.toNat)) := by
  obtain ⟨r, recording, replay, noAlloc, ⟨out, base, fill, width⟩⟩ := t
  cases hw
  exact ⟨10, fill, by simp [putFence, fenceEntry, List.intercalate]⟩

theorem wrote_putApi (hw : t.record.width = 0) (name : Text) (tid : UInt64) :
    t.Wrote (t.putApi name tid) (fenceEntry name tid "NA".toList) := by
  obtain ⟨r, recording, replay, noAlloc, ⟨out, base, fill, width⟩⟩ := t
  cases hw
  exact ⟨10, fill, by simp [putApi, fenceEntry, List.intercalate]⟩

theorem wrote_putAccess (hw : t.record.width = 0) (name : Text) (tid addr length : UInt64)
    (id : UInt32) :
    t.Wrote (t.putAccess name tid addr length id)
      (accessEntry name tid addr length.toNat (decField id.toNat)) := by
  obtain ⟨r, recording, replay, noAlloc, ⟨out, base, fill, width⟩⟩ := t
  cases hw
  exact ⟨10, fill, by simp [putAccess, accessEntry, List.intercalate]⟩

theorem intercalate_concat {α : Type} (sep x : List α) (ls : List (List α)) :
    sep.intercalate (ls ++ [x]) = ls.flatMap (fun l => l ++ sep) ++ x := by
  induction ls with
  | nil => simp [List.intercalate]
  | cons l ls ih =>
    rw [List.cons_append, List.intercalate_cons_of_ne_nil (by simp), ih]
    simp

/-- The bytes of a store, whatever the stream was set to. -/
theorem putBytes_eq (out : Text) (base : Nat) (fill : Char) (p : Nat → BitVec 32) {n : Nat}
    (hn : 0 < n) :
    putBytes ⟨out, base, fill, 0⟩ p n = ⟨out ++ bytesField p n, 16, '0', 0⟩ := by
  have hloop : ∀ m, ∃ base' fill', (List.range m).foldl (fun os i => (putByte os (p i)).text [' '])
      ⟨out, base, fill, 0⟩ = ⟨out ++ ((List.range m).map fun i => hexText (p i)).flatMap
        (fun l => l ++ [' ']), base', fill', 0⟩ := by
    intro m
    induction m with
    | zero => exact ⟨base, fill, by simp⟩
    | succ m ih =>
      obtain ⟨base', fill', ih⟩ := ih
      refine ⟨16, '0', ?_⟩
      rw [List.range_succ, List.foldl_append, ih]
      simp [putByte]
  obtain ⟨m, rfl⟩ : ∃ m, n = m + 1 := ⟨n - 1, by omega⟩
  obtain ⟨base', fill', hloop⟩ := hloop m
  rw [putBytes, Nat.add_sub_cancel, hloop, putByte, hex_mk, int_setw, bytesField, List.range_succ,
    List.map_append, List.map_singleton, intercalate_concat, List.append_assoc]

theorem toNat_pos {length : UInt64} (h : length ≠ 0) : 0 < length.toNat :=
  Nat.pos_of_ne_zero fun hzero => h (UInt64.toNat_inj.1 hzero)

theorem wrote_putStore (hw : t.record.width = 0) (tid addr : UInt64) {length : UInt64}
    (hlength : length ≠ 0) (p : Nat → BitVec 32) (id : UInt32) (isCas : Char) :
    t.Wrote (t.putStore tid addr length p id isCas)
      (storeEntry tid addr length.toNat p (decField id.toNat) isCas) := by
  obtain ⟨r, recording, replay, noAlloc, ⟨out, base, fill, width⟩⟩ := t
  cases hw
  exact ⟨10, '0', by simp [putStore, putBytes_eq _ _ _ _ (toNat_pos hlength), storeEntry,
    List.intercalate]⟩

end Tracer

end Durinn
