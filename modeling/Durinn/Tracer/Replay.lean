import Durinn.Persist.BinaryFile
import Durinn.Tracer.World

/-!
# Replaying what was recorded

The writes that the compiler pass instruments, as `tracer/tracer_pass.cpp` does: the record
functions for what a write reads run before it, and the one for what it writes runs after it and
finds out from the memory what was written.

* `Write`, `Write.step` — a write with the calls of record functions around it.
* `Reads` — the trace file so far is read without an exception, and has these stores.
* `step_spec` — a write, and when the stores that it adds to the trace put into the persistent
  memory what the write did (`Write.Recorded`).
* `replays_iff_recorded` — the same for whole runs: after every write, replaying the trace gives the
  contents of the persistent memory, if and only if every write meets its condition.  Only the
  condition of `strcat` asks for more than seven-bit characters: its record function takes the
  bytes from the beginning of the string and not from where the other string was appended.
-/

namespace Durinn

open Image OStream PyText

/-- The bytes of a 64-bit number, as they lie in memory. -/
def leBytes (v : UInt64) : List UInt8 := (List.range 8).map fun i => UInt8.ofNat (v.toNat / 256 ^ i)

/-- `recordCAS`; `none` where `memcmp` reads beyond `v`. -/
def Tracer.recordCAS (t : Tracer) (tid : UInt64) (mem : Memory) (id : UInt32)
    (p v length : UInt64) : Option Tracer :=
  let t := t.recordLoad tid id p length
  if 8 < length.toNat then none
  else if mem.bytes p.toNat length.toNat = (leBytes v).take length.toNat then
    some (t.recordAtomicStore tid mem id p length)
  else some t

/-! ## Writes -/

/-- A write, with its instruction.  What an `atomicrmw` computes is given by its result. -/
inductive Write where
  | store (id : UInt32) (p : UInt64) (bytes : List UInt8)
  | atomicRMW (id : UInt32) (p : UInt64) (bytes : List UInt8)
  | cmpXchg (id : UInt32) (p : UInt64) (expected : List UInt8) (v length : UInt64)
  | memset (id : UInt32) (p : UInt64) (b : UInt8) (length : UInt64)
  /-- `memcpy` or `memmove`. -/
  | memcpy (id : UInt32) (p src length : UInt64)
  | strcpy (id : UInt32) (p s : UInt64)
  | strcat (id : UInt32) (p s : UInt64)

namespace Write

/-- Where the write puts which bytes; `none` if a string has no end. -/
def target (mem : Memory) : Write → Option (Nat × List UInt8)
  | .store _ p bytes | .atomicRMW _ p bytes => some (p.toNat, bytes)
  | .cmpXchg _ p expected v length =>
      if mem.bytes p.toNat length.toNat = expected then
        some (p.toNat, (leBytes v).take length.toNat)
      else some (p.toNat, [])
  | .memset _ p b length => some (p.toNat, List.replicate length.toNat b)
  | .memcpy _ p src length => some (p.toNat, mem.bytes src.toNat length.toNat)
  | .strcpy _ p s => (mem.strlen s).map fun n => (p.toNat, mem.bytes s.toNat (n + 1))
  | .strcat _ p s => do
      let m ← mem.strlen p
      let n ← mem.strlen s
      return (p.toNat + m, mem.bytes s.toNat (n + 1))

variable (t : Tracer) (tid : UInt64) (mem : Memory)

/-- The calls before the write. -/
def recordBefore : Write → Option Tracer
  | .memcpy id _ src length => some (t.recordLoad tid id src length)
  | .strcpy id _ s => t.recordStrLoad tid mem id s
  | .strcat id p s => (t.recordStrLoad tid mem id p).bind fun t => t.recordStrLoad tid mem id s
  | _ => some t

/-- The call after the write. -/
def recordAfter : Write → Option Tracer
  | .store id p bytes => some (t.recordStore tid mem id p (UInt64.ofNat bytes.length))
  | .atomicRMW id p bytes => some (t.recordAtomicStore tid mem id p (UInt64.ofNat bytes.length))
  | .cmpXchg id p _ v length => t.recordCAS tid mem id p v length
  | .memset id p _ length => some (t.recordStore tid mem id p length)
  | .memcpy id p _ length => some (t.recordStore tid mem id p length)
  | .strcpy id p _ => t.recordStrStore tid mem id p
  | .strcat id p s => t.recordStrcatStore tid mem id p s

/-- A write, as it is instrumented. -/
def step (s : World × Tracer) (x : Write) : Option (World × Tracer) := do
  let mem := s.1.read s.2.toPmRange
  let t ← x.recordBefore s.2 tid mem
  let (a, bytes) ← x.target mem
  let w := s.1.write s.2.toPmRange a bytes
  let t ← x.recordAfter t tid (w.read s.2.toPmRange)
  return (w, t)

end Write

/-! ## The trace so far -/

/-- The trace file is read without an exception, and has these stores; apart from the file, the
run-time is as it was. -/
structure Reads (t₀ t : Tracer) (ss : List Store) : Prop where
  same : t = { t₀ with record := t.record }
  width : t.record.width = 0
  read : ∃ entries st, t.record.out = unlines entries ∧
    (∀ entry ∈ entries, '\n' ∉ entry ∧ '\r' ∉ entry) ∧
    entries.foldlM (Extraction.step false) Extraction.start = some st ∧
    st.skipLockModeling = false ∧ storesOf st.ops = ss

namespace Reads

variable {t₀ t : Tracer} {ss : List Store} {mem : Memory}

/-- What the checkers read. -/
theorem trace (h : Reads t₀ t ss) :
    ∃ trace, Trace.new t.record.out false = some trace ∧ storesOf trace.ops = ss := by
  obtain ⟨entries, st, hout, hlines, hrun, -, hss⟩ := h.read
  refine ⟨st.toTrace, ?_, hss⟩
  have hentries : terminated '\n' (universalNewlines t.record.out) = entries := by
    rw [hout]
    exact terminated_universalNewlines_unlines hlines
  rw [Trace.new, hentries, Trace.extractOperations, hrun]
  rfl

/-- **A call adds its operation to what is read**, unless it delimits something. -/
theorem call (h : Reads t₀ t ss) (tid : UInt64) {c : Call} (hemits : c.Emits t mem)
    (hkind : c.kind = .load ∨ c.kind = .store) :
    ∃ t' i, c.run t tid mem = some t' ∧
      Reads t₀ t' (ss ++ storesOf (c.readOp t₀ tid mem i).toList) := by
  obtain ⟨t', hrun, base, fill, rfl⟩ := Call.run_wrote tid h.width hemits
  obtain ⟨entries, st, hout, hlines, hread, hskip, rfl⟩ := h.read
  have hopen : ∀ id, c = .apiEnd id → st.opCurrApiBeginIndex.isSome = true := by
    rintro id rfl
    rcases hkind with hkind | hkind <;> cases hkind
  have heffect := Call.effect_line tid hemits hopen st.opCurrIndex
  refine ⟨_, st.opCurrIndex, hrun, ?_, rfl, entries ++ [c.line t tid mem],
    st.perform (c.lineEffect t tid mem st.opCurrApiBeginIndex.isSome st.opCurrIndex), ?_, ?_, ?_,
    ?_, ?_⟩
  · rw [h.same]
  · rw [hout]
    simp [unlines, Call.line]
  · intro entry hentry
    rcases List.mem_append.1 hentry with hentry | hentry
    · exact hlines entry hentry
    · rw [List.mem_singleton.1 hentry]
      exact Call.noLineEnd_line c
  · rw [List.foldlM_append, hread]
    simp only [Option.bind_eq_bind, Option.bind_some, List.foldlM_cons, List.foldlM_nil]
    rw [Extraction.step_eq_perform, hskip, heffect]
    rfl
  · rw [Extraction.perform_skip, hskip]
    cases c <;> first | rfl | rcases hkind with hkind | hkind <;> cases hkind
  · rw [Extraction.perform_ops, Call.ops_lineEffect, storesOf_append]
    congr 2
    rw [h.same]
    cases c <;> rfl

/-! ### Loads -/

theorem recordLoad (h : Reads t₀ t ss) (tid : UInt64) (id : UInt32) (p length : UInt64) :
    Reads t₀ (t.recordLoad tid id p length) ss := by
  by_cases hemits : (Call.load id p length).Emits t fun _ => 0
  · obtain ⟨t', i, hrun, hreads⟩ := h.call tid hemits (Or.inl rfl)
    cases hrun
    rwa [show storesOf ((Call.load id p length).readOp t₀ tid _ i).toList = [] from rfl,
      List.append_nil] at hreads
  · have hnone : t.recordLoad tid id p length = t := by
      unfold Tracer.recordLoad
      split_ifs <;> simp_all [Call.Emits]
    rwa [hnone]

theorem recordStrLoad (h : Reads t₀ t ss) (tid : UInt64) (id : UInt32) {p : UInt64} {n : Nat}
    (hn : mem.strlen p = some n) :
    ∃ t', t.recordStrLoad tid mem id p = some t' ∧ Reads t₀ t' ss := by
  by_cases hemits : (Call.strLoad id p).Emits t mem
  · obtain ⟨t', i, hrun, hreads⟩ := h.call tid hemits (Or.inl rfl)
    rw [show storesOf ((Call.strLoad id p).readOp t₀ tid mem i).toList = [] from rfl,
      List.append_nil] at hreads
    exact ⟨t', hrun, hreads⟩
  · refine ⟨t, ?_, h⟩
    -- the size of the string is 0 in 64 bits if it takes up all of the memory
    have hzero : t.recording = true → t.replayMode = false → t.isPmAddr p = true →
        UInt64.ofNat (n + 1) = 0 := by
      intro hrec hreplay hpm
      by_contra hne
      refine hemits ⟨hrec, hreplay, hpm, n, hn, ?_⟩
      have hlt := (Memory.strlen_eq_some_iff.1 hn).1
      by_contra hge
      have hsize : n + 1 = 2 ^ 64 := by omega
      exact hne (by rw [hsize]; rfl)
    unfold Tracer.recordStrLoad
    split_ifs
    · rfl
    · rfl
    · rfl
    · rw [hn, Option.map_some]
      simp_all

end Reads

/-! ## Stores -/

/-- Writing the stores to an image puts the bytes there, if `ok` holds, and fails otherwise. -/
def Puts (start : Nat) (new : List Store) (i : Nat) (bytes : List UInt8) (ok : Prop) : Prop :=
  ∀ pm file, (bytes ≠ [] → i + bytes.length ≤ pm.length) →
    (doStores (BinaryFile.mk start pm) new = some file ↔ ok ∧ file = ⟨start, splice pm i bytes⟩)

theorem puts_nil (start i : Nat) : Puts start [] i [] True := by
  intro pm file _
  rw [doStores_nil, splice_nil, Option.some.injEq, true_and, eq_comm]

/-- A store whose bytes were read in some way. -/
theorem puts_singleton {start i : Nat} {s : Store} {bytes : List UInt8} {ok : Prop}
    (hne : bytes ≠ []) (haddr : s.address = start + i) (hsize : s.size = bytes.length)
    (hok : s.valueBytes.length = s.size ↔ ok) (hbytes : ok → s.valueBytes = bytes) :
    Puts start [s] i bytes ok := by
  intro pm file hin
  have hin := hin hne
  have hassign : sliceAssign pm ((s.address : Int) - start)
      (((s.address + s.size : Nat) : Int) - start) s.valueBytes =
        if s.valueBytes.length = s.size then
          some (splice pm (s.address - start) s.valueBytes) else none :=
    sliceAssign_eq_splice s.valueBytes (by omega) (by omega)
  rw [doStores_singleton]
  simp only [doStore, getBaseAddress, getMaxAddress, hassign]
  by_cases h : ok
  · rw [if_pos (hok.2 h), hbytes h, haddr, Nat.add_sub_cancel_left, Option.map_some,
      Option.some.injEq, and_iff_right h, eq_comm]
  · rw [if_neg (fun hl => h (hok.1 hl))]
    simp [h]

theorem length_signedBytes (bytes : List UInt8) :
    (bytes.flatMap signedBytes).length = bytes.length ↔ ∀ b ∈ bytes, b < 0x80 := by
  have hle : ∀ bytes : List UInt8, bytes.length ≤ (bytes.flatMap signedBytes).length := by
    intro bytes
    induction bytes with
    | nil => simp
    | cons b bytes ih =>
      have hb : 1 ≤ (signedBytes b).length := by
        unfold signedBytes
        split <;> simp
      rw [List.flatMap_cons, List.length_append, List.length_cons]
      omega
  refine ⟨fun h => ?_, fun h => by rw [Call.flatMap_signedBytes h]⟩
  induction bytes with
  | nil => simp
  | cons b bytes ih =>
    rw [List.flatMap_cons, List.length_append, List.length_cons] at h
    have hrest := hle bytes
    by_cases hb : b < 0x80
    · rw [signedBytes_of_lt hb, List.length_singleton] at h
      exact List.forall_mem_cons.2 ⟨hb, ih (by omega)⟩
    · rw [signedBytes, if_neg hb] at h
      simp only [List.length_cons, List.length_nil] at h
      omega

namespace Reads

variable {t₀ t : Tracer} {ss : List Store} {mem : Memory} {size : Nat}

/-- The record functions whose bytes are of type `unsigned char`. -/
theorem recordStore (h : Reads t₀ t ss) (hrec : t₀.recording = true) (hr : t₀.Maps size)
    (tid : UInt64) (mem : Memory) (id : UInt32) {p length : UInt64}
    (hin : t₀.Within p.toNat length.toNat) {c : Call}
    (hc : c = .store id p length ∨ c = .atomicStore id p length) :
    ∃ t' new, c.run t tid mem = some t' ∧ Reads t₀ t' (ss ++ new) ∧
      Puts t₀.pmAddrStart.toNat new (t₀.index p.toNat) (mem.bytes p.toNat length.toNat) True := by
  by_cases hlength : length = 0
  · refine ⟨t, [], ?_, by rwa [List.append_nil], ?_⟩
    · rcases hc with rfl | rfl
      · simp [Call.run, Tracer.recordStore, hlength]
      · simp [Call.run, Tracer.recordAtomicStore, hlength]
    · rw [hlength]
      exact puts_nil _ _
  · have hpos := Tracer.toNat_pos hlength
    have hemits : c.Emits t mem := by
      have hguards : t.recording = true ∧ t.isPmAddr p = true ∧ length ≠ 0 := by
        rw [h.same]
        exact ⟨hrec, hin.isPmAddr hpos, hlength⟩
      rcases hc with rfl | rfl <;> exact hguards
    obtain ⟨t', i, hrun, hreads⟩ := h.call tid hemits
      (by rcases hc with rfl | rfl <;> exact Or.inr rfl)
    refine ⟨t', _, hrun, hreads, ?_⟩
    have haddr := hr.getPmAddr hin hpos
    have hlen : (mem.bytes p.toNat length.toNat).length = length.toNat := Memory.length_bytes _ _ _
    have hne : mem.bytes p.toNat length.toNat ≠ [] := List.ne_nil_of_length_pos (by rwa [hlen])
    rcases hc with rfl | rfl
    all_goals
      refine puts_singleton hne ?_ ?_ ?_ fun _ => rfl
      · exact haddr
      · exact hlen.symm
      · exact iff_of_true hlen trivial

/-- The record functions whose bytes are of type `char`. -/
theorem recordString (h : Reads t₀ t ss) (hr : t₀.Maps size) (tid : UInt64) (id : UInt32)
    {p s : UInt64} (hin : t₀.Within p.toNat (Call.stringSize mem s)) {c : Call}
    (hemits : c.Emits t mem) (hc : c = .strcatStore id p s ∨ c = .strStore id p ∧ s = p) :
    ∃ t' new, c.run t tid mem = some t' ∧ Reads t₀ t' (ss ++ new) ∧
      Puts t₀.pmAddrStart.toNat new (t₀.index p.toNat)
        (mem.bytes p.toNat (Call.stringSize mem s))
        (∀ b ∈ mem.bytes p.toNat (Call.stringSize mem s), b < 0x80) := by
  have hlen : Call.stringSize mem s = (mem.bytes p.toNat (Call.stringSize mem s)).length :=
    (Memory.length_bytes _ _ _).symm
  have hok := length_signedBytes (mem.bytes p.toNat (Call.stringSize mem s))
  rw [← hlen] at hok
  have hne : mem.bytes p.toNat (Call.stringSize mem s) ≠ [] :=
    List.ne_nil_of_length_pos (hlen ▸ Call.stringSize_pos s)
  obtain ⟨t', i, hrun, hreads⟩ :=
    h.call tid hemits (by rcases hc with rfl | ⟨rfl, rfl⟩ <;> exact Or.inr rfl)
  refine ⟨t', _, hrun, hreads, ?_⟩
  have haddr := hr.getPmAddr hin (Call.stringSize_pos s)
  rcases hc with rfl | ⟨rfl, rfl⟩
  all_goals
    refine puts_singleton hne ?_ ?_ ?_ fun hok => Call.flatMap_signedBytes hok
    · exact haddr
    · exact hlen
    · exact hok

end Reads

/-! ## One write -/

namespace Write

/-- The write is one that a program may do: strings have an end, everything that is written is
persistent memory, `strcat` does not overwrite the string it appends, and what is exchanged is at
most a word (the pass extends it to one). -/
def Defined (r : PmRange) (w : World) : Write → Prop
  | .store _ p bytes | .atomicRMW _ p bytes =>
      bytes.length < 2 ^ 64 ∧ r.Within p.toNat bytes.length
  | .cmpXchg _ p _ _ length => length.toNat ≤ 8 ∧ r.Within p.toNat length.toNat
  | .memset _ p _ length | .memcpy _ p _ length => r.Within p.toNat length.toNat
  | .strcpy _ p s => ∃ n, (w.read r).strlen s = some n ∧ r.Within p.toNat (n + 1)
  | .strcat _ p s => ∃ m n, (w.read r).strlen p = some m ∧ (w.read r).strlen s = some n ∧
      r.Within p.toNat (m + n + 1) ∧
      ∀ i ≤ n, (w.strcat r p s m n).read r (s.toNat + i) = w.read r (s.toNat + i)

/-- What is recorded is what the write does.  Strings have to be seven-bit; and of the `n + 1`
bytes that `strcat` appends to a string of length `m`, those beyond the first `n + 1` bytes of the
result have to be there already. -/
def Recorded (mem : Memory) : Write → Prop
  | .strcpy _ _ s => ∀ b ∈ mem.bytes s.toNat (Call.stringSize mem s), b < 0x80
  | .strcat _ p s =>
      let m := (mem.strlen p).getD 0
      let n := (mem.strlen s).getD 0
      (∀ i ≤ n, (if i < m then mem (p.toNat + i) else mem (s.toNat + (i - m))) < 0x80) ∧
        ∀ i, m ≤ i → n < i → i ≤ m + n → mem (p.toNat + i) = mem (s.toNat + (i - m))
  | _ => True

variable {tid : UInt64} {t₀ t : Tracer} {ss : List Store} {w : World}

theorem step_eq {x : Write} {r : PmRange} (hr : t.toPmRange = r) {t' t'' : Tracer} {a : Nat}
    {bytes : List UInt8} (hbefore : x.recordBefore t tid (w.read r) = some t')
    (htarget : x.target (w.read r) = some (a, bytes))
    (hafter : x.recordAfter t' tid ((w.write r a bytes).read r) = some t'') :
    x.step tid (w, t) = some (w.write r a bytes, t'') := by
  subst hr
  simp only [step, hbefore, htarget, hafter, Option.bind_eq_bind, Option.bind_some]
  rfl

/-- What is written at `p`, and recorded as `unsigned char`s from there. -/
theorem replay_plain {new : List Store} {p : Nat} {bytes : List UInt8} {n : Nat}
    (hr : t₀.Maps w.pm.length) (hin : t₀.Within p bytes.length) (hn : bytes.length = n)
    (hputs : Puts t₀.pmAddrStart.toNat new (t₀.index p)
      (((w.write t₀.toPmRange p bytes).read t₀.toPmRange).bytes p n) True) :
    doStores (BinaryFile.mk t₀.pmAddrStart.toNat w.pm) new =
      some ⟨t₀.pmAddrStart.toNat, (w.write t₀.toPmRange p bytes).pm⟩ := by
  subst hn
  rw [World.bytes_write hr hin] at hputs
  exact (hputs w.pm _ fun hne => hr.index_add_length hin hne).2 ⟨trivial, rfl⟩

/-- The result of a write: the state after it, and when its record is right. -/
def Outcome (tid : UInt64) (t₀ t : Tracer) (ss : List Store) (w : World) (x : Write) : Prop :=
  ∃ w' t' new, x.step tid (w, t) = some (w', t') ∧ w'.pm.length = w.pm.length ∧
    Reads t₀ t' (ss ++ new) ∧
    (doStores (BinaryFile.mk t₀.pmAddrStart.toNat w.pm) new =
        some ⟨t₀.pmAddrStart.toNat, w'.pm⟩ ↔ x.Recorded (w.read t₀.toPmRange))

theorem outcome_store (h : Reads t₀ t ss) (hrec : t₀.recording = true) (hr : t₀.Maps w.pm.length)
    {x : Write} {id : UInt32} {p length : UInt64} {bytes : List UInt8}
    (hin : t₀.Within p.toNat bytes.length) (hlength : bytes.length = length.toNat)
    (hbefore : ∃ t', x.recordBefore t tid (w.read t₀.toPmRange) = some t' ∧ Reads t₀ t' ss)
    (htarget : x.target (w.read t₀.toPmRange) = some (p.toNat, bytes))
    {c : Call} (hc : c = .store id p length ∨ c = .atomicStore id p length)
    (hafter : ∀ t mem, x.recordAfter t tid mem = c.run t tid mem)
    (hrecorded : x.Recorded (w.read t₀.toPmRange)) : x.Outcome tid t₀ t ss w := by
  have hrange : t.toPmRange = t₀.toPmRange := by rw [h.same]
  obtain ⟨t', hbefore, hreads⟩ := hbefore
  obtain ⟨t'', new, hrun, hreads, hputs⟩ := hreads.recordStore hrec hr tid
    ((w.write t₀.toPmRange p.toNat bytes).read t₀.toPmRange) id (hlength ▸ hin) hc
  rw [← hafter] at hrun
  exact ⟨_, t'', new, step_eq hrange hbefore htarget hrun, World.length_write hr hin, hreads,
    iff_of_true (replay_plain hr hin hlength hputs) hrecorded⟩

theorem length_leBytes (v : UInt64) {n : Nat} (hn : n ≤ 8) : ((leBytes v).take n).length = n := by
  simp [leBytes, hn]

/-- A compare-and-exchange is recorded if the memory holds the new value afterwards. -/
theorem outcome_cmpXchg (h : Reads t₀ t ss) (hrec : t₀.recording = true)
    (hr : t₀.Maps w.pm.length) {id : UInt32} {p v length : UInt64} {expected : List UInt8}
    (hlength : length.toNat ≤ 8) (hin : t₀.Within p.toNat length.toNat) :
    (cmpXchg id p expected v length).Outcome tid t₀ t ss w := by
  have hrange : t.toPmRange = t₀.toPmRange := by rw [h.same]
  have hlen := length_leBytes v hlength
  have hload := h.recordLoad tid id p length
  by_cases hsuccess : (w.read t₀.toPmRange).bytes p.toNat length.toNat = expected
  · have hin' : t₀.Within p.toNat ((leBytes v).take length.toNat).length := hlen.symm ▸ hin
    have hread := World.bytes_write hr hin'
    rw [hlen] at hread
    obtain ⟨t', new, hrun, hreads, hputs⟩ := hload.recordStore hrec hr tid
      ((w.write t₀.toPmRange p.toNat ((leBytes v).take length.toNat)).read t₀.toPmRange) id hin
      (Or.inr rfl)
    refine ⟨_, t', new, step_eq hrange rfl (if_pos hsuccess) ?_, World.length_write hr hin', hreads,
      iff_of_true (replay_plain hr hin' hlen hputs) trivial⟩
    rw [recordAfter, Tracer.recordCAS, if_neg (by omega), if_pos hread]
    exact hrun
  · -- nothing is written
    have hstep : ∀ {t'}, t.recordCAS tid (w.read t₀.toPmRange) id p v length = some t' →
        (cmpXchg id p expected v length).step tid (w, t) = some (w, t') := by
      intro t' ht'
      have htarget : (cmpXchg id p expected v length).target (w.read t₀.toPmRange) =
          some (p.toNat, []) := if_neg hsuccess
      rw [← World.write_nil t₀.toPmRange w p.toNat] at ht'
      have heq := step_eq hrange rfl htarget ht'
      rwa [World.write_nil] at heq
    by_cases hsame : (w.read t₀.toPmRange).bytes p.toNat length.toNat =
        (leBytes v).take length.toNat
    · obtain ⟨t', new, hrun, hreads, hputs⟩ := hload.recordStore hrec hr tid
        (w.read t₀.toPmRange) id hin (Or.inr rfl)
      refine ⟨w, t', new, hstep ?_, rfl, hreads, iff_of_true ?_ trivial⟩
      · rw [Tracer.recordCAS, if_neg (by omega), if_pos hsame]
        exact hrun
      · rw [hputs w.pm _ fun hne => ?_, World.splice_bytes hr hin]
        · exact ⟨trivial, rfl⟩
        · refine hr.index_add_length ?_ hne
          rwa [Memory.length_bytes]
    · refine ⟨w, _, [], hstep ?_, rfl, by rwa [List.append_nil], iff_of_true rfl trivial⟩
      rw [Tracer.recordCAS, if_neg (by omega), if_neg hsame]

/-- A string is recorded as it is found in memory. -/
theorem outcome_strcpy (h : Reads t₀ t ss) (hrec : t₀.recording = true)
    (hr : t₀.Maps w.pm.length) {id : UInt32} {p s : UInt64} {n : Nat}
    (hs : (w.read t₀.toPmRange).strlen s = some n) (hin : t₀.Within p.toNat (n + 1)) :
    (strcpy id p s).Outcome tid t₀ t ss w := by
  have hrange : t.toPmRange = t₀.toPmRange := by rw [h.same]
  obtain ⟨t', hbefore, hreads⟩ := h.recordStrLoad tid id hs
  have hsize := Memory.stringSize_eq hs
  -- the string that is found at `p` is the one that was copied
  have hlen : ((w.read t₀.toPmRange).bytes s.toNat (n + 1)).length = n + 1 :=
    Memory.length_bytes _ _ _
  have hin' : t₀.Within p.toNat ((w.read t₀.toPmRange).bytes s.toNat (n + 1)).length :=
    hlen.symm ▸ hin
  have hread := World.bytes_write hr hin'
  rw [hlen] at hread
  have hbytes := Memory.apply_of_bytes_eq hread
  have hlt := hin.add_lt
  have hp := Memory.strlen_congr (by omega) hbytes hs
  have hsize' := Memory.stringSize_eq hp
  have hemits : (Call.strStore id p).Emits t'
      ((w.write t₀.toPmRange p.toNat ((w.read t₀.toPmRange).bytes s.toNat (n + 1))).read
        t₀.toPmRange) := by
    rw [hreads.same]
    exact ⟨hrec, hin.isPmAddr (Nat.succ_pos n), n, hp, by omega⟩
  obtain ⟨t'', new, hrun, hreads, hputs⟩ := hreads.recordString hr tid id (by rwa [hsize']) hemits
    (Or.inr ⟨rfl, rfl⟩)
  have htarget : (strcpy id p s).target (w.read t₀.toPmRange) =
      some (p.toNat, (w.read t₀.toPmRange).bytes s.toNat (n + 1)) := by rw [target, hs]; rfl
  refine ⟨_, t'', new, step_eq hrange hbefore htarget hrun, World.length_write hr hin', hreads, ?_⟩
  rw [hsize', hread] at hputs
  rw [hputs w.pm _ fun hne => hr.index_add_length hin' hne, Recorded, hsize]
  exact and_iff_left rfl

/-- Of an appended string, so many bytes are recorded, but from the beginning of the result. -/
theorem outcome_strcat (h : Reads t₀ t ss) (hrec : t₀.recording = true)
    (hr : t₀.Maps w.pm.length) {id : UInt32} {p s : UInt64} {m n : Nat}
    (hp : (w.read t₀.toPmRange).strlen p = some m) (hs : (w.read t₀.toPmRange).strlen s = some n)
    (hin : t₀.Within p.toNat (m + n + 1))
    (hkeep : ∀ i ≤ n, (w.strcat t₀.toPmRange p s m n).read t₀.toPmRange (s.toNat + i) =
      w.read t₀.toPmRange (s.toNat + i)) :
    (strcat id p s).Outcome tid t₀ t ss w := by
  have hrange : t.toPmRange = t₀.toPmRange := by rw [h.same]
  have hlt := hin.add_lt
  obtain ⟨t₁, hbefore₁, hreads⟩ := h.recordStrLoad tid id hp
  obtain ⟨t', hbefore₂, hreads⟩ := hreads.recordStrLoad tid id hs
  have hbefore : (strcat id p s).recordBefore t tid (w.read t₀.toPmRange) = some t' := by
    rw [recordBefore, hbefore₁]
    exact hbefore₂
  have htarget : (strcat id p s).target (w.read t₀.toPmRange) =
      some (p.toNat + m, (w.read t₀.toPmRange).bytes s.toNat (n + 1)) := by
    simp only [target, hp, hs]
    rfl
  -- the strings that the record function finds
  have hread := World.read_strcat (s := s) hr hin
  have hs' := Memory.strlen_congr (Memory.strlen_eq_some_iff.1 hs).1
    (fun i hi => hkeep i (by omega)) hs
  have hp' := Memory.strlen_concat (by omega) hread hp hs
  have hsize := Memory.stringSize_eq hs'
  have hemits : (Call.strcatStore id p s).Emits t'
      ((w.strcat t₀.toPmRange p s m n).read t₀.toPmRange) := by
    rw [hreads.same]
    exact ⟨hrec, hin.isPmAddr (Nat.succ_pos _), by rw [hp']; rfl, n, hs', by omega⟩
  have hin₁ : t₀.Within p.toNat (n + 1) := hin.part (i := 0) (by omega)
  obtain ⟨t'', new, hrun, hreads, hputs⟩ := hreads.recordString hr tid id (by rwa [hsize]) hemits
    (Or.inl rfl)
  refine ⟨_, t'', new, step_eq hrange hbefore htarget hrun, World.length_strcat hr hin, hreads, ?_⟩
  rw [hsize] at hputs
  have hascii : (∀ b ∈ ((w.strcat t₀.toPmRange p s m n).read t₀.toPmRange).bytes p.toNat (n + 1),
      b < 0x80) ↔ ∀ i ≤ n, (if i < m then w.read t₀.toPmRange (p.toNat + i)
        else w.read t₀.toPmRange (s.toNat + (i - m))) < 0x80 := by
    simp only [Memory.bytes, List.forall_mem_map, List.mem_range, Nat.lt_succ_iff]
    exact forall₂_congr fun i hi => by rw [hread i (by omega)]
  have hsplice := World.splice_strcat_iff (s := s) hr hin
  rw [hputs w.pm _ fun hne => hr.index_add_length ?_ hne, hascii, Recorded, hp, hs,
    Option.getD_some, Option.getD_some, ← hsplice]
  · refine and_congr_right fun _ => ?_
    rw [BinaryFile.mk.injEq]
    exact (and_iff_right rfl).trans eq_comm
  · rwa [Memory.length_bytes]

/-- **What a write adds to the trace.** -/
theorem step_spec (tid : UInt64) (h : Reads t₀ t ss) (hrec : t₀.recording = true)
    (hr : t₀.Maps w.pm.length) {x : Write} (hx : x.Defined t₀.toPmRange w) :
    x.Outcome tid t₀ t ss w := by
  cases x with
  | store id p bytes =>
    exact outcome_store h hrec hr hx.2 (UInt64.toNat_ofNat_of_lt' hx.1).symm ⟨t, rfl, h⟩ rfl
      (Or.inl rfl) (fun _ _ => rfl) trivial
  | atomicRMW id p bytes =>
    exact outcome_store h hrec hr hx.2 (UInt64.toNat_ofNat_of_lt' hx.1).symm ⟨t, rfl, h⟩ rfl
      (Or.inr rfl) (fun _ _ => rfl) trivial
  | memset id p b length =>
    have hlen : (List.replicate length.toNat b).length = length.toNat := List.length_replicate
    exact outcome_store h hrec hr (hlen.symm ▸ hx) hlen ⟨t, rfl, h⟩ rfl (Or.inl rfl)
      (fun _ _ => rfl) trivial
  | memcpy id p src length =>
    have hlen : ((w.read t₀.toPmRange).bytes src.toNat length.toNat).length = length.toNat :=
      Memory.length_bytes _ _ _
    exact outcome_store h hrec hr (hlen.symm ▸ hx) hlen ⟨_, rfl, h.recordLoad tid id src length⟩
      rfl (Or.inl rfl) (fun _ _ => rfl) trivial
  | cmpXchg id p expected v length => exact outcome_cmpXchg h hrec hr hx.1 hx.2
  | strcpy id p s =>
    obtain ⟨n, hs, hin⟩ := hx
    exact outcome_strcpy h hrec hr hs hin
  | strcat id p s =>
    obtain ⟨m, n, hp, hs, hin, hkeep⟩ := hx
    exact outcome_strcat h hrec hr hp hs hin hkeep

end Write

/-! ## Whole runs -/

/-- A write at a time when the rest of the memory, which other instructions change, is as given. -/
def Write.stepIn (tid : UInt64) (s : List UInt8 × Tracer) (e : Memory × Write) :
    Option (List UInt8 × Tracer) :=
  (e.2.step tid (⟨s.1, e.1⟩, s.2)).map fun s => (s.1.pm, s.2)

/-- Replaying the trace so far on the persistent memory as it was gives what it is now. -/
def Replays (pm₀ : List UInt8) (t : Tracer) (pm : List UInt8) : Prop :=
  ((Trace.new t.record.out false).bind fun trace =>
    doStores (BinaryFile.mk t.pmAddrStart.toNat pm₀) (storesOf trace.ops)) =
      some ⟨t.pmAddrStart.toNat, pm⟩

theorem Reads.replays_eq {t₀ t : Tracer} {ss : List Store} (h : Reads t₀ t ss)
    (pm₀ pm : List UInt8) :
    Replays pm₀ t pm ↔ doStores (BinaryFile.mk t₀.pmAddrStart.toNat pm₀) ss =
      some ⟨t₀.pmAddrStart.toNat, pm⟩ := by
  obtain ⟨trace, htrace, hss⟩ := h.trace
  have hstart : t.pmAddrStart = t₀.pmAddrStart := by rw [h.same]
  rw [Replays, htrace, Option.bind_some, hss, hstart]

section Runs

variable {tid : UInt64} {pm₀ : List UInt8} {t₀ : Tracer} {xs : List (Memory × Write)}
  (hfresh : t₀.record = OStream.fresh) (hrec : t₀.recording = true) (hr : t₀.Maps pm₀.length)
  (hdefined : ∀ done e, done ++ [e] <+: xs → ∀ pm t,
    done.foldlM (Write.stepIn tid) (pm₀, t₀) = some (pm, t) → e.2.Defined t₀.toPmRange ⟨pm, e.1⟩)

include hfresh hrec hr hdefined

/-- Every run goes through, and its trace is read. -/
theorem run_reads {done : List (Memory × Write)} (hdone : done <+: xs) :
    ∃ pm t ss, done.foldlM (Write.stepIn tid) (pm₀, t₀) = some (pm, t) ∧
      pm.length = pm₀.length ∧ Reads t₀ t ss := by
  induction done using List.reverseRecOn with
  | nil =>
    refine ⟨pm₀, t₀, [], rfl, rfl, rfl, by rw [hfresh]; rfl, [], Extraction.start, ?_, ?_, rfl, rfl,
      rfl⟩
    · rw [hfresh]
      rfl
    · simp
  | append_singleton done e ih =>
    obtain ⟨pm, t, ss, hrun, hlen, hreads⟩ := ih ((List.prefix_append done [e]).trans hdone)
    obtain ⟨w', t', new, hstep, hlen', hreads', -⟩ := Write.step_spec tid hreads hrec
      (w := ⟨pm, e.1⟩) (hlen ▸ hr) (hdefined done e hdone pm t hrun)
    refine ⟨w'.pm, t', ss ++ new, ?_, hlen'.trans hlen, hreads'⟩
    simp [List.foldlM_append, hrun, Write.stepIn, hstep]

/-- One more write. -/
theorem replays_concat_iff {done : List (Memory × Write)} {e : Memory × Write}
    (hdone : done ++ [e] <+: xs) :
    ∃ pm t pm' t', done.foldlM (Write.stepIn tid) (pm₀, t₀) = some (pm, t) ∧
      (done ++ [e]).foldlM (Write.stepIn tid) (pm₀, t₀) = some (pm', t') ∧
      (Replays pm₀ t pm →
        (Replays pm₀ t' pm' ↔ e.2.Recorded (World.read t₀.toPmRange ⟨pm, e.1⟩))) := by
  obtain ⟨pm, t, ss, hrun, hlen, hreads⟩ :=
    run_reads hfresh hrec hr hdefined ((List.prefix_append done [e]).trans hdone)
  obtain ⟨w', t', new, hstep, -, hreads', hiff⟩ := Write.step_spec tid hreads hrec
    (w := ⟨pm, e.1⟩) (hlen ▸ hr) (hdefined done e hdone pm t hrun)
  refine ⟨pm, t, w'.pm, t', hrun, ?_, fun hreplays => ?_⟩
  · simp [List.foldlM_append, hrun, Write.stepIn, hstep]
  · rw [hreads'.replays_eq, doStores_append, (hreads.replays_eq pm₀ pm).1 hreplays,
      Option.bind_some, hiff]

/-- **Replaying the trace gives the persistent memory, after every write, if and only if each
write is recorded as what it does.** -/
theorem replays_iff_recorded :
    (∀ done, done <+: xs → ∃ pm t, done.foldlM (Write.stepIn tid) (pm₀, t₀) = some (pm, t) ∧
        Replays pm₀ t pm) ↔
      ∀ done e, done ++ [e] <+: xs → ∀ pm t,
        done.foldlM (Write.stepIn tid) (pm₀, t₀) = some (pm, t) →
          e.2.Recorded (World.read t₀.toPmRange ⟨pm, e.1⟩) := by
  constructor
  · intro h done e hdone pm t hrun
    obtain ⟨_, _, pm', t', hrun₁, hrun₂, hiff⟩ := replays_concat_iff hfresh hrec hr hdefined hdone
    obtain ⟨_, _, hrun₃, hreplays⟩ := h done ((List.prefix_append done [e]).trans hdone)
    obtain ⟨_, _, hrun₄, hreplays'⟩ := h _ hdone
    cases hrun.symm.trans hrun₁
    cases hrun.symm.trans hrun₃
    cases hrun₂.symm.trans hrun₄
    exact (hiff hreplays).1 hreplays'
  · intro h done hdone
    induction done using List.reverseRecOn with
    | nil =>
      refine ⟨pm₀, t₀, rfl, ?_⟩
      rw [Replays, hfresh]
      rfl
    | append_singleton done e ih =>
      obtain ⟨pm, t, hrun, hreplays⟩ := ih ((List.prefix_append done [e]).trans hdone)
      obtain ⟨_, _, pm', t', hrun₁, hrun₂, hiff⟩ :=
        replays_concat_iff hfresh hrec hr hdefined hdone
      cases hrun.symm.trans hrun₁
      exact ⟨pm', t', hrun₂, (hiff hreplays).2 (h done e hdone pm t hrun)⟩

end Runs

/-- Persistent memory that holds the string `ab`. -/
def stringAb : List UInt8 := 0x61 :: 0x62 :: List.replicate 62 0

/-- The rest of the memory holds the string `c`. -/
def stringC : Memory := fun a => if a = 0x100 then 0x63 else 0

/-- A `memset` and a compare-and-exchange that succeeds. -/
def twoWrites : List (Memory × Write) :=
  [(stringC, .memset 3 0x44 7 2), (stringC, .cmpXchg 4 0x44 [7, 7] 0x2211 2)]

theorem replays_iff_recorded_twoWrites :
    ∃ pm t, twoWrites.foldlM (Write.stepIn 1) (stringAb, Call.smallPm) = some (pm, t) ∧
      Replays stringAb t pm := by
  have hmem : ∀ {done : List (Memory × Write)} {e}, done ++ [e] <+: twoWrites →
      e = (stringC, .memset 3 0x44 7 2) ∨ e = (stringC, .cmpXchg 4 0x44 [7, 7] 0x2211 2) := by
    intro done e hdone
    have he : e ∈ done ++ [e] := by simp
    simpa [twoWrites] using hdone.subset he
  have hmaps : Call.smallPm.Maps stringAb.length := by constructor <;> decide
  refine (replays_iff_recorded rfl rfl hmaps ?_).2 ?_ twoWrites List.prefix_rfl
  · intro done e hdone pm t _
    rcases hmem hdone with rfl | rfl
    · show Call.smallPm.Within _ _
      decide
    · exact ⟨by decide, by decide⟩
  · intro done e hdone pm t _
    rcases hmem hdone with rfl | rfl <;> trivial

/-- `strcat` appends `c` to `ab`, and two bytes are recorded; but these are `ab`, and the replay
does not have the `c`. -/
theorem replays_strcat_lost :
    (Write.strcat 9 0x40 0x100).Defined Call.smallPm.toPmRange ⟨stringAb, stringC⟩ ∧
      (Write.stepIn 1 (stringAb, Call.smallPm) (stringC, .strcat 9 0x40 0x100)).map (fun s =>
        (s.1, (Trace.new s.2.record.out false).bind fun trace =>
          doStores (BinaryFile.mk 0x40 stringAb) (storesOf trace.ops))) =
        some (0x61 :: 0x62 :: 0x63 :: List.replicate 61 0, some ⟨0x40, stringAb⟩) := by
  refine ⟨⟨2, 1, by decide +kernel, by decide +kernel, by decide, ?_⟩, by decide +kernel⟩
  decide +kernel

end Durinn
