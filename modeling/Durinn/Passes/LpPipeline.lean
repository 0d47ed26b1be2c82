import Durinn.Lib.CText
import Durinn.Passes.LpsFromBrs
import Durinn.Passes.SrcMap
import Durinn.Trace.LpStores
import Durinn.Tracer.ApiCalls

/-!
# From recorded branches to the addresses of linearization points

In the modes 4 and 6, the checkers write the branches of a trace into `brs.txt`, run the compiler
pass `PrintLpsFromBrs`, and read from `lps_from_brs.txt` the instructions whose loads give the
addresses of linearization points.  The instructions go through three texts, as numbers: the trace
file and the two files between Python and the pass.

* `init_spec`, `lines_cleanup` — what the pass reads of its input, and what is read of its output.
* `mem_lpAddrs_iff` — the addresses for a trace: those loaded by the loads that the condition of a
  branch of the trace depends on.
* `lpAddrs_of_run` — the same for a trace file that a run wrote, in terms of the calls of the run.
-/

namespace Durinn

open PyText

variable {V B F : Type}

/-! ## The module -/

/-- The kind that the passes with counters see in an instruction. -/
def Inst.HasKind : Inst V B F → InstKind → Prop
  | .load _ _, kind => kind = .load
  | .store _ _, kind => kind = .store
  | .cmpXchg, kind => kind = .atomicCmpXchg
  | .call _ _, kind => ∃ callee, kind = .call callee
  | .ret _, kind => kind = .other
  | .other _, kind => kind ∈ [.select, .atomicRmw, .br true, .br false, .other]

/-- A module with its instructions in the order of the functions, which the passes with counters go
through. -/
structure Listing (V B F : Type) extends Module V B F where
  code : Bitcode
  /-- The instructions of `code`, as values. -/
  values : List V
  nodup : values.Nodup
  kinds : List.Forall₂ (fun v i => ∃ inst, toModule.inst v = some inst ∧ inst.HasKind i.kind) values
    code.insts
  all : ∀ v, (toModule.inst v).isSome = true → v ∈ values
  /-- `getCondition` of a conditional branch. -/
  condition : V → Option V
  conditional : ∀ (place : Nat) (v : V) (i : Instr), values[place]? = some v →
    code.insts[place]? = some i → ((condition v).isSome = true ↔ i.kind = .br true)

namespace Listing

variable (m : Listing V B F)

/-- The instruction has the number. -/
def Numbered (v : V) (id : UInt32) : Prop :=
  ∃ place, m.values[place]? = some v ∧ (place, id) ∈ loadStoreNumbers m.code

variable {m}

/-- What `LoadStoreNumberPass` visits has a number. -/
theorem exists_numbered {v : V} {inst : Inst V B F} (hinst : m.inst v = some inst)
    (hvisits : ∀ kind, inst.HasKind kind → LoadStoreNumberPass.visits kind = true) :
    ∃ id, m.Numbered v id := by
  obtain ⟨place, hplace, hv⟩ := List.mem_iff_getElem.1 (m.all v (by rw [hinst]; rfl))
  have hlen : place < m.code.insts.length := m.kinds.length_eq ▸ hplace
  obtain ⟨inst', hinst', hkind⟩ := List.forall₂_iff_get.1 m.kinds |>.2 place hplace hlen
  rw [List.get_eq_getElem, hv, hinst] at hinst'
  cases hinst'
  have hmem : place ∈ (loadStoreNumbers m.code).map Prod.fst := by
    rw [loadStoreNumbers, map_fst_countPass, List.mem_filterMap]
    exact ⟨(m.code.insts[place], place),
      List.mem_zipIdx_iff_getElem?.2 (List.getElem?_eq_getElem hlen), if_pos (hvisits _ hkind)⟩
  obtain ⟨⟨place', id⟩, hx, rfl⟩ := List.mem_map.1 hmem
  exact ⟨id, place', List.getElem?_eq_some_iff.2 ⟨hplace, hv⟩, hx⟩

/-- A linearization point has a number. -/
theorem numbered_of_isLp {v : V} (h : m.isLp v = true) : ∃ id, m.Numbered v id := by
  obtain ⟨inst, hinst, hlp⟩ : ∃ inst, m.inst v = some inst ∧ inst.isLp = true := by
    cases hinst : m.inst v with
    | none => simp [Module.isLp, hinst] at h
    | some inst => exact ⟨inst, rfl, by simpa [Module.isLp, hinst] using h⟩
  cases inst with
  | load pointer parent | cmpXchg =>
    refine exists_numbered hinst fun kind hkind => ?_
    cases hkind
    rfl
  | store | call | ret | other => cases hlp

end Listing

/-! ## The pass -/

namespace PrintLpsFromBrs

variable [DecidableEq V] (m : Listing V B F) (q : QueryLoadStoreNumbers) (order : SetOrder V)

/-- The loop body of `init`, up to the assertion: the conditional branch of a line.  `none` is an
exception of `stol`, a null pointer, or a failed assertion. -/
def branchOf (line : Text) : Option V := do
  let id ← CText.stol line
  let place ← q.getInstByID (UInt32.ofInt id)
  let v ← m.values[place]?
  if (m.condition v).isSome then some v else none

/-- `init`, on the contents of `brs.txt`. -/
def init (brs : Text) : Option (Finset V) :=
  (CText.getlines '\n' brs).foldlM (fun bis line => (branchOf m q line).map (insert · bis)) ∅

/-- `run`, over the set of branches. -/
def run (fuel : Nat) (bis : Finset V) : Option (Finset V) :=
  m.toModule.run fuel ((order.toList bis).filterMap fun bi => (m.condition bi).map BranchInst.mk)

/-- `getID` of an instruction. -/
def getID (v : V) : UInt32 := q.getID (m.values.idxOf v)

/-- `cleanup`: the contents of `lps_from_brs.txt`. -/
def cleanup (lps : Finset V) : Text :=
  unlines ((order.toList lps).map fun lp => Nat.toDigits 10 (getID m q lp).toNat)

/-- `runOnModule`, after the numbers of the module are read. -/
def runOnModule (fuel : Nat) (brs : Text) : Option Text := do
  let q ← QueryLoadStoreNumbers.run (loadStoreNumbers m.code)
  let bis ← init m q brs
  let lps ← run m order fuel bis
  return cleanup m q order lps

end PrintLpsFromBrs

/-! ## The checkers -/

/-- `brs.txt`. -/
def brsFile (order : SetOrder Text) (trace : Trace) : Text := unlines (order.toList trace.brSrcs)

/-- `lp_srcs`: the pass between the two files. -/
def lpSrcs [DecidableEq V] (m : Listing V B F) (order : SetOrder V) (fuel : Nat)
    (orderSrcs : SetOrder Text) (trace : Trace) : Option (List Text) :=
  (PrintLpsFromBrs.runOnModule m order fuel (brsFile orderSrcs trace)).map fun out =>
    terminated '\n' (universalNewlines out)

theorem mem_lpAddrs {trace : Trace} {lpSrcs : List Text} {address : Nat} :
    address ∈ lpAddrs trace lpSrcs ↔ ∃ src ∈ lpSrcs, trace.Loads src address := by
  induction lpSrcs using List.reverseRecOn with
  | nil => simp [lpAddrs]
  | append_singleton srcs src ih =>
    rw [lpAddrs, List.foldl_append, List.foldl_cons, List.foldl_nil, Finset.mem_union]
    rw [lpAddrs] at ih
    rw [ih]
    simp [or_and_right, exists_or, Trace.Loads]

namespace PrintLpsFromBrs

variable {m : Listing V B F} {q : QueryLoadStoreNumbers} {order : SetOrder V}

/-! ## What the pass reads and writes -/

/-- The numbers of the module were read. -/
def Reads (m : Listing V B F) (q : QueryLoadStoreNumbers) : Prop :=
  ∀ x ∈ loadStoreNumbers m.code, q.getID x.1 = x.2 ∧ q.getInstByID x.2 = some x.1

theorem branchOf_of_numbered (hq : Reads m q) {v c : V} {id : UInt32} (hv : m.Numbered v id)
    (hc : m.condition v = some c) : branchOf m q (Nat.toDigits 10 id.toNat) = some v := by
  obtain ⟨place, hplace, hid⟩ := hv
  have hlt : id.toNat < 2 ^ 63 := by have := id.toNat_lt; omega
  rw [branchOf, CText.stol_toDigits hlt, Option.bind_eq_bind, Option.bind_some,
    CText.ofInt_toNat, (hq _ hid).2]
  simp [hplace, hc]

variable [DecidableEq V]

theorem getID_of_numbered (hq : Reads m q) {v : V} {id : UInt32} (hv : m.Numbered v id) :
    getID m q v = id := by
  obtain ⟨place, hplace, hid⟩ := hv
  obtain ⟨hlt, rfl⟩ := List.getElem?_eq_some_iff.1 hplace
  rw [getID, m.nodup.idxOf_getElem place hlt]
  exact (hq _ hid).1

/-- **What the pass reads.** -/
theorem init_spec {lines : List Text} (hlines : ∀ line ∈ lines, '\n' ∉ line)
    (hbr : ∀ line ∈ lines, (branchOf m q line).isSome = true) :
    ∃ bis, init m q (unlines lines) = some bis ∧
      ∀ v, v ∈ bis ↔ ∃ line ∈ lines, branchOf m q line = some v := by
  rw [init, CText.getlines_unlines hlines]
  clear hlines
  induction lines using List.reverseRecOn with
  | nil => exact ⟨∅, rfl, by simp⟩
  | append_singleton lines line ih =>
    obtain ⟨bis, hbis, hmem⟩ := ih fun l hl => hbr l (List.mem_append_left _ hl)
    obtain ⟨v, hv⟩ := Option.isSome_iff_exists.1 (hbr line (by simp))
    refine ⟨insert v bis, ?_, fun w => ?_⟩
    · rw [List.foldlM_append, hbis]
      simp [hv]
    · rw [Finset.mem_insert, hmem]
      simp only [List.mem_append, List.mem_singleton, or_and_right, exists_or, exists_eq_left, hv,
        Option.some.injEq]
      rw [or_comm, eq_comm]

/-- **What is read of its output.** -/
theorem lines_cleanup (lps : Finset V) :
    terminated '\n' (universalNewlines (cleanup m q order lps)) =
      (order.toList lps).map fun lp => Nat.toDigits 10 (getID m q lp).toNat := by
  have hplain : ∀ line ∈ (order.toList lps).map fun lp => Nat.toDigits 10 (getID m q lp).toNat,
      '\n' ∉ line ∧ '\r' ∉ line := by
    intro line hline
    obtain ⟨lp, -, rfl⟩ := List.mem_map.1 hline
    exact ⟨notMem_toDigits (by decide) _, notMem_toDigits (by decide) _⟩
  exact terminated_universalNewlines_unlines hplain

/-- The condition of a branch whose number is in the file depends on the value. -/
def Feeds (m : Listing V B F) (srcs : Finset Text) (w : V) : Prop :=
  ∃ v c id, m.Numbered v id ∧ m.condition v = some c ∧ Nat.toDigits 10 id.toNat ∈ srcs ∧
    Relation.ReflTransGen m.DependsOn c w

/-- **The pass prints the linearization points that feed the branches**, and does not fail if the
numbers of the file are those of conditional branches. -/
theorem runOnModule_spec [Fintype V] (hnumbers : (loadStoreNumbers m.code).length < 2 ^ 32)
    {fuel : Nat} (hfuel : Fintype.card V ≤ fuel) {srcs : Finset Text}
    (hsrcs : ∀ src ∈ srcs, ∃ v c id, m.Numbered v id ∧ m.condition v = some c ∧
      src = Nat.toDigits 10 id.toNat) (order : SetOrder V) (orderSrcs : SetOrder Text) :
    ∃ out, runOnModule m order fuel (unlines (orderSrcs.toList srcs)) = some out ∧
      ∀ src, src ∈ terminated '\n' (universalNewlines out) ↔
        ∃ w id, m.isLp w = true ∧ Feeds m srcs w ∧ m.Numbered w id ∧
          src = Nat.toDigits 10 id.toNat := by
  obtain ⟨q, hq, hquery⟩ := query_spec hnumbers
  have hreads : Reads m q := fun x hx => (hquery x hx).2
  have hlines : ∀ line ∈ orderSrcs.toList srcs, ∃ v c id, m.Numbered v id ∧ m.condition v = some c ∧
      line = Nat.toDigits 10 id.toNat :=
    fun line hline => hsrcs line ((orderSrcs.mem_toList _ _).1 hline)
  have hplain : ∀ line ∈ orderSrcs.toList srcs, '\n' ∉ line := by
    intro line hline
    obtain ⟨_, _, id, -, -, rfl⟩ := hlines line hline
    exact notMem_toDigits (by decide) _
  have hbranch : ∀ line ∈ orderSrcs.toList srcs, (branchOf m q line).isSome = true := by
    intro line hline
    obtain ⟨v, c, id, hv, hc, rfl⟩ := hlines line hline
    exact Option.isSome_of_eq_some (branchOf_of_numbered hreads hv hc)
  obtain ⟨bis, hinit, hbis⟩ := init_spec hplain hbranch
  obtain ⟨lps, hrun, hlps⟩ := m.toModule.run_closure hfuel
    ((order.toList bis).filterMap fun bi => (m.condition bi).map BranchInst.mk)
  have hfeeds : ∀ w, w ∈ lps ↔ m.isLp w = true ∧ Feeds m srcs w := by
    intro w
    rw [hlps]
    refine and_congr_right fun _ => ?_
    constructor
    · rintro ⟨bi, hbi, hdep⟩
      obtain ⟨v, hv, hbi⟩ := List.mem_filterMap.1 hbi
      obtain ⟨c, hc, rfl⟩ := Option.map_eq_some_iff.1 hbi
      obtain ⟨line, hline, hbr⟩ := (hbis v).1 ((order.mem_toList _ _).1 hv)
      obtain ⟨v', c', id, hv', hc', rfl⟩ := hlines line hline
      cases (branchOf_of_numbered hreads hv' hc').symm.trans hbr
      exact ⟨v, c, id, hv', hc, (orderSrcs.mem_toList _ _).1 hline, hdep⟩
    · rintro ⟨v, c, id, hv, hc, hmem, hdep⟩
      have hbi : v ∈ bis := (hbis v).2
        ⟨_, (orderSrcs.mem_toList _ _).2 hmem, branchOf_of_numbered hreads hv hc⟩
      refine ⟨⟨c⟩, List.mem_filterMap.2 ⟨v, (order.mem_toList _ _).2 hbi, ?_⟩, hdep⟩
      rw [hc]
      rfl
  refine ⟨cleanup m q order lps, ?_, fun src => ?_⟩
  · simp only [runOnModule, hq, hinit, run, hrun, Option.bind_eq_bind, Option.bind_some]
    rfl
  · rw [lines_cleanup, List.mem_map]
    constructor
    · rintro ⟨w, hw, rfl⟩
      obtain ⟨hlp, hw⟩ := (hfeeds w).1 ((order.mem_toList _ _).1 hw)
      obtain ⟨id, hid⟩ := Listing.numbered_of_isLp hlp
      exact ⟨w, id, hlp, hw, hid, by rw [getID_of_numbered hreads hid]⟩
    · rintro ⟨w, id, hlp, hw, hid, rfl⟩
      exact ⟨w, (order.mem_toList _ _).2 ((hfeeds w).2 ⟨hlp, hw⟩),
        by rw [getID_of_numbered hreads hid]⟩

end PrintLpsFromBrs

/-! ## The addresses -/

section Addresses

variable [DecidableEq V] [Fintype V] {m : Listing V B F} {trace : Trace}

/-- **The addresses of a trace**: those loaded by linearization points that feed its branches. -/
theorem mem_lpAddrs_iff (hnumbers : (loadStoreNumbers m.code).length < 2 ^ 32) {fuel : Nat}
    (hfuel : Fintype.card V ≤ fuel)
    (hbrs : ∀ src ∈ trace.brSrcs, ∃ v c id, m.Numbered v id ∧ m.condition v = some c ∧
      src = Nat.toDigits 10 id.toNat) (order : SetOrder V) (orderSrcs : SetOrder Text) :
    ∃ srcs, lpSrcs m order fuel orderSrcs trace = some srcs ∧
      ∀ address, address ∈ lpAddrs trace srcs ↔
        ∃ w id, m.isLp w = true ∧ PrintLpsFromBrs.Feeds m trace.brSrcs w ∧ m.Numbered w id ∧
          trace.Loads (Nat.toDigits 10 id.toNat) address := by
  obtain ⟨out, hout, hsrcs⟩ :=
    PrintLpsFromBrs.runOnModule_spec hnumbers hfuel hbrs order orderSrcs
  refine ⟨_, by rw [lpSrcs, brsFile, hout, Option.map_some], fun address => ?_⟩
  rw [mem_lpAddrs]
  constructor
  · rintro ⟨src, hsrc, hload⟩
    obtain ⟨w, id, hlp, hw, hid, rfl⟩ := (hsrcs src).1 hsrc
    exact ⟨w, id, hlp, hw, hid, hload⟩
  · rintro ⟨w, id, hlp, hw, hid, hload⟩
    exact ⟨_, (hsrcs _).2 ⟨w, id, hlp, hw, hid, rfl⟩, hload⟩

/-- A number is known by its digits. -/
theorem decField_inj {id id' : UInt32}
    (h : Tracer.decField id.toNat = Tracer.decField id'.toNat) : id = id' := by
  have hnat := congrArg (natOfText 10) h
  rw [Call.natOfText_decField, Call.natOfText_decField, Option.some.injEq] at hnat
  exact UInt32.toNat_inj.1 hnat

/-- The number, which was written, of a branch. -/
theorem branch?_eq_some {x : Entry} {src : Text} :
    x.branch? = some src ↔ ∃ id, x.call = .br id ∧ src = Tracer.decField id.toNat := by
  obtain ⟨t, tid, mem, c⟩ := x
  cases c <;> simp [Entry.branch?, eq_comm]

/-- **The addresses of linearization points of a run.**  The trace file of the run is read without
an exception, and of its lines only those count that the reader does not skip for a modelled lock
function.  If the branches among them that stand in API calls are conditional branches of the
module, the pass goes through, and the addresses are those of the loads among them that stand in API
calls, of the instructions that are linearization points and that the condition of one of these
branches depends on. -/
theorem lpAddrs_of_run {t t' : Tracer} {es : List Invoked}
    (hnumbers : (loadStoreNumbers m.code).length < 2 ^ 32) {fuel : Nat}
    (hfuel : Fintype.card V ≤ fuel) (hfresh : t.record = OStream.fresh)
    (hrun : es.foldlM Invoked.run t = some t')
    (htrace : Trace.new t'.record.out false = some trace)
    (hbrs : ∀ x ∈ inApi false (unskipped false (written t es)), ∀ id, x.call = .br id →
      ∃ v c, m.Numbered v id ∧ m.condition v = some c)
    (order : SetOrder V) (orderSrcs : SetOrder Text) :
    ∃ srcs, lpSrcs m order fuel orderSrcs trace = some srcs ∧
      ∀ address, address ∈ lpAddrs trace srcs ↔
        ∃ x ∈ inApi false (unskipped false (written t es)),
          ∃ y ∈ inApi false (unskipped false (written t es)), ∃ v c id w id',
            x.call = .br id ∧ m.Numbered v id ∧ m.condition v = some c ∧
            y.load? = some (Tracer.decField id'.toNat, address) ∧ m.Numbered w id' ∧
            m.isLp w = true ∧ Relation.ReflTransGen m.DependsOn c w := by
  have hmem := mem_trace_of_run hfresh hrun htrace
  have hsrcs : ∀ src ∈ trace.brSrcs, ∃ v c id, m.Numbered v id ∧ m.condition v = some c ∧
      src = Nat.toDigits 10 id.toNat := by
    intro src hsrc
    obtain ⟨x, hx, hbr⟩ := (hmem src 0).1.1 hsrc
    obtain ⟨id, hid, rfl⟩ := branch?_eq_some.1 hbr
    obtain ⟨v, c, hv, hc⟩ := hbrs x hx id hid
    exact ⟨v, c, id, hv, hc, rfl⟩
  obtain ⟨srcs, hsrcs, haddrs⟩ := mem_lpAddrs_iff hnumbers hfuel hsrcs order orderSrcs
  refine ⟨srcs, hsrcs, fun address => (haddrs address).trans ?_⟩
  constructor
  · rintro ⟨w, id', hlp, ⟨v, c, id, hv, hc, hbr, hdep⟩, hid', hload⟩
    obtain ⟨x, hx, hbr⟩ := (hmem _ 0).1.1 hbr
    obtain ⟨y, hy, hload⟩ := (hmem _ address).2.1 hload
    obtain ⟨id₁, hid₁, heq⟩ := branch?_eq_some.1 hbr
    obtain rfl : id = id₁ := decField_inj heq
    exact ⟨x, hx, y, hy, v, c, id, w, id', hid₁, hv, hc, hload, hid', hlp, hdep⟩
  · rintro ⟨x, hx, y, hy, v, c, id, w, id', hid, hv, hc, hload, hid', hlp, hdep⟩
    exact ⟨w, id', hlp, ⟨v, c, id, hv, hc, (hmem _ 0).1.2 ⟨x, hx, branch?_eq_some.2 ⟨id, hid, rfl⟩⟩,
      hdep⟩, hid', (hmem _ address).2.2 ⟨y, hy, hload⟩⟩

/-- A branch on what a load gives. -/
def loadModule : Listing (Fin 3) Unit Unit where
  inst v := match v with
    | 0 => some (.load 0 ())
    | 1 => some (.other [0])
    | 2 => some (.other [1])
  isConstant _ := false
  insts _ := [0, 1, 2]
  blocks _ := [()]
  code := ⟨[[[⟨.load, none⟩, ⟨.other, none⟩, ⟨.br true, none⟩]]]⟩
  values := [0, 1, 2]
  nodup := by decide
  kinds := .cons ⟨_, rfl, rfl⟩ (.cons ⟨_, rfl, by simp [Inst.HasKind]⟩
    (.cons ⟨_, rfl, by simp [Inst.HasKind]⟩ .nil))
  all v _ := by decide +revert
  condition v := if v = 2 then some 1 else none
  conditional place v i hv hi := by
    rcases place with _ | _ | _ | place
    · cases hv
      cases hi
      decide
    · cases hv
      cases hi
      decide
    · cases hv
      cases hi
      decide
    · cases hv

/-- An API call that loads something and goes on by it. -/
def loadRun : List Invoked :=
  [⟨1, Call.smallMemory, .call (.apiBegin 3)⟩, ⟨1, Call.smallMemory, .call (.load 1 0x40 2)⟩,
    ⟨1, Call.smallMemory, .call (.br 2)⟩, ⟨1, Call.smallMemory, .call (.apiEnd 4)⟩]

theorem lpAddrs_of_run_loadRun :
    ∃ t' trace srcs, loadRun.foldlM Invoked.run Call.smallPm = some t' ∧
      Trace.new t'.record.out false = some trace ∧
      lpSrcs loadModule default 3 default trace = some srcs ∧ 0x40 ∈ lpAddrs trace srcs := by
  have hrun : loadRun.foldlM Invoked.run Call.smallPm = some _ := rfl
  obtain ⟨trace, htrace⟩ : ∃ trace, Trace.new _ false = some trace :=
    Option.isSome_iff_exists.1 (show (Trace.new (unlines
      (["APIBegin,1,NA", "Load,1,40,2,1", "Br,1,2", "APIEnd,1,NA"].map String.toList))
        false).isSome = true by decide +kernel)
  have hbr : ∀ x ∈ inApi false (unskipped false (written Call.smallPm loadRun)),
      x.branch? = none ∨ x.branch? = some (Tracer.decField 2) := by decide +kernel
  have hnumbered : loadModule.Numbered 2 2 ∧ loadModule.Numbered 0 1 :=
    ⟨⟨2, rfl, by decide⟩, 0, rfl, by decide⟩
  have hbrs : ∀ x ∈ inApi false (unskipped false (written Call.smallPm loadRun)), ∀ id,
      x.call = .br id → ∃ v c, loadModule.Numbered v id ∧ loadModule.condition v = some c := by
    intro x hx id hid
    have hsrc := branch?_eq_some.2 ⟨id, hid, rfl⟩
    rcases hbr x hx with hx | hx
    · cases hx.symm.trans hsrc
    · obtain rfl : 2 = id := decField_inj (Option.some.inj (hx.symm.trans hsrc))
      exact ⟨2, 1, hnumbered.1, rfl⟩
  have hdep : Relation.ReflTransGen loadModule.DependsOn 1 0 :=
    .single (.operand rfl (by simp [Inst.otherOperands]) rfl)
  obtain ⟨srcs, hsrcs, haddrs⟩ := lpAddrs_of_run (show (loadStoreNumbers loadModule.code).length <
    2 ^ 32 by decide) (show Fintype.card (Fin 3) ≤ 3 by simp) rfl hrun htrace hbrs default default
  refine ⟨_, trace, srcs, hrun, htrace, hsrcs, (haddrs 0x40).2 ?_⟩
  have hlines : inApi false (unskipped false (written Call.smallPm loadRun)) =
      [⟨Call.smallPm, 1, Call.smallMemory, .load 1 0x40 2⟩,
        ⟨Call.smallPm, 1, Call.smallMemory, .br 2⟩] :=
    rfl
  rw [hlines]
  exact ⟨_, .tail _ (.head _), _, .head _, 2, 1, 2, 0, 1, rfl, hnumbered.1, rfl, rfl,
    hnumbered.2, rfl, hdep⟩

end Addresses

end Durinn
