import Durinn.Trace.Parse

/-!
# Candidates for linearization points

`LSChecker` and `TraceChecker` pick, among the stores of an API call, those that may be its
linearization point.  These are the filters that both apply; they have the same code in
`checker/ls_trace_checker.py` and `checker/st_trace_checker.py`.
-/

namespace Durinn

/-- The addresses that were loaded, in some API call, by one of the instructions that feed a
branch.  `lpSrcs` are the lines of `lps_from_brs.txt`, which the compiler pass writes. -/
def lpAddrs (trace : Trace) (lpSrcs : List Text) : Finset Nat :=
  lpSrcs.foldl (fun addrs lpSrc => addrs ∪ (trace.loadSrcToAddrs.get? lpSrc).getD ∅) ∅

/-- `stores_not_in_new`: drop the stores to what the API call allocated. -/
def storesNotInNew (allocs : Dict Nat (List Load)) (stores : List Store) (idx : Nat) :
    List Store :=
  match allocs.get? idx with
  | none => stores
  | some new => stores.filter fun s => !new.any fun alloc => rangeCmp s alloc = .eq

/-- `stores_used_by_loads_before_br`. -/
def storesUsedByLoadsBeforeBr (lpAddrs : Finset Nat) (stores : List Store) : List Store :=
  stores.filter fun s => s.address ∈ lpAddrs

/-- `stores_match_lps`: keep the stores made by an instruction that `lp.txt` lists, one in a
line. -/
def storesMatchLps (lpTxt : Text) (stores : List Store) : List Store :=
  let lps := (lpTxt.splitOn '\n').filter fun lp => lp.length ≠ 0
  stores.filter fun s => s.srcInfo ∈ lps

/-- `if self.lock_free: stores = [store for store in stores if store.is_cas]`. -/
def casStores (lockFree : Nat) (stores : List Store) : List Store :=
  if lockFree ≠ 0 then stores.filter fun s => s.isCas ≠ 0 else stores

variable {stores : List Store}

theorem storesNotInNew_sublist (allocs : Dict Nat (List Load)) (idx : Nat) :
    (storesNotInNew allocs stores idx).Sublist stores := by
  unfold storesNotInNew
  split
  · exact List.Sublist.refl stores
  · exact List.filter_sublist

theorem storesUsedByLoadsBeforeBr_sublist (addrs : Finset Nat) :
    (storesUsedByLoadsBeforeBr addrs stores).Sublist stores :=
  List.filter_sublist

theorem storesMatchLps_sublist (lpTxt : Text) : (storesMatchLps lpTxt stores).Sublist stores :=
  List.filter_sublist

theorem casStores_sublist (lockFree : Nat) : (casStores lockFree stores).Sublist stores := by
  unfold casStores
  split
  · exact List.filter_sublist
  · exact List.Sublist.refl stores

/-! ## What a selection depends on -/

/-- The range overlaps something that the API call allocated. -/
def InNew (allocs : Dict Nat (List Load)) (idx : Nat) (range : Nat × Nat) : Prop :=
  ∃ alloc ∈ (allocs.get? idx).getD [],
    alloc.address < range.1 + range.2 ∧ range.1 < alloc.address + alloc.size

/-- A store to the range may be a linearization point.  This is what the modes mean that both
checkers have. -/
def IsPoint (trace : Trace) (lpSrcs : List Text) (lockBased idx : Nat) (range : Nat × Nat) : Prop :=
  (lockBased = 3 ∨ lockBased = 6 → ¬ InNew trace.allocs idx range) ∧
    (lockBased = 4 ∨ lockBased = 6 → range.1 ∈ lpAddrs trace lpSrcs)

theorem mem_casStores {lockFree : Nat} {s : Store} :
    s ∈ casStores lockFree stores ↔ s ∈ stores ∧ (lockFree ≠ 0 → s.isCas ≠ 0) := by
  unfold casStores
  split <;> simp_all

theorem mem_storesNotInNew {allocs : Dict Nat (List Load)} {idx : Nat} {s : Store} :
    s ∈ storesNotInNew allocs stores idx ↔
      s ∈ stores ∧ ¬ InNew allocs idx (s.address, s.size) := by
  unfold storesNotInNew InNew
  split
  · rename_i hnone
    simp [hnone]
  · rename_i new hnew
    simp [hnew, rangeCmp_eq_iff, getBaseAddress, getMaxAddress]

theorem mem_storesUsedByLoadsBeforeBr {addrs : Finset Nat} {s : Store} :
    s ∈ storesUsedByLoadsBeforeBr addrs stores ↔ s ∈ stores ∧ s.address ∈ addrs := by
  simp [storesUsedByLoadsBeforeBr]

/-- A store that may be a linearization point would be one if it were shorter. -/
theorem IsPoint.shorter {trace : Trace} {lpSrcs : List Text} {lockBased idx address size n : Nat}
    (h : IsPoint trace lpSrcs lockBased idx (address, size)) (hn : n ≤ size) :
    IsPoint trace lpSrcs lockBased idx (address, n) := by
  refine ⟨fun hmode => ?_, h.2⟩
  rintro ⟨alloc, halloc, hlt, hlt'⟩
  exact h.1 hmode ⟨alloc, halloc, by simp only at hlt ⊢; omega, hlt'⟩

/-- Only the allocations and the loads of the trace matter. -/
theorem isPoint_congr {trace trace' : Trace} (hallocs : trace'.allocs = trace.allocs)
    (hloads : trace'.loadSrcToAddrs = trace.loadSrcToAddrs) (lpSrcs : List Text)
    (lockBased idx : Nat) (range : Nat × Nat) :
    IsPoint trace' lpSrcs lockBased idx range ↔ IsPoint trace lpSrcs lockBased idx range := by
  unfold IsPoint lpAddrs
  rw [hallocs, hloads]

end Durinn
