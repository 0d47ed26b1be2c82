import Durinn.Race.Points

/-!
# Which locks are held

The lock list of the race detector against the locks that are really held.  On an `UnLock` the
detector goes backwards through its list and removes the first lock whose eight bytes overlap
those of the released one, which need not be the lock at its address.

* `reallyHeld` — the locks that are held, if an `UnLock` releases the lock at its own address.
* `FindsOwn` — the search for a released lock ends at its own address.
* `heldLocks_counts_iff` — the detector's list has the right locks after every operation if and only
  if every search does.
* `lockSets_of_findsOwn` — then the lock set of every report of stores is the set of the addresses
  that were locked more often than unlocked.  The assertion that a lock is held never fails.
-/

namespace Durinn

/-! ## Erasing the first match -/

section FirstMatch

variable {α : Type} {p q : α → Bool} {l : List α}

/-- If the first match of `p` is one of `q`, the same element is erased. -/
theorem eraseP_eq_eraseP (hqp : ∀ a, q a = true → p a = true)
    (h : ∀ xs a ys, l = xs ++ a :: ys → p a = true → q a = true ∨ ∃ b ∈ xs, q b = true) :
    l.eraseP p = l.eraseP q := by
  induction l with
  | nil => rfl
  | cons x l ih =>
    by_cases hq : q x = true
    · rw [List.eraseP_cons_of_pos (hqp x hq), List.eraseP_cons_of_pos hq]
    · have hp : ¬p x = true := by
        intro hp
        rcases h [] x l rfl hp with hx | ⟨b, hb, -⟩
        · exact hq hx
        · cases hb
      rw [List.eraseP_cons_of_neg hp, List.eraseP_cons_of_neg hq, ih]
      intro xs a ys hl ha
      rcases h (x :: xs) a ys (by rw [hl]; rfl) ha with ha | ⟨b, hb, hqb⟩
      · exact Or.inl ha
      · rcases List.mem_cons.1 hb with rfl | hb
        · exact absurd hqb hq
        · exact Or.inr ⟨b, hb, hqb⟩

/-- If a match of `p` comes before all those of `q`, no match of `q` is erased. -/
theorem countP_eraseP_of_before {xs ys : List α} {a : α} (hl : l = xs ++ a :: ys)
    (hp : p a = true) (hq : ¬q a = true) (hxs : ∀ b ∈ xs, ¬q b = true) :
    (l.eraseP p).countP q = l.countP q := by
  subst hl
  induction xs with
  | nil =>
    rw [List.nil_append, List.eraseP_cons_of_pos hp, List.countP_cons_of_neg hq]
  | cons x xs ih =>
    have hx : ¬q x = true := hxs x List.mem_cons_self
    rw [List.cons_append, List.countP_cons_of_neg hx]
    by_cases hpx : p x = true
    · rw [List.eraseP_cons_of_pos hpx]
    · rw [List.eraseP_cons_of_neg hpx, List.countP_cons_of_neg hx]
      exact ih fun b hb => hxs b (List.mem_cons_of_mem x hb)

end FirstMatch

/-! ## The locks that are held -/

/-- The number of times that the lock at `a` was acquired. -/
def lockCount (a : Nat) (ops : List Op) : Nat :=
  ops.countP fun op =>
    match op with
    | .lock l => l.address = a
    | _ => false

/-- The number of times that it was released. -/
def unlockCount (a : Nat) (ops : List Op) : Nat :=
  ops.countP fun op =>
    match op with
    | .unlock u => u.address = a
    | _ => false

/-- More `Lock`s than `UnLock`s at this address. -/
def IsHeld (ops : List Op) (a : Nat) : Prop := unlockCount a ops < lockCount a ops

/-- Every lock that is released is held. -/
def Balanced (ops : List Op) : Prop :=
  ∀ p u w, ops = p ++ .unlock u :: w → IsHeld p u.address

/-- Remove the lock acquired last among those at the address of the unlocked one. -/
def releaseLock (locks : List Lock) (op : UnLock) : List Lock :=
  (locks.reverse.eraseP fun lock => lock.address = op.address).reverse

/-- The locks that are held after some operations, in the order in which they were acquired. -/
def reallyHeld (ops : List Op) : List Lock :=
  ops.foldl (fun locks op =>
    match op with
    | .lock l => locks ++ [l]
    | .unlock u => releaseLock locks u
    | _ => locks) []

/-- The number of locks at an address in a list. -/
def countAt (a : Nat) (locks : List Lock) : Nat := locks.countP fun lock => lock.address = a

/-- Every lock that overlaps the released one is at its address, or was acquired before one that is:
so the search backwards ends at the address. -/
def FindsOwn (locks : List Lock) (u : UnLock) : Prop :=
  ∀ xs l ys, locks = xs ++ l :: ys → rangeCmp l u = .eq →
    l.address = u.address ∨ ∃ l' ∈ ys, l'.address = u.address

theorem Balanced.of_append {p w : List Op} (h : Balanced (p ++ w)) : Balanced p := by
  intro p' u w' hp
  exact h p' u (w' ++ w) (by simp [hp])

/-- A release among some operations and one more. -/
theorem unlock_split {done p w : List Op} {op : Op} {u : UnLock}
    (h : done ++ [op] = p ++ .unlock u :: w) :
    (p = done ∧ op = .unlock u) ∨ ∃ w', done = p ++ .unlock u :: w' := by
  rcases List.eq_nil_or_concat' w with rfl | ⟨w, x, rfl⟩
  · obtain ⟨hdone, hop⟩ := List.append_inj' h rfl
    exact Or.inl ⟨hdone.symm, (List.cons.inj hop).1⟩
  · have hcut : done ++ [op] = (p ++ .unlock u :: w) ++ [x] := by simp [h]
    exact Or.inr ⟨w, List.append_inj_left' hcut rfl⟩

/-- An operation that releases a held lock, or none, keeps this so. -/
theorem Balanced.append_singleton {done : List Op} {op : Op} (h : Balanced done)
    (hop : ∀ u, op = .unlock u → IsHeld done u.address) : Balanced (done ++ [op]) := by
  intro p u w hsplit
  rcases unlock_split hsplit with ⟨rfl, hlast⟩ | ⟨w', hdone⟩
  · exact hop u hlast
  · exact h p u w' hdone

theorem reallyHeld_append (done : List Op) (op : Op) :
    reallyHeld (done ++ [op]) =
      match op with
      | .lock l => reallyHeld done ++ [l]
      | .unlock u => releaseLock (reallyHeld done) u
      | _ => reallyHeld done := by
  simp only [reallyHeld, List.foldl_append, List.foldl_cons, List.foldl_nil]

theorem lockCount_append (a : Nat) (done : List Op) (op : Op) :
    lockCount a (done ++ [op]) =
      match op with
      | .lock l => lockCount a done + if l.address = a then 1 else 0
      | _ => lockCount a done := by
  rw [lockCount, List.countP_append, ← lockCount]
  cases op with
  | lock l => by_cases h : l.address = a <;> simp [h]
  | _ => simp

theorem unlockCount_append (a : Nat) (done : List Op) (op : Op) :
    unlockCount a (done ++ [op]) =
      match op with
      | .unlock u => unlockCount a done + if u.address = a then 1 else 0
      | _ => unlockCount a done := by
  rw [unlockCount, List.countP_append, ← unlockCount]
  cases op with
  | unlock u => by_cases h : u.address = a <;> simp [h]
  | _ => simp

theorem countAt_append (a : Nat) (locks : List Lock) (l : Lock) :
    countAt a (locks ++ [l]) = countAt a locks + if l.address = a then 1 else 0 := by
  rw [countAt, List.countP_append, ← countAt]
  by_cases h : l.address = a <;> simp [h]

theorem countAt_reverse (a : Nat) (locks : List Lock) : countAt a locks.reverse = countAt a locks :=
  List.countP_reverse

theorem exists_of_countAt_pos {a : Nat} {locks : List Lock} (h : 0 < countAt a locks) :
    ∃ l ∈ locks, l.address = a := by
  simpa [countAt, List.countP_pos_iff] using h

/-- A release takes one lock away, at its own address. -/
theorem countAt_releaseLock {locks : List Lock} {u : UnLock} (h : 0 < countAt u.address locks)
    (a : Nat) :
    countAt a (releaseLock locks u) + (if u.address = a then 1 else 0) = countAt a locks := by
  obtain ⟨l, hl, haddr⟩ := exists_of_countAt_pos h
  obtain ⟨l', xs, ys, -, hl', hsplit, herase⟩ := List.exists_of_eraseP
    (p := fun lock => lock.address = u.address) (List.mem_reverse.2 hl) (by simp [haddr])
  simp only [decide_eq_true_eq] at hl'
  rw [releaseLock, countAt_reverse, herase, ← countAt_reverse a locks, hsplit, ← hl']
  by_cases ha : l'.address = a
  · simp [countAt, ha]
    omega
  · simp [countAt, ha]

/-- **The real list has the right locks.** -/
theorem countAt_reallyHeld {ops : List Op} (h : Balanced ops) (a : Nat) :
    countAt a (reallyHeld ops) + unlockCount a ops = lockCount a ops := by
  induction ops using List.reverseRecOn generalizing a with
  | nil => rfl
  | append_singleton done op ih =>
    have hdone := ih h.of_append
    rw [reallyHeld_append, lockCount_append, unlockCount_append]
    cases op with
    | lock l =>
      have := hdone a
      simp only [countAt_append]
      omega
    | unlock u =>
      have hheld : IsHeld done u.address := h done u [] rfl
      have hpos : 0 < countAt u.address (reallyHeld done) := by
        have := hdone u.address
        unfold IsHeld at hheld
        omega
      have hrelease := countAt_releaseLock hpos a
      have := hdone a
      simp only
      omega
    | _ => exact hdone a

theorem length_releaseLock {locks : List Lock} {u : UnLock} (h : 0 < countAt u.address locks) :
    (releaseLock locks u).length + 1 = locks.length := by
  obtain ⟨l, hl, haddr⟩ := exists_of_countAt_pos h
  have hlen := List.length_eraseP_of_mem (p := fun lock => lock.address = u.address)
    (List.mem_reverse.2 hl) (by simp [haddr])
  rw [releaseLock, List.length_reverse, hlen, List.length_reverse]
  have := List.length_pos_of_mem hl
  omega

/-! ## The detector's list -/

theorem rangeCmp_own {l : Lock} {u : UnLock} (h : l.address = u.address) : rangeCmp l u = .eq := by
  rw [rangeCmp_eq_iff]
  show u.address < l.address + 8 ∧ l.address < u.address + 8
  omega

/-- The search for the released lock, on the list turned around. -/
theorem findsOwn_iff_reverse {locks : List Lock} {u : UnLock} :
    FindsOwn locks u ↔ ∀ xs l ys, locks.reverse = xs ++ l :: ys → rangeCmp l u = .eq →
      l.address = u.address ∨ ∃ l' ∈ xs, l'.address = u.address := by
  constructor
  · intro h xs l ys hsplit hl
    have hlocks : locks = ys.reverse ++ l :: xs.reverse := by
      rw [← List.reverse_reverse locks, hsplit]
      simp
    simpa using h _ l _ hlocks hl
  · intro h xs l ys hsplit hl
    have hlocks : locks.reverse = ys.reverse ++ l :: xs.reverse := by
      rw [hsplit]
      simp
    simpa using h _ l _ hlocks hl

/-- A search that ends at the right address removes the right lock. -/
theorem removeLock_eq_releaseLock {locks : List Lock} {u : UnLock} (h : FindsOwn locks u) :
    removeLock locks u = releaseLock locks u := by
  rw [removeLock, releaseLock, eraseP_eq_eraseP]
  · intro l hl
    exact decide_eq_true (rangeCmp_own (of_decide_eq_true hl))
  · intro xs l ys hsplit hl
    simpa using findsOwn_iff_reverse.1 h xs l ys hsplit (of_decide_eq_true hl)

/-- A search that does not leaves the released lock in the list. -/
theorem countAt_removeLock_of_not_findsOwn {locks : List Lock} {u : UnLock}
    (h : ¬FindsOwn locks u) :
    countAt u.address (removeLock locks u) = countAt u.address locks := by
  rw [findsOwn_iff_reverse] at h
  push Not at h
  obtain ⟨xs, l, ys, hsplit, hl, hne, hxs⟩ := h
  rw [removeLock, countAt_reverse, ← countAt_reverse u.address locks]
  exact countP_eraseP_of_before hsplit (decide_eq_true hl) (by simpa using hne) (by simpa using hxs)

/-- Every search for a released lock ends at its own address. -/
def EachFindsOwn (ops : List Op) : Prop :=
  ∀ p u w, ops = p ++ .unlock u :: w → FindsOwn (reallyHeld p) u

theorem eachFindsOwn_append {done : List Op} {op : Op} :
    EachFindsOwn (done ++ [op]) ↔
      EachFindsOwn done ∧ ∀ u, op = .unlock u → FindsOwn (reallyHeld done) u := by
  constructor
  · intro h
    refine ⟨fun p u w hp => h p u (w ++ [op]) (by simp [hp]), ?_⟩
    rintro u rfl
    exact h done u [] rfl
  · rintro ⟨hdone, hlast⟩ p u w hsplit
    rcases unlock_split hsplit with ⟨rfl, hop⟩ | ⟨w', hcut⟩
    · exact hlast u hop
    · exact hdone p u w' hcut

/-- **The detector's list is the real one**, if every search ends at the right address. -/
theorem heldLocks_eq_reallyHeld {ops : List Op} (h : EachFindsOwn ops) :
    heldLocks ops = reallyHeld ops := by
  induction ops using List.reverseRecOn with
  | nil => rfl
  | append_singleton done op ih =>
    obtain ⟨hdone, hlast⟩ := eachFindsOwn_append.1 h
    rw [heldLocks_append, reallyHeld_append, ih hdone]
    cases op with
    | unlock u => exact removeLock_eq_releaseLock (hlast u rfl)
    | _ => rfl

/-- **When the detector's list has the right locks**, after every operation. -/
theorem heldLocks_counts_iff {ops : List Op} (hbal : Balanced ops) :
    (∀ p, p <+: ops → ∀ a, countAt a (heldLocks p) + unlockCount a p = lockCount a p) ↔
      EachFindsOwn ops := by
  constructor
  · intro h
    induction ops using List.reverseRecOn with
    | nil =>
      intro p u w hp
      simp at hp
    | append_singleton done op ih =>
      have hdone := ih hbal.of_append fun p hp => h p (hp.trans (List.prefix_append done [op]))
      refine eachFindsOwn_append.2 ⟨hdone, ?_⟩
      rintro u rfl
      -- a search that goes wrong leaves one lock too many at the address
      by_contra hnot
      have hafter := h _ List.prefix_rfl u.address
      have hbefore := h done (List.prefix_append done [.unlock u]) u.address
      rw [heldLocks_append, lockCount_append, unlockCount_append] at hafter
      simp only [if_true] at hafter
      rw [heldLocks_eq_reallyHeld hdone] at hafter hbefore
      rw [countAt_removeLock_of_not_findsOwn hnot] at hafter
      omega
  · rintro h p ⟨w, rfl⟩ a
    have hp : EachFindsOwn p := fun p' u w' hsplit => h p' u (w' ++ w) (by simp [hsplit])
    rw [heldLocks_eq_reallyHeld hp]
    exact countAt_reallyHeld hbal.of_append a

/-! ## The walk -/

/-- The detector's list is never shorter than the real one: it loses at most one lock where that
loses one. -/
theorem length_reallyHeld_le {ops : List Op} (hbal : Balanced ops) :
    (reallyHeld ops).length ≤ (heldLocks ops).length := by
  induction ops using List.reverseRecOn with
  | nil => exact le_rfl
  | append_singleton done op ih =>
    have hdone := ih hbal.of_append
    rw [heldLocks_append, reallyHeld_append]
    cases op with
    | lock l => simpa using hdone
    | unlock u =>
      have hcount := countAt_reallyHeld hbal.of_append u.address
      have hheld : IsHeld done u.address := hbal done u [] rfl
      unfold IsHeld at hheld
      have hrelease := length_releaseLock (u := u)
        (show 0 < countAt u.address (reallyHeld done) by omega)
      have hremove : (heldLocks done).length - 1 ≤ (removeLock (heldLocks done) u).length := by
        rw [removeLock, List.length_reverse]
        calc (heldLocks done).length - 1 = (heldLocks done).reverse.length - 1 := by
              rw [List.length_reverse]
          _ ≤ _ := List.le_length_eraseP
      simp only
      omega
    | _ => exact hdone

/-- **The assertion never fails**, and the walk has the state that its operations say. -/
theorem run_after_of_balanced (lpStores : List Store) {ops : List Op} (hbal : Balanced ops) :
    ops.foldlM (RaceState.step lpStores) RaceState.start = some (RaceState.after lpStores ops) := by
  induction ops using List.reverseRecOn with
  | nil => rfl
  | append_singleton done op ih =>
    rw [List.foldlM_append, ih hbal.of_append]
    simp only [Option.bind_eq_bind, Option.bind_some, List.foldlM_cons, List.foldlM_nil]
    have hsome : ((RaceState.after lpStores done).step lpStores op).isSome = true := by
      cases op with
      | unlock u =>
        have hcount := countAt_reallyHeld hbal.of_append u.address
        have hheld : IsHeld done u.address := hbal done u [] rfl
        unfold IsHeld at hheld
        obtain ⟨l, hl, -⟩ := exists_of_countAt_pos
          (show 0 < countAt u.address (reallyHeld done) by omega)
        have hpos := List.length_pos_of_mem hl
        have hlen := length_reallyHeld_le hbal.of_append
        have hne : ¬(heldLocks done).length = 0 := by omega
        simp [RaceState.step, RaceState.after, hne]
      | apiEnd b =>
        simp only [RaceState.step]
        split <;> rfl
      | _ => rfl
    obtain ⟨st, hst⟩ := Option.isSome_iff_exists.1 hsome
    rw [hst, RaceState.step_after hst]
    rfl

theorem mem_lockAddrs {a : Nat} {locks : List Lock} :
    a ∈ lockAddrs locks ↔ 0 < countAt a locks := by
  simp [lockAddrs, countAt, List.countP_pos_iff]

/-- **The locks of a report.**  If every lock that is released is held, the assertion of the walk
never fails.  The lock list has the right locks after every operation if and only if every search
for a released lock ends at its own address; and then every report of stores, at a fence or at the
end of the call, has the locks that are held there. -/
theorem lockSets_of_findsOwn (lpStores : List Store) {ops : List Op} (hbal : Balanced ops) :
    (raceOpsPerApi lpStores ops).isSome = true ∧
      ((∀ p st, p <+: ops → p.foldlM (RaceState.step lpStores) RaceState.start = some st →
        ∀ a, countAt a st.locks + unlockCount a p = lockCount a p) ↔ EachFindsOwn ops) ∧
      (EachFindsOwn ops → ∀ p op w, ops = p ++ op :: w → ∀ r, ReportedAt lpStores p op r →
        ∀ a, a ∈ r.lockSet ↔ IsHeld p a) := by
  have hpre : ∀ {p}, p <+: ops → Balanced p := by
    rintro p ⟨w, rfl⟩
    exact hbal.of_append
  refine ⟨?_, ?_, ?_⟩
  · rw [raceOpsPerApi, run_after_of_balanced lpStores hbal]
    rfl
  · rw [← heldLocks_counts_iff hbal]
    constructor
    · intro h p hp
      exact h p _ hp (run_after_of_balanced lpStores (hpre hp))
    · intro h p st hp hst
      cases (run_after_of_balanced lpStores (hpre hp)).symm.trans hst
      exact h p hp
  · rintro hfinds p op w rfl r hr a
    have hbal' : Balanced (p ++ [op]) := hpre ⟨w, by simp⟩
    have hcounts := (heldLocks_counts_iff hbal).2 hfinds p (List.prefix_append p _) a
    have hreport := (reportedAt_iff (run_after_of_balanced lpStores hbal')).1 hr
    rw [(reportsSt_spec hreport).2.1, mem_lockAddrs, IsHeld]
    omega

/-- A store under two locks, of which the first is released before the store. -/
def storeUnder (a b : Nat) : List Op :=
  [.apiBegin ⟨0, 1, []⟩, .lock ⟨⟨1, 1, []⟩, a⟩, .lock ⟨⟨2, 1, []⟩, b⟩, .unlock ⟨⟨3, 1, []⟩, a⟩,
    .store ⟨⟨4, 1, []⟩, 0x100, 1, [7], 0⟩, .flush ⟨⟨5, 1, []⟩, 0x100⟩, .fence ⟨6, 1, []⟩,
    .unlock ⟨⟨7, 1, []⟩, b⟩, .apiEnd ⟨8, 1, []⟩]

/-- The `UnLock`s of `storeUnder`. -/
theorem storeUnder_split {a b : Nat} {p w : List Op} {u : UnLock}
    (h : storeUnder a b = p ++ .unlock u :: w) :
    p = (storeUnder a b).take 3 ∧ u.address = a ∨ p = (storeUnder a b).take 7 ∧ u.address = b := by
  simp only [storeUnder, List.cons_eq_append_iff] at h
  simp at h
  obtain ⟨rest, rfl, ⟨rfl, rfl, -⟩ | ⟨rfl, rfl, -⟩⟩ := h
  · exact Or.inl ⟨rfl, rfl⟩
  · exact Or.inr ⟨rfl, rfl⟩

theorem balanced_storeUnder (a b : Nat) : Balanced (storeUnder a b) := by
  intro p u w h
  rcases storeUnder_split h with ⟨rfl, hu⟩ | ⟨rfl, hu⟩
  all_goals
    rw [hu]
    by_cases hab : a = b <;> simp [storeUnder, IsHeld, lockCount, unlockCount, hab]

/-- The locks are eight bytes apart, and the report has the one that is held. -/
theorem lockSets_of_findsOwn_apart :
    ∃ r, ReportedAt [⟨⟨4, 1, []⟩, 0x100, 1, [7], 0⟩] ((storeUnder 0x900 0x908).take 6)
        (.fence ⟨6, 1, []⟩) r ∧ 0x908 ∈ r.lockSet ∧ 0x900 ∉ r.lockSet := by
  have hbal := balanced_storeUnder 0x900 0x908
  have hfinds : EachFindsOwn (storeUnder 0x900 0x908) := by
    intro p u w h xs l ys hsplit hl
    rw [rangeCmp_eq_iff] at hl
    have hnear : u.address < l.address + 8 ∧ l.address < u.address + 8 := hl
    have hmem : l ∈ reallyHeld p := by simp [hsplit]
    have haddr : l.address = 0x900 ∨ l.address = 0x908 := by
      rcases storeUnder_split h with ⟨rfl, -⟩ | ⟨rfl, -⟩
      · rcases List.mem_pair.1 hmem with rfl | rfl
        · exact Or.inl rfl
        · exact Or.inr rfl
      · rw [List.mem_singleton.1 hmem]
        exact Or.inr rfl
    have hu : u.address = 0x900 ∨ u.address = 0x908 :=
      (storeUnder_split h).imp (fun h => h.2) fun h => h.2
    omega
  have hreport : ReportedAt [⟨⟨4, 1, []⟩, 0x100, 1, [7], 0⟩] ((storeUnder 0x900 0x908).take 6)
      (.fence ⟨6, 1, []⟩) ⟨.fence ⟨6, 1, []⟩, {0x100}, {0x908}⟩ := by
    have hbal' : Balanced ((storeUnder 0x900 0x908).take 7) :=
      Balanced.of_append (w := (storeUnder 0x900 0x908).drop 7) hbal
    exact (reportedAt_iff (run_after_of_balanced _ hbal')).2 (by decide +kernel)
  have hlocks := (lockSets_of_findsOwn _ hbal).2.2 hfinds _ _ _ rfl _ hreport
  refine ⟨_, hreport, (hlocks 0x908).2 ?_, fun hmem => absurd ((hlocks 0x900).1 hmem) ?_⟩
  · unfold IsHeld
    decide
  · unfold IsHeld
    decide

/-- The locks are four bytes apart, and the report has the one that was released. -/
theorem lockSet_of_neighbours :
    Balanced (storeUnder 0x900 0x904) ∧
      raceOpsPerApi [⟨⟨4, 1, []⟩, 0x100, 1, [7], 0⟩] (storeUnder 0x900 0x904) =
        some ([⟨.fence ⟨6, 1, []⟩, {0x100}, {0x900}⟩], []) ∧
      ¬IsHeld ((storeUnder 0x900 0x904).take 6) 0x900 ∧
      IsHeld ((storeUnder 0x900 0x904).take 6) 0x904 := by
  refine ⟨balanced_storeUnder _ _, by decide +kernel, ?_, ?_⟩
  · unfold IsHeld
    decide
  · unfold IsHeld
    decide

end Durinn
