import Durinn.Lib.Runs
import Durinn.Lib.Tiling
import Durinn.Persist.WitcherCache
import Durinn.Trace.Parse

/-!
# Atomic pieces of a store

`Trace.get_stores` cuts a store entry at the boundaries of words of `ATOMIC_WRITE_BYTES`.

* `getStores_eq` — what it does, as a loop over the chunks of the entry; the chunks are the
  cuts of the written range (`chunks_map_fst`).
* `getStores_shape` — where the pieces of an accepted entry lie, whatever its address.
* `getStores_eq_pieces` — below `2 ^ 53`, where the division is exact, the pieces of a store
  of bytes, one by one.
-/

namespace Durinn

open PyText Tiling

/-! ## The fields of a store entry -/

/-- The fields of a store entry. -/
structure StoreFields where
  tid : Nat
  address : Nat
  size : Nat
  value : List Text
  srcInfo : Text
  isCas : Nat

/-- The fields as they are read from an entry. -/
def storeFields (params : List Text) : Option StoreFields := do
  let tid ← natField 10 params 1
  let address ← natField 16 params 2
  let size ← natField 10 params 3
  let text ← params[4]?
  let srcInfo ← params[5]?
  let isCas ← natField 10 params 6
  return ⟨tid, address, size, text.splitOn ' ', srcInfo, isCas⟩

theorem parseOp_store (strs : List Text) (id : Nat) :
    parseOp strs id .store = (storeFields strs).bind fun f =>
      (Store.new f.address f.size f.value id f.tid f.srcInfo f.isCas).map Op.store := by
  simp only [parseOp, storeFields, Option.bind_eq_bind, Option.bind_assoc, Option.pure_def,
    Option.bind_some, Option.map_eq_bind]
  rfl

namespace StoreFields

/-- How far it is to the next word, if the address does not begin one, as `Trace.get_stores`
computes it. -/
def head (f : StoreFields) : Option Nat :=
  let low := FloatDiv.truncTrueDiv f.address atomicWriteBytes * atomicWriteBytes
  if low < f.address then some (low + atomicWriteBytes - f.address) else none

/-- The chunks that are written by the pieces: where, relative to the address, and what. -/
def chunks (f : StoreFields) : List ((Nat × Nat) × List Text) :=
  let start := f.head.getD 0
  let words := (f.size - start) / atomicWriteBytes
  let stop := start + words * atomicWriteBytes
  f.head.toList.map (fun h => ((0, min f.size h), f.value.take (min f.size h))) ++
    (List.range words).map (fun k => ((start + k * atomicWriteBytes, atomicWriteBytes),
      (f.value.drop (start + k * atomicWriteBytes)).take atomicWriteBytes)) ++
    if stop < f.size then [((stop, f.size - stop), f.value.drop stop)] else []

/-- The piece for a chunk. -/
def piece (f : StoreFields) (c : (Nat × Nat) × List Text) (id : Nat) : Option Store :=
  Store.new (f.address + c.1.1) c.1.2 c.2 id f.tid f.srcInfo f.isCas

theorem chunks_map_fst (f : StoreFields) :
    f.chunks.map Prod.fst = cuts atomicWriteBytes f.size f.head := by
  simp only [chunks, cuts, List.map_append, List.map_map]
  congr 1
  split <;> rfl

/-- The chunks of as many byte texts as the size says are slices of the value. -/
theorem chunks_eq {f : StoreFields} (h : f.value.length = f.size) :
    f.chunks = (cuts atomicWriteBytes f.size f.head).map fun c =>
      (c, (f.value.drop c.1).take c.2) := by
  simp only [chunks, cuts, List.map_append, List.map_map]
  congr 1
  split
  · rename_i hstop
    have hall : f.value.drop (f.head.getD 0 + (f.size - f.head.getD 0) / atomicWriteBytes *
        atomicWriteBytes) = (f.value.drop (f.head.getD 0 + (f.size - f.head.getD 0) /
          atomicWriteBytes * atomicWriteBytes)).take (f.size - (f.head.getD 0 +
            (f.size - f.head.getD 0) / atomicWriteBytes * atomicWriteBytes)) := by
      rw [List.take_of_length_le]
      rw [List.length_drop, h]
    rw [List.map_singleton, ← hall]
  · rfl

end StoreFields

theorem zipIdx_map_range {α : Type} (g : Nat → α) (n i : Nat) :
    ((List.range n).map g).zipIdx i = (List.range n).map fun k => (g k, i + k) := by
  apply List.ext_getElem <;> simp

/-- **`Trace.get_stores` as a loop over the chunks.** -/
theorem getStores_eq (params : List Text) (i : Nat) :
    getStores params i = (storeFields params).bind fun f =>
      if FloatDiv.truncTrueDiv f.address atomicWriteBytes * atomicWriteBytes + atomicWriteBytes <
          f.address then none
      else (f.chunks.zipIdx i).mapM fun c => f.piece c.1 c.2 := by
  simp only [getStores, storeFields, Option.bind_eq_bind, Option.bind_assoc, Option.pure_def,
    Option.bind_some]
  refine Option.bind_congr fun tid _ => Option.bind_congr fun address _ => Option.bind_congr
    fun size _ => Option.bind_congr fun text _ => Option.bind_congr fun srcInfo _ =>
    Option.bind_congr fun isCas _ => ?_
  split
  · rfl
  · refine Eq.trans ?_ (List.mapM_map (g := id))
    congr 1
    simp only [StoreFields.chunks, StoreFields.head]
    generalize FloatDiv.truncTrueDiv address atomicWriteBytes * atomicWriteBytes = low
    -- the index goes on after the head, if there is one
    rcases lt_or_ge low address with hlow | hlow
    · simp only [if_pos hlow, Option.getD_some, Option.toList_some, List.map_singleton,
        List.zipIdx_append, zipIdx_map_range, List.map_append, List.map_map, List.zipIdx_singleton,
        List.length_append, List.length_map, List.length_range, List.length_singleton]
      congr 1
      split
      · simp only [List.zipIdx_singleton, List.map_singleton, Nat.add_assoc]
        rfl
      · rfl
    · simp only [if_neg (not_lt.2 hlow), Option.getD_none, Option.toList_none, List.map_nil,
        List.nil_append, List.zipIdx_append, zipIdx_map_range, List.map_append, List.map_map,
        List.length_map, List.length_range, List.length_nil, Nat.add_zero]
      congr 1
      split
      · rw [List.zipIdx_singleton, List.map_singleton]
        rfl
      · rfl

theorem StoreFields.piece_spec {f : StoreFields} {c : (Nat × Nat) × List Text} {id : Nat}
    {p : Store} (h : f.piece c id = some p) :
    (p.address, p.size) = (f.address + c.1.1, c.1.2) ∧ p.id = id ∧
      p.tid = f.tid ∧ p.srcInfo = f.srcInfo ∧ p.isCas = f.isCas := by
  obtain ⟨bytes, -, rfl⟩ := Option.map_eq_some_iff.1 h
  exact ⟨rfl, rfl, rfl, rfl, rfl⟩

/-- **Where the pieces of an accepted entry lie**, and what else they have. -/
theorem getStores_shape {params : List Text} {f : StoreFields} {i : Nat} {pieces : List Store}
    (hf : storeFields params = some f) (h : getStores params i = some pieces) :
    pieces.map (fun p => (p.address, p.size)) =
        (cuts atomicWriteBytes f.size f.head).map (fun c => (f.address + c.1, c.2)) ∧
      pieces.map (fun p => p.id) = List.range' i pieces.length ∧
      ∀ p ∈ pieces, p.tid = f.tid ∧ p.srcInfo = f.srcInfo ∧ p.isCas = f.isCas := by
  rw [getStores_eq, hf, Option.bind_some] at h
  split at h
  · cases h
  · refine ⟨?_, ?_, fun p hp => ?_⟩
    · rw [Runs.map_of_mapM (h := fun c => (f.address + c.1.1.1, c.1.1.2)) h
        fun _ _ hp => (f.piece_spec hp).1, ← f.chunks_map_fst, List.map_map]
      conv_rhs => rw [← List.zipIdx_map_fst i f.chunks, List.map_map]
      rfl
    · rw [Runs.map_of_mapM (h := Prod.snd) h fun _ _ hp => (f.piece_spec hp).2.1,
        List.zipIdx_map_snd, ← List.length_zipIdx (i := i), (Runs.mapM_eq_some_iff.1 h).length_eq]
    · obtain ⟨c, -, hc⟩ := Runs.mem_of_mapM h hp
      exact (f.piece_spec hc).2.2

/-! ## Below `2 ^ 53` -/

theorem truncTrueDiv_atomicWriteBytes {address : Nat} (h : address < 2 ^ 53) :
    FloatDiv.truncTrueDiv address atomicWriteBytes = address / atomicWriteBytes :=
  FloatDiv.truncTrueDiv_two_pow (i := 0) (j := 3) (by omega) (by omega) (one_dvd _) h

namespace StoreFields

variable {f : StoreFields}

/-- Where the division is exact, the head ends at the next word. -/
theorem head_eq (h : f.address < 2 ^ 53) : f.head = toNextWord atomicWriteBytes f.address := by
  have hdiv : f.address / atomicWriteBytes * atomicWriteBytes + f.address % atomicWriteBytes =
      f.address := Nat.div_add_mod' _ _
  rw [head, toNextWord, truncTrueDiv_atomicWriteBytes h]
  by_cases hmod : f.address % atomicWriteBytes = 0
  · rw [if_pos hmod, if_neg (by omega)]
  · rw [if_neg hmod, if_pos (by omega)]
    congr 1
    omega

/-- The piece that writes these bytes of the store. -/
def writing (f : StoreFields) (bytes : List UInt8) (c : Nat × Nat) (id : Nat) : Store :=
  ⟨⟨id, f.tid, f.srcInfo⟩, f.address + c.1, c.2, (bytes.drop c.1).take c.2, f.isCas⟩

/-- The pieces of a store of bytes. -/
def split (f : StoreFields) (bytes : List UInt8) (n : Nat) : List Store :=
  ((cuts atomicWriteBytes f.size (toNextWord atomicWriteBytes f.address)).zipIdx n).map fun c =>
    f.writing bytes c.1 c.2

theorem piece_eq_writing {bytes : List UInt8}
    (hbytes : List.Forall₂ (fun t b => fromHex t = some [b]) f.value bytes) (c : Nat × Nat)
    (id : Nat) :
    f.piece (c, (f.value.drop c.1).take c.2) id = some (f.writing bytes c id) := by
  have hslice := fromHex_flatten (List.forall₂_take c.2 (List.forall₂_drop c.1 hbytes))
  exact Option.map_eq_some_iff.2 ⟨_, hslice, rfl⟩

end StoreFields

/-- **The pieces of a store of bytes**, where the division is exact. -/
theorem getStores_eq_pieces {params : List Text} {f : StoreFields} {bytes : List UInt8}
    (hf : storeFields params = some f) (haddr : f.address < 2 ^ 53)
    (hlen : f.value.length = f.size)
    (hbytes : List.Forall₂ (fun t b => fromHex t = some [b]) f.value bytes) (n : Nat) :
    getStores params n = some (f.split bytes n) := by
  rw [getStores_eq, hf, Option.bind_some, if_neg]
  · rw [StoreFields.chunks_eq hlen, StoreFields.head_eq haddr, List.zipIdx_map, List.mapM_map]
    exact Runs.mapM_eq_some fun c _ => StoreFields.piece_eq_writing hbytes c.1 c.2
  · rw [truncTrueDiv_atomicWriteBytes haddr]
    have := Nat.lt_div_mul_add (a := f.address) (show 0 < atomicWriteBytes by decide)
    omega

/-- What the pieces of a store entry with ids from `n` on have to be. -/
structure IsSplit (f : StoreFields) (bytes : List UInt8) (n : Nat) (pieces : List Store) :
    Prop where
  /-- They follow each other from the first byte of the store to its last. -/
  tiles : Tiles f.address (f.address + f.size) (pieces.map fun p => (p.address, p.size))
  /-- Each was made from as many byte texts as it is long, and these are together the value. -/
  values : ∃ values, List.Forall₂ (fun p v => v.length = p.size ∧
    Store.new p.address p.size v p.id p.tid p.srcInfo p.isCas = some p) pieces values ∧
    values.flatten = f.value
  /-- They write the bytes of the store. -/
  bytes : (pieces.map fun p => p.valueBytes).flatten = bytes ∧
    ∀ p ∈ pieces, p.valueBytes.length = p.size
  /-- Each lies inside one word, hence inside one line. -/
  word : ∀ p ∈ pieces, 1 ≤ p.size ∧
    (p.address + p.size - 1) / atomicWriteBytes = p.address / atomicWriteBytes ∧
    (p.address + p.size - 1) / cachelineBytes = p.address / cachelineBytes
  /-- Later ones lie in later words. -/
  words : pieces.Pairwise fun p q => p.address / atomicWriteBytes < q.address / atomicWriteBytes
  /-- Their ids follow each other. -/
  ids : pieces.map (fun p => p.id) = List.range' n pieces.length
  /-- The rest is that of the entry. -/
  rest : ∀ p ∈ pieces, p.tid = f.tid ∧ p.srcInfo = f.srcInfo ∧ p.isCas = f.isCas

/-- A store inside a word whose line is computed exactly lies inside that line. -/
theorem Store.inLine_of_inWord {p : Store} (hlt : p.address < 2 ^ 56)
    (haligned : p.address < 2 ^ 53 ∨ atomicWriteBytes ∣ p.address)
    (hword : p.address % atomicWriteBytes + p.size ≤ atomicWriteBytes) : p.InLine := by
  have hline : p.line = p.address / cachelineBytes * cachelineBytes := by
    refine congrArg (· * cachelineBytes) ?_
    rcases haligned with h | h
    · exact FloatDiv.truncTrueDiv_two_pow (i := 0) (j := 6) (by omega) (by omega) (one_dvd _) h
    · exact FloatDiv.truncTrueDiv_two_pow (i := 3) (j := 6) (by omega) (by omega) h hlt
  rw [Store.InLine, hline]
  simp only [atomicWriteBytes, cachelineBytes] at *
  omega

namespace StoreFields

variable {f : StoreFields} {bytes : List UInt8} {n : Nat}

theorem map_split {α : Type} (g : Store → α) (h : Nat × Nat → α)
    (hgh : ∀ c id, g (f.writing bytes c id) = h c) :
    (f.split bytes n).map g =
      (cuts atomicWriteBytes f.size (toNextWord atomicWriteBytes f.address)).map h := by
  rw [split, List.map_map]
  conv_rhs => rw [← List.zipIdx_map_fst n (cuts _ _ _), List.map_map]
  exact List.map_congr_left fun c _ => hgh c.1 c.2

theorem mem_split {p : Store} (hp : p ∈ f.split bytes n) :
    ∃ c ∈ cuts atomicWriteBytes f.size (toNextWord atomicWriteBytes f.address), ∃ id,
      p = f.writing bytes c id := by
  obtain ⟨⟨c, id⟩, hc, rfl⟩ := List.mem_map.1 hp
  exact ⟨c, List.fst_mem_of_mem_zipIdx hc, id, rfl⟩

/-- What is true of the pieces of a store of at least one byte. -/
theorem isSplit_split (hsize : 1 ≤ f.size) (hlen : f.value.length = f.size)
    (hbytes : List.Forall₂ (fun t b => fromHex t = some [b]) f.value bytes) (n : Nat) :
    IsSplit f bytes n (f.split bytes n) := by
  have hw : 0 < atomicWriteBytes := by decide
  have htiles := tiles_cuts atomicWriteBytes f.size (toNextWord atomicWriteBytes f.address)
  have hlength : bytes.length = f.size := by rw [← hbytes.length_eq, hlen]
  constructor
  case tiles =>
    rw [map_split _ (fun c => (f.address + c.1, c.2)) fun _ _ => rfl]
    exact htiles.shift f.address
  case values =>
    refine ⟨((cuts atomicWriteBytes f.size (toNextWord atomicWriteBytes f.address)).zipIdx n).map
      fun c => (f.value.drop c.1.1).take c.1.2, ?_, ?_⟩
    · rw [split, List.forall₂_map_left_iff, List.forall₂_map_right_iff, List.forall₂_same]
      rintro ⟨c, id⟩ hc
      exact ⟨htiles.length_slice hlen.ge (List.fst_mem_of_mem_zipIdx hc),
        piece_eq_writing hbytes c id⟩
    · have hslices := htiles.flatten_slices f.value
      rw [List.drop_zero, Nat.sub_zero, ← hlen, List.take_length, hlen] at hslices
      conv_rhs => rw [← hslices, ← List.zipIdx_map_fst n (cuts _ _ _), List.map_map]
      rfl
  case bytes =>
    constructor
    · rw [map_split _ (fun c => (bytes.drop c.1).take c.2) fun _ _ => rfl, htiles.flatten_slices,
        List.drop_zero, Nat.sub_zero, ← hlength, List.take_length]
    · intro p hp
      obtain ⟨c, hc, id, rfl⟩ := mem_split hp
      exact htiles.length_slice hlength.ge hc
  case word =>
    intro p hp
    obtain ⟨c, hc, id, rfl⟩ := mem_split hp
    have hpos := cuts_pos hw hsize hc
    have hin := cuts_inWord hw hc
    simp only [writing, atomicWriteBytes, cachelineBytes] at *
    omega
  case words =>
    refine (List.pairwise_map (R := (· < ·)) (f := fun p : Store =>
      p.address / atomicWriteBytes)).1 ?_
    rw [map_split _ (fun c => (f.address + c.1) / atomicWriteBytes) fun _ _ => rfl]
    exact List.pairwise_map.2 (cuts_words hw hsize)
  case ids =>
    simp only [split, List.map_map, List.length_map, List.length_zipIdx]
    exact List.zipIdx_map_snd n _
  case rest =>
    intro p hp
    obtain ⟨c, -, id, rfl⟩ := mem_split hp
    exact ⟨rfl, rfl, rfl⟩

/-- Below `2 ^ 56` every piece lies inside its line, as `get_cacheline_address` computes it. -/
theorem inLine_of_mem_split (haddr : f.address < 2 ^ 53) {p : Store}
    (hp : p ∈ f.split bytes n) (hlt : p.address < 2 ^ 56) : p.InLine := by
  have hw : 0 < atomicWriteBytes := by decide
  obtain ⟨c, hc, id, rfl⟩ := mem_split hp
  refine Store.inLine_of_inWord hlt ?_ (cuts_inWord hw hc)
  rcases cuts_aligned hw hc with h0 | hmod
  · left
    show f.address + c.1 < 2 ^ 53
    omega
  · exact Or.inr (Nat.dvd_of_mod_eq_zero hmod)

end StoreFields

theorem WitcherCacheline.acceptStore_eq_none_iff {p : Store} {cells : List (Cell Store)} :
    (WitcherCacheline.mk (getCachelineAddress p.address) cachelineBytes cells).acceptStore p =
      none ↔ ¬ p.InLine := by
  have hcan : (WitcherCacheline.mk (getCachelineAddress p.address) cachelineBytes
      cells).canAcceptStoreOp p = true ↔ p.InLine := by
    rw [WitcherCacheline.canAcceptStoreOp, Bool.and_eq_true, decide_eq_true_eq, decide_eq_true_eq]
    rfl
  rw [WitcherCacheline.acceptStore, ← hcan]
  split <;> simp_all

/-- **Splitting a store loses and invents nothing.**  At an address below `2 ^ 53`, the pieces
of a store of at least one byte follow each other through it, carry its bytes, lie each in a
word of its own and have the next ids; and the line of a piece below `2 ^ 56` accepts it. -/
theorem getStores_isSplit {params : List Text} {f : StoreFields} {bytes : List UInt8}
    (hf : storeFields params = some f) (haddr : f.address < 2 ^ 53) (hsize : 1 ≤ f.size)
    (hlen : f.value.length = f.size)
    (hbytes : List.Forall₂ (fun t b => fromHex t = some [b]) f.value bytes) (n : Nat) :
    ∃ pieces, getStores params n = some pieces ∧ IsSplit f bytes n pieces ∧
      ∀ p ∈ pieces, p.address < 2 ^ 56 → ∀ cells,
        (WitcherCacheline.mk (getCachelineAddress p.address) cachelineBytes cells).acceptStore p ≠
          none := by
  refine ⟨_, getStores_eq_pieces hf haddr hlen hbytes n,
    StoreFields.isSplit_split hsize hlen hbytes n, fun p hp hlt cells hnone => ?_⟩
  exact WitcherCacheline.acceptStore_eq_none_iff.1 hnone
    (StoreFields.inLine_of_mem_split haddr hp hlt)

/-- A store of nine bytes from the fifth byte of a word on. -/
def nineBytes : List Text :=
  ["Store".toList, ['1'], "0x24".toList, ['9'], "01 02 03 04 05 06 07 08 09".toList, ['7'], ['0']]

theorem getStores_isSplit_nineBytes :
    ∃ pieces, getStores nineBytes 5 = some pieces ∧
      IsSplit ⟨1, 0x24, 9, "01 02 03 04 05 06 07 08 09".toList.splitOn ' ', ['7'], 0⟩
        [1, 2, 3, 4, 5, 6, 7, 8, 9] 5 pieces ∧
      ∀ p ∈ pieces, p.address < 2 ^ 56 → ∀ cells,
        (WitcherCacheline.mk (getCachelineAddress p.address) cachelineBytes cells).acceptStore p ≠
          none := by
  refine getStores_isSplit (by rfl) (by decide) (by decide) (by decide +kernel) ?_ 5
  rw [show "01 02 03 04 05 06 07 08 09".toList.splitOn ' ' = ["01".toList, "02".toList, "03".toList,
    "04".toList, "05".toList, "06".toList, "07".toList, "08".toList, "09".toList] by decide +kernel]
  repeat constructor

/-- A store of `2 ^ 56 + 64` zero bytes at `0`. -/
def hugeStore : List Text :=
  ["Store".toList, ['1'], ['0'], "72057594037928000".toList,
    [' '].intercalate (List.replicate 72057594037928000 "00".toList), ['7'], ['0']]

/-- The line of the last piece of a store that reaches beyond `2 ^ 56` is rounded up, and does
not accept the piece. -/
theorem getStores_piece_rejected :
    ∃ f bytes pieces, storeFields hugeStore = some f ∧ f.address < 2 ^ 53 ∧ 1 ≤ f.size ∧
      f.value.length = f.size ∧
      List.Forall₂ (fun t b => fromHex t = some [b]) f.value bytes ∧
      getStores hugeStore 0 = some pieces ∧
      ∃ p ∈ pieces, ∀ cells,
        (WitcherCacheline.mk (getCachelineAddress p.address) cachelineBytes cells).acceptStore p =
          none := by
  have hvalue : ([' '].intercalate (List.replicate 72057594037928000 "00".toList)).splitOn ' ' =
      List.replicate 72057594037928000 "00".toList := by
    refine List.splitOn_intercalate ' ' (fun t ht => ?_) (List.ne_nil_of_length_pos ?_)
    · rw [List.eq_of_mem_replicate ht]
      decide
    · rw [List.length_replicate]
      norm_num
  have hf : storeFields hugeStore =
      some ⟨1, 0, 72057594037928000, List.replicate 72057594037928000 "00".toList, ['7'], 0⟩ := by
    have h₁ : natField 10 hugeStore 1 = some 1 := by decide +kernel
    have h₂ : natField 16 hugeStore 2 = some 0 := by decide +kernel
    have h₃ : natField 10 hugeStore 3 = some 72057594037928000 := by decide +kernel
    have h₆ : natField 10 hugeStore 6 = some 0 := by decide +kernel
    simp only [storeFields, h₁, h₂, h₃, h₆, Option.bind_eq_bind, Option.bind_some]
    simp only [hugeStore, List.getElem?_cons_succ, List.getElem?_cons_zero,
      Option.bind_some, hvalue]
    rfl
  have hbytes : List.Forall₂ (fun t b => fromHex t = some [b])
      (List.replicate 72057594037928000 "00".toList) (List.replicate 72057594037928000 0) := by
    rw [List.forall₂_iff_get]
    refine ⟨by rw [List.length_replicate, List.length_replicate], fun i _ _ => ?_⟩
    rw [List.get_eq_getElem, List.get_eq_getElem, List.getElem_replicate, List.getElem_replicate]
    decide
  refine ⟨_, _, _, hf, by norm_num, by norm_num, List.length_replicate, hbytes,
    getStores_eq_pieces hf (by norm_num) List.length_replicate hbytes 0, ?_⟩
  have hcut : (72057594037927992, 8) ∈ cuts atomicWriteBytes 72057594037928000
      (toNextWord atomicWriteBytes 0) := by
    refine List.mem_append_left _ (List.mem_append_right _
      (List.mem_map.2 ⟨9007199254740999, ?_, ?_⟩))
    · rw [List.mem_range]
      decide
    · decide
  have hpiece : (72057594037927992, 8) ∈ (StoreFields.split ⟨1, 0, 72057594037928000,
      List.replicate 72057594037928000 "00".toList, ['7'], 0⟩
      (List.replicate 72057594037928000 0) 0).map fun p => (p.address, p.size) := by
    rw [StoreFields.map_split _ (fun c => (0 + c.1, c.2)) fun _ _ => rfl]
    exact List.mem_map.2 ⟨_, hcut, rfl⟩
  obtain ⟨p, hp, heq⟩ := List.mem_map.1 hpiece
  refine ⟨p, hp, fun cells => WitcherCacheline.acceptStore_eq_none_iff.2 ?_⟩
  rw [Prod.mk.injEq] at heq
  rw [Store.InLine, Store.line, heq.1, heq.2]
  decide +kernel

end Durinn
