import Durinn.Lib.Image
import Durinn.Trace.MemOps

/-!
# Crash images

The model of `trace_checker/lib/binaryfile.py`: a file that holds an image of the
persistent memory, mapped at the address the traced program had it at, and the one
operation the caches use on it, `do_store`.

A store that lies in the mapped range and carries as many bytes as its size says
(`InFile`) is written without an exception, and then a sequence of stores is a
sequence of overlays (`doStores_spec`): what the image holds at a byte is what the
last store covering it wrote (`view_doStores`).
-/

namespace Durinn

open Image

/-- `BinaryFile`: the bytes of the file and the address they are mapped at. -/
structure BinaryFile where
  mapBase : Nat
  fileMap : List UInt8
  deriving DecidableEq, Repr

/-- Anything a cache can write stores to; `none` is an exception. -/
class DoStore (F : Type) where
  /-- `do_store`. -/
  doStore : F → Store → Option F

export DoStore (doStore)

/-- `BinaryFile.do_store`: assign the bytes of the store to its slice of the file. -/
instance : DoStore BinaryFile where
  doStore file s :=
    (sliceAssign file.fileMap ((getBaseAddress s : Int) - file.mapBase)
      ((getMaxAddress s : Int) - file.mapBase) s.valueBytes).map fun m =>
        { file with fileMap := m }

/-- A file that only remembers which stores were written to it, in order. -/
instance : DoStore (List Store) where
  doStore log s := some (log ++ [s])

/-- Several stores, one after the other. -/
def doStores {F : Type} [DoStore F] (file : F) (ss : List Store) : Option F :=
  ss.foldlM doStore file

section DoStores

variable {F : Type} [DoStore F]

@[simp] theorem doStores_nil (file : F) : doStores file [] = some file := rfl

theorem doStores_append (file : F) (ss ts : List Store) :
    doStores file (ss ++ ts) = (doStores file ss).bind fun file' => doStores file' ts := by
  simp [doStores, List.foldlM_append]

theorem doStores_singleton (file : F) (s : Store) : doStores file [s] = doStore file s := by
  simp [doStores]

@[simp] theorem doStores_log (log ss : List Store) : doStores log ss = some (log ++ ss) := by
  induction ss using List.reverseRecOn with
  | nil => simp
  | append_singleton ss s ih => simp [doStores_append, ih, doStores_singleton, doStore]

end DoStores

/-! ## What an image holds -/

/-- The bytes of a store, by address. -/
def Store.bytes (s : Store) : Nat → Option UInt8 := view s.address s.valueBytes

namespace BinaryFile

/-- The bytes of an image, by address. -/
def contents (file : BinaryFile) : Nat → Option UInt8 := view file.mapBase file.fileMap

/-- `pmsize` megabytes of zeros at address `mapBase`: the file `LSValidator.run` starts
from. -/
def zero (mapBase pmsize : Nat) : BinaryFile :=
  ⟨mapBase, List.replicate (pmsize * 1024 * 1024) 0⟩

/-- The store lies in the mapped range and carries as many bytes as its size says. -/
structure InFile (file : BinaryFile) (s : Store) : Prop where
  base_le : file.mapBase ≤ s.address
  max_le : s.address + s.size ≤ file.mapBase + file.fileMap.length
  size_eq : s.valueBytes.length = s.size

instance (file : BinaryFile) (s : Store) : Decidable (file.InFile s) :=
  decidable_of_iff (file.mapBase ≤ s.address ∧
      s.address + s.size ≤ file.mapBase + file.fileMap.length ∧ s.valueBytes.length = s.size)
    ⟨fun ⟨h₁, h₂, h₃⟩ => ⟨h₁, h₂, h₃⟩, fun ⟨h₁, h₂, h₃⟩ => ⟨h₁, h₂, h₃⟩⟩

theorem inFile_zero {mapBase pmsize : Nat} {s : Store} (h₁ : mapBase ≤ s.address)
    (h₂ : s.address + s.size ≤ mapBase + pmsize * 1024 * 1024)
    (h₃ : s.valueBytes.length = s.size) : (zero mapBase pmsize).InFile s :=
  ⟨h₁, by rwa [zero, List.length_replicate], h₃⟩

variable {file : BinaryFile}

theorem InFile.isSome_bytes {s : Store} (h : file.InFile s) (a : Nat) :
    (s.bytes a).isSome = s.covers a := by
  rw [Bool.eq_iff_iff, Store.bytes, isSome_view, h.size_eq, Store.covers, decide_eq_true_iff]

/-- Two images of the same range with the same contents are the same. -/
theorem eq_of_contents {f₁ f₂ : BinaryFile} (hb : f₁.mapBase = f₂.mapBase)
    (hc : f₁.contents = f₂.contents) : f₁ = f₂ := by
  obtain ⟨b₁, m₁⟩ := f₁
  obtain ⟨b₂, m₂⟩ := f₂
  simp only at hb
  subst hb
  exact congrArg (BinaryFile.mk b₁) (view_injective hc)

/-- **Stores inside the file are written without an exception**, and the image is then
the old one overlaid with them, in order. -/
theorem doStores_spec {ss : List Store} (h : ∀ s ∈ ss, file.InFile s) :
    ∃ file', doStores file ss = some file' ∧ file'.mapBase = file.mapBase ∧
      file'.fileMap.length = file.fileMap.length ∧
      file'.contents = overlayAll file.contents (ss.map Store.bytes) := by
  induction ss using List.reverseRecOn with
  | nil => exact ⟨file, rfl, rfl, rfl, rfl⟩
  | append_singleton ss s ih =>
    obtain ⟨file', hrun, hbase, hlen, hcont⟩ := ih fun r hr => h r (by simp [hr])
    have hs := h s (by simp)
    obtain ⟨m, hm, hmlen, hmview⟩ :=
      view_sliceAssign file'.mapBase s.address file'.fileMap s.valueBytes
      (by rw [hbase]; exact hs.base_le)
      (by rw [hbase, hlen, hs.size_eq]; exact hs.max_le)
    refine ⟨⟨file'.mapBase, m⟩, ?_, hbase, hmlen.trans hlen, ?_⟩
    · rw [doStores_append, hrun, Option.bind_some, doStores_singleton]
      simp only [doStore, getBaseAddress, getMaxAddress]
      rw [← hs.size_eq, hm]
      rfl
    · rw [List.map_append, List.map_singleton, overlayAll_append_singleton, ← hcont]
      exact hmview

theorem inFile_of_doStores {ss : List Store} {file' : BinaryFile}
    (h : ∀ s ∈ ss, file.InFile s) (hrun : doStores file ss = some file') (s : Store) :
    file'.InFile s ↔ file.InFile s := by
  obtain ⟨f, hf, hbase, hlen, -⟩ := doStores_spec h
  rw [hrun, Option.some.injEq] at hf
  subst hf
  constructor
  · rintro ⟨h₁, h₂, h₃⟩
    exact ⟨by omega, by omega, h₃⟩
  · rintro ⟨h₁, h₂, h₃⟩
    exact ⟨by omega, by omega, h₃⟩

/-- **A byte holds what the last store covering it wrote.** -/
theorem contents_doStores {ss : List Store} {file' : BinaryFile}
    (h : ∀ s ∈ ss, file.InFile s) (hrun : doStores file ss = some file') (a : Nat) :
    file'.contents a =
      ((ss.filter fun s => s.covers a).getLast?.bind fun s => s.bytes a).or (file.contents a) := by
  obtain ⟨f, hf, -, -, hcont⟩ := doStores_spec h
  rw [hrun, Option.some.injEq] at hf
  subst hf
  have hsome : ∀ s ∈ ss, (s.bytes a).isSome = s.covers a := fun s hs => (h s hs).isSome_bytes a
  rw [hcont, overlayAll_apply, List.filterMap_map]
  congr 1
  clear hrun hcont h
  induction ss using List.reverseRecOn with
  | nil => rfl
  | append_singleton ss s ih =>
    have hs := hsome s (by simp)
    have ih := ih fun r hr => hsome r (by simp [hr])
    rw [List.filterMap_append, List.filter_append, List.getLast?_append, List.getLast?_append, ih]
    cases hb : s.bytes a with
    | none =>
      rw [hb] at hs
      simp [hb, ← hs]
    | some b =>
      rw [hb] at hs
      simp [hb, ← hs]

/-- Two sequences of stores leave the same image if, class by class of a partition of
the bytes, they contain the same stores in the same order. -/
theorem doStores_congr {L : Type} [DecidableEq L] {ss ts : List Store}
    (hss : ∀ s ∈ ss, file.InFile s) (hts : ∀ s ∈ ts, file.InFile s) (line : Store → L)
    (hline : ∀ s t, (s ∈ ss ∨ s ∈ ts) → (t ∈ ss ∨ t ∈ ts) → ∀ a, s.covers a = true →
      t.covers a = true → line s = line t)
    (h : ∀ l, ss.filter (fun s => line s = l) = ts.filter (fun s => line s = l)) :
    doStores file ss = doStores file ts := by
  obtain ⟨f₁, h₁, hb₁, -, hc₁⟩ := doStores_spec hss
  obtain ⟨f₂, h₂, hb₂, -, hc₂⟩ := doStores_spec hts
  rw [h₁, h₂]
  congr 1
  refine eq_of_contents (hb₁.trans hb₂.symm) ?_
  rw [hc₁, hc₂]
  refine overlayAll_congr Store.bytes line (fun a => ?_) h
  have hcov : ∀ s, s ∈ ss ∨ s ∈ ts → (s.bytes a).isSome → s.covers a = true := by
    rintro s (hs | hs) hsome
    · rwa [(hss s hs).isSome_bytes a] at hsome
    · rwa [(hts s hs).isSome_bytes a] at hsome
  by_cases hex : ∃ s, (s ∈ ss ∨ s ∈ ts) ∧ (s.bytes a).isSome
  · obtain ⟨s, hs, hsome⟩ := hex
    exact ⟨line s, fun t ht htsome =>
      hline t s ht hs a (hcov t ht htsome) (hcov s hs hsome)⟩
  · rcases ss with _ | ⟨s, ss⟩
    · rcases ts with _ | ⟨t, ts⟩
      · exact ⟨line ⟨⟨0, 0, []⟩, 0, 0, [], 0⟩, fun s hs => by simp at hs⟩
      · exact ⟨line t, fun s hs hsome => absurd ⟨s, hs, hsome⟩ hex⟩
    · exact ⟨line s, fun t ht htsome => absurd ⟨t, ht, htsome⟩ hex⟩

end BinaryFile

end Durinn
