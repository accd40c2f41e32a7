import NeuralDb.Hnsw.Search
import NeuralDb.Persist.Format

/-! What a loaded index keeps of its receiver. A file of version 1 has no tombstone section, and the
marks of the receiver are cut to the new size, not cleared. -/

namespace NeuralDb

open Library

namespace HNSWIndex

/-- The two indexes agree in every field that `load` writes, which are all but the config. -/
def SameContents (s t : HNSWIndex) : Prop := t = { s with cfg := t.cfg }

theorem resize_eq_map (old : List Bool) (n : Nat) :
    resize old n false = (List.range n).map fun i => old.getD i false := by
  apply List.ext_getElem
  · rw [resize_length, List.length_map, List.length_range]
  · intro i h₁ h₂
    have hi : i < n := by rwa [resize_length] at h₁
    simp only [resize, List.getElem_append, List.length_take, List.getElem_take, List.getElem_replicate, List.getElem_map,
      List.getElem_range, List.getD_eq_getElem?_getD]
    split_ifs with hlt
    · rw [List.getElem?_eq_getElem (by omega), Option.getD_some]
    · rw [List.getElem?_eq_none (by omega), Option.getD_none]

end HNSWIndex

namespace IndexFile

variable {f : IndexFile}

open HNSWIndex

/-- From a file without tombstones every slot keeps the mark it has in the receiver. -/
theorem isTombstoned_loaded (hversion : f.version < 2) (r : HNSWIndex) {i : Nat} (hi : i < f.ids.length) :
    (f.loaded r).isTombstoned i = r.isTombstoned i := by
  have htomb : f.tombstoneOver r.tombstone = (List.range f.ids.length).map r.isTombstoned :=
    (if_neg (Nat.not_le.mpr hversion)).trans (resize_eq_map r.tombstone _)
  rw [isTombstoned, loaded, htomb, List.getD_eq_getElem?_getD, List.getElem?_map, List.getElem?_range hi]
  rfl

theorem sameContents_loaded_iff (r₁ r₂ : HNSWIndex) : (f.loaded r₁).SameContents (f.loaded r₂) ↔
    2 ≤ f.version ∨ ∀ i < f.ids.length, r₁.isTombstoned i = r₂.isTombstoned i := by
  have hfield : (f.loaded r₁).SameContents (f.loaded r₂) ↔
      f.tombstoneOver r₁.tombstone = f.tombstoneOver r₂.tombstone := by
    constructor
    · exact fun h => (congrArg tombstone h).symm
    · intro h
      rw [SameContents, loaded, loaded, h]
  rw [hfield, tombstoneOver, tombstoneOver]
  by_cases hversion : 2 ≤ f.version
  · rw [if_pos hversion, if_pos hversion]
    exact iff_of_true rfl (.inl hversion)
  · rw [if_neg hversion, if_neg hversion, or_iff_right hversion, resize_eq_map, resize_eq_map, List.map_inj_left]
    exact forall_congr' fun i => imp_congr_left List.mem_range

theorem liveSize_loaded_iff (hversion : f.version < 2) (r : HNSWIndex) :
    (f.loaded r).liveSize = (f.loaded r).size ↔ ∀ i < f.ids.length, r.isTombstoned i = false := by
  have hcount := (f.loaded_aligned r).liveSize_eq
  have hsize : (f.loaded r).size = (List.range f.ids.length).length := by
    rw [List.length_range]
    rfl
  rw [hcount, hsize]
  change (List.range f.ids.length).countP _ = _ ↔ _
  rw [List.countP_eq_length]
  refine ⟨fun h i hi => ?_, fun h i hi => ?_⟩
  · have hlive := h i (List.mem_range.mpr hi)
    rwa [isTombstoned_loaded hversion r hi, Bool.not_eq_true'] at hlive
  · have hi := List.mem_range.mp hi
    rw [isTombstoned_loaded hversion r hi, h i hi]
    rfl

/-- Two indexes are the same after the load of a version 2 file, and after the load of a version 1 file
exactly when the same slots of them were deleted. No vector of a version 1 file is deleted exactly when
none of these slots was. -/
theorem load_forgets_iff (f : IndexFile) (hversion : f.version = 1 ∨ f.version = 2) (r₁ r₂ : HNSWIndex) :
    ((∀ (path : String) (junk₁ junk₂ : Nat → UInt8), ∃ s₁ s₂, load r₁ path (some f.bytes) junk₁ = .ok s₁ ∧
        load r₂ path (some f.bytes) junk₂ = .ok s₂ ∧ s₁.SameContents s₂) ↔
      f.version = 2 ∨ ∀ i < f.ids.length, r₁.isTombstoned i = r₂.isTombstoned i) ∧
    (f.version = 1 → ∀ (r : HNSWIndex) (path : String) (junk : Nat → UInt8), ∃ s,
      load r path (some f.bytes) junk = .ok s ∧
        ((∀ i < s.numVectors, s.isTombstoned i = false) ↔ ∀ i < f.ids.length, r.isTombstoned i = false) ∧
        (s.liveSize = s.size ↔ ∀ i < f.ids.length, r.isTombstoned i = false)) := by
  have hload : ∀ (r : HNSWIndex) (path : String) (junk : Nat → UInt8),
      load r path (some f.bytes) junk = .ok (f.loaded r) := by
    intro r path junk
    have h := f.load_bytes r path [] junk
    rwa [List.append_nil] at h
  have htwo : f.version = 2 ↔ 2 ≤ f.version := by omega
  refine ⟨?_, fun hone r path junk => ⟨f.loaded r, hload r path junk, ?_, ?_⟩⟩
  · rw [htwo, ← sameContents_loaded_iff]
    constructor
    · intro h
      obtain ⟨s₁, s₂, h₁, h₂, hsame⟩ := h "" (fun _ => 0) fun _ => 0
      obtain rfl := Except.ok.inj ((hload r₁ _ _).symm.trans h₁)
      obtain rfl := Except.ok.inj ((hload r₂ _ _).symm.trans h₂)
      exact hsame
    · exact fun h path junk₁ junk₂ => ⟨_, _, hload r₁ path junk₁, hload r₂ path junk₂, h⟩
  · exact forall₂_congr fun i hi => by rw [isTombstoned_loaded (by omega) r hi]
  · exact liveSize_loaded_iff (by omega) r

/-- A file of version 1 with one vector. -/
def oneVector : IndexFile where
  version := 1
  dim := 1
  reserved := 0
  ids := [8]
  vectors := [5]
  metadata := [[]]
  maxLayer := 0
  entryPoint := 0
  tombstones := []
  graph := [[[]]]
  version_lt := by decide
  dim_lt := by decide
  reserved_lt := by decide
  num_lt := by decide
  vectors_length := by decide
  metadata_length := by decide
  metadata_lt := by decide
  maxLayer_range := by decide
  entryPoint_lt := by decide
  tombstones_length := by decide
  tombstones_lt := by decide
  graph_length := by decide
  layers_lt := by decide
  links_lt := by decide
  neighbours_lt := by decide

/-- Into an empty index and into one with a live vector the file loads alike. -/
theorem load_forgets_live :
    ∃ s₁ s₂, load (new 1 {}) "index" (some oneVector.bytes) (fun _ => 0) = .ok s₁ ∧
      load (run .sample {} [(.insert 7 ⟨[3], rfl⟩ [] 0 : Op 1)]) "index" (some oneVector.bytes) (fun _ => 1) = .ok s₂ ∧
      s₁.SameContents s₂ := by
  refine (load_forgets_iff oneVector (.inl rfl) (new 1 {}) _).1.mpr (.inr ?_) "index" (fun _ => 0) fun _ => 1
  decide

/-- Into an index whose only vector was deleted, the vector of the file is loaded as deleted. -/
theorem load_forgets_deleted :
    let r := run .sample {} [(.insert 7 ⟨[3], rfl⟩ [] 0 : Op 1), .delete 7]
    ∃ s₁ s₂, load (new 1 {}) "index" (some oneVector.bytes) (fun _ => 0) = .ok s₁ ∧
      load r "index" (some oneVector.bytes) (fun _ => 0) = .ok s₂ ∧
      s₁.tombstone = [false] ∧ s₂.tombstone = [true] ∧ s₂.size = 1 ∧ s₂.liveSize = 0 := by
  intro r
  have h₁ := oneVector.load_bytes (new 1 {}) "index" [] fun _ => 0
  have h₂ := oneVector.load_bytes r "index" [] fun _ => 0
  rw [List.append_nil] at h₁ h₂
  refine ⟨_, _, h₁, h₂, ?_⟩
  decide

end IndexFile

end NeuralDb
