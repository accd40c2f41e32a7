import NeuralDb.Hnsw.Index

/-! The slot table of an index: what `insert` and `delete_vector` do to it, whatever the graph
looks like. -/

namespace NeuralDb

namespace HNSWIndex

/-- Every array of the index has one entry for each slot. -/
structure Aligned (s : HNSWIndex) : Prop where
  idMap_length : s.idMap.length = s.numVectors
  metadata_length : s.metadata.length = s.numVectors
  tombstone_length : s.tombstone.length = s.numVectors
  graph_length : s.graph.length = s.numVectors
  rawVectors_length : s.rawVectors.length = s.numVectors * s.dim

/-- `t` is `s` with another graph over the same nodes. -/
structure Regraphed (s t : HNSWIndex) : Prop where
  frame : t = { s with graph := t.graph }
  graph_length : t.graph.length = s.graph.length

/-- `t` is `s` with another graph over the same nodes and another entry point. -/
structure SameTable (s t : HNSWIndex) : Prop where
  frame : t = { s with graph := t.graph, maxLayer := t.maxLayer, entryPoint := t.entryPoint }
  graph_length : t.graph.length = s.graph.length

section Frame

theorem regraphed_refl (s : HNSWIndex) : Regraphed s s := ⟨rfl, rfl⟩

theorem Regraphed.trans {s t u : HNSWIndex} (hst : Regraphed s t) (htu : Regraphed t u) :
    Regraphed s u where
  frame := by rw [htu.frame, hst.frame]
  graph_length := htu.graph_length.trans hst.graph_length

theorem Regraphed.table {s t : HNSWIndex} (h : Regraphed s t) : SameTable s t := by
  refine ⟨?_, h.graph_length⟩
  rw [h.frame]

theorem SameTable.trans {s t u : HNSWIndex} (hst : SameTable s t) (htu : SameTable t u) :
    SameTable s u where
  frame := by rw [htu.frame, hst.frame]
  graph_length := htu.graph_length.trans hst.graph_length

theorem sameTable_raise (s : HNSWIndex) (q level : Nat) : SameTable s (s.raise q level) := by
  unfold raise
  split_ifs
  · exact ⟨rfl, rfl⟩
  · exact ⟨rfl, rfl⟩

@[simp] theorem setLinks_graph_length (s : HNSWIndex) (l x : Nat) (ls : List Nat) :
    (s.setLinks l x ls).graph.length = s.graph.length := List.length_modify _ _ _

theorem regraphed_setLinks (s : HNSWIndex) (l x : Nat) (ls : List Nat) :
    Regraphed s (s.setLinks l x ls) := ⟨rfl, setLinks_graph_length s l x ls⟩

theorem regraphed_pushLink (s : HNSWIndex) (l nb q : Nat) : Regraphed s (s.pushLink l nb q) := by
  refine Regraphed.trans (t := s.growTo l nb) ⟨rfl, List.length_modify _ _ _⟩ ?_
  exact regraphed_setLinks (s.growTo l nb) l nb _

variable {σ : Type} [LinearOrder σ] (rt : Runtime σ)

theorem regraphed_backLink (s : HNSWIndex) (lc q nb : Nat) :
    Regraphed s (backLink (m := Id) rt s.rawAccess s lc q nb) := by
  have hpush := regraphed_pushLink s lc nb q
  simp only [backLink]
  split_ifs
  · exact hpush.trans (regraphed_setLinks _ _ _ _)
  · exact hpush

theorem regraphed_backLinks (lc q : Nat) (nbs : List Nat) (s : HNSWIndex) :
    Regraphed s (backLinks (m := Id) rt rawAccess lc q nbs s) := by
  induction nbs generalizing s with
  | nil => exact regraphed_refl s
  | cons nb nbs ih => exact (regraphed_backLink rt s lc q nb).trans (ih _)

theorem regraphed_linkLayers (q : Nat) (vec : Vec) (n ep : Nat) (s : HNSWIndex) :
    Regraphed s (linkLayers (m := Id) rt rawAccess q vec n ep s) := by
  induction n generalizing s ep with
  | zero => exact regraphed_refl s
  | succ lc ih =>
    exact ((regraphed_setLinks s lc q _).trans (regraphed_backLinks rt lc q _ _)).trans (ih _ _)

/-- Past its first locked region, `insert` writes to the graph and the entry point only. -/
theorem insertRaw_table (s : HNSWIndex) (id : UInt64) (vec : Vec) (metadata : Bytes) (level : Nat) :
    SameTable (s.append id vec metadata level) (s.insertRaw rt id vec metadata level) := by
  by_cases hq : s.numVectors = 0
  · rw [insertRaw_first rt hq]
    exact (regraphed_refl _).table
  · rw [insertRaw_linked rt hq]
    exact (regraphed_linkLayers rt _ _ _ _ _).table.trans (sameTable_raise _ _ _)

end Frame

section Table

variable {s t : HNSWIndex}

theorem SameTable.aligned (h : SameTable s t) (hs : s.Aligned) : t.Aligned := by
  have hlen := h.graph_length
  rw [h.frame]
  exact { hs with graph_length := hlen.trans hs.graph_length }

theorem SameTable.dim_eq (h : SameTable s t) : t.dim = s.dim := by rw [h.frame]

theorem SameTable.cfg_eq (h : SameTable s t) : t.cfg = s.cfg := by rw [h.frame]

theorem SameTable.numVectors_eq (h : SameTable s t) : t.numVectors = s.numVectors := by rw [h.frame]

theorem SameTable.slots_eq (h : SameTable s t) : t.slots = s.slots := by
  rw [h.frame]
  rfl

theorem aligned_new (dim : Nat) (cfg : HNSWConfig) : (new dim cfg).Aligned where
  idMap_length := rfl
  metadata_length := rfl
  tombstone_length := rfl
  graph_length := rfl
  rawVectors_length := (Nat.zero_mul dim).symm

theorem Aligned.append (h : s.Aligned) (id : UInt64) {vec : Vec} (hvec : vec.length = s.dim)
    (metadata : Bytes) (level : Nat) : (s.append id vec metadata level).Aligned where
  idMap_length := by simp [HNSWIndex.append, h.idMap_length]
  metadata_length := by simp [HNSWIndex.append, h.metadata_length]
  tombstone_length := by simp [HNSWIndex.append, h.tombstone_length]
  graph_length := by simp [HNSWIndex.append, h.graph_length]
  rawVectors_length := by simp [HNSWIndex.append, h.rawVectors_length, hvec, Nat.succ_mul]

theorem Aligned.deleteVector (h : s.Aligned) (id : UInt64) : (s.deleteVector id).Aligned := by
  unfold HNSWIndex.deleteVector
  split
  · exact { h with tombstone_length := by simp [h.tombstone_length] }
  · exact h

theorem slots_length (s : HNSWIndex) : s.slots.length = s.numVectors := by simp [slots]

theorem slots_getElem? (s : HNSWIndex) {i : Nat} (hi : i < s.numVectors) :
    s.slots[i]? = some (s.slot i) := by
  simp [slots, hi]

theorem Aligned.end_le (h : s.Aligned) {i : Nat} (hi : i < s.numVectors) :
    i * s.dim + s.dim ≤ s.rawVectors.length := by
  rw [← Nat.succ_mul, h.rawVectors_length]
  exact Nat.mul_le_mul_right s.dim hi

theorem Aligned.rawVec_length (h : s.Aligned) {i : Nat} (hi : i < s.numVectors) :
    (s.rawVec i).length = s.dim := by
  have hend := h.end_le hi
  rw [rawVec, List.length_take, List.length_drop]
  omega

theorem Aligned.slots_map_metadata (h : s.Aligned) : s.slots.map VectorSlot.metadata = s.metadata := by
  apply List.ext_getElem
  · rw [List.length_map, slots_length, h.metadata_length]
  · intro i h₁ h₂
    simp [slots, slot, List.getD_eq_getElem?_getD, h₂]

theorem Aligned.slots_map_id (h : s.Aligned) : s.slots.map VectorSlot.id = s.idMap := by
  apply List.ext_getElem
  · rw [List.length_map, slots_length, h.idMap_length]
  · intro i h₁ h₂
    simp [slots, slot, List.getD_eq_getElem?_getD, h₂]

theorem Aligned.isTombstoned_of_le (h : s.Aligned) {i : Nat} (hi : s.numVectors ≤ i) : s.isTombstoned i = false := by
  rw [isTombstoned, List.getD_eq_getElem?_getD, List.getElem?_eq_none (h.tombstone_length ▸ hi)]
  rfl

theorem Aligned.rawVec_append (h : s.Aligned) (id : UInt64) (vec : Vec) (metadata : Bytes)
    (level : Nat) {i : Nat} (hi : i < s.numVectors) :
    (s.append id vec metadata level).rawVec i = s.rawVec i := by
  have hend := h.end_le hi
  show ((s.rawVectors ++ vec).drop (i * s.dim)).take s.dim = (s.rawVectors.drop (i * s.dim)).take s.dim
  rw [List.drop_append_of_le_length (by omega),
    List.take_append_of_le_length (by rw [List.length_drop]; omega)]

theorem Aligned.rawVec_append_self (h : s.Aligned) (id : UInt64) {vec : Vec} (hvec : vec.length = s.dim)
    (metadata : Bytes) (level : Nat) : (s.append id vec metadata level).rawVec s.numVectors = vec := by
  change ((s.rawVectors ++ vec).drop (s.numVectors * s.dim)).take s.dim = vec
  rw [← h.rawVectors_length, List.drop_left, ← hvec, List.take_length]

theorem Aligned.slots_append (h : s.Aligned) (id : UInt64) {vec : Vec} (hvec : vec.length = s.dim)
    (metadata : Bytes) (level : Nat) :
    (s.append id vec metadata level).slots = s.slots ++ [⟨id, metadata, vec, false⟩] := by
  have hold : ∀ i ∈ List.range s.numVectors, (s.append id vec metadata level).slot i = s.slot i := by
    intro i hi
    have hi := List.mem_range.mp hi
    have hvec := h.rawVec_append id vec metadata level hi
    simp only [slot, hvec]
    simp [HNSWIndex.append, isTombstoned, List.getD_eq_getElem?_getD, List.getElem?_append, hi,
      h.idMap_length, h.metadata_length, h.tombstone_length]
  have hnew : (s.append id vec metadata level).slot s.numVectors = ⟨id, metadata, vec, false⟩ := by
    simp only [slot, h.rawVec_append_self id hvec metadata level]
    simp [HNSWIndex.append, isTombstoned, List.getD_eq_getElem?_getD, h.idMap_length,
      h.metadata_length, h.tombstone_length]
  change (List.range (s.numVectors + 1)).map _ = _
  rw [List.range_succ, List.map_append, List.map_singleton, hnew, List.map_congr_left hold]
  rfl

theorem markFirst_of_idxOf?_none {id : UInt64} {vs : List VectorSlot}
    (h : (vs.map VectorSlot.id).idxOf? id = none) : markFirst id vs = vs := by
  induction vs with
  | nil => rfl
  | cons v vs ih =>
    rw [List.map_cons, List.idxOf?_cons] at h
    rw [markFirst]
    split_ifs with hv
    · simp [hv] at h
    · rw [ih (by simpa [hv] using h)]

theorem markFirst_of_idxOf?_some {id : UInt64} {vs : List VectorSlot} {i : Nat}
    (h : (vs.map VectorSlot.id).idxOf? id = some i) :
    markFirst id vs = vs.modify i fun v => { v with deleted := true } := by
  induction vs generalizing i with
  | nil => simp at h
  | cons v vs ih =>
    rw [List.map_cons, List.idxOf?_cons] at h
    rw [markFirst]
    split_ifs with hv
    · have hi : 0 = i := by simpa [hv] using h
      rw [← hi, List.modify_zero_cons]
    · obtain ⟨j, hj, rfl⟩ : ∃ j, (vs.map VectorSlot.id).idxOf? id = some j ∧ j + 1 = i := by
        simpa [hv] using h
      rw [ih hj, List.modify_succ_cons]

theorem Aligned.firstSlot_eq (h : s.Aligned) (id : UInt64) :
    s.firstSlot id = (s.slots.map VectorSlot.id).idxOf? id := by
  rw [h.slots_map_id, firstSlot, ← h.idMap_length, List.take_length]

/-- `delete_vector` marks the same slot as the loop of the flat index. -/
theorem Aligned.slots_deleteVector (h : s.Aligned) (id : UInt64) :
    (s.deleteVector id).slots = markFirst id s.slots := by
  have hfirst := h.firstSlot_eq id
  unfold HNSWIndex.deleteVector
  cases hf : s.firstSlot id with
  | none => exact (markFirst_of_idxOf?_none (hfirst.symm.trans hf)).symm
  | some i =>
    rw [markFirst_of_idxOf?_some (hfirst.symm.trans hf)]
    apply List.ext_getElem
    · simp [slots]
    · intro j hj _
      have hj : j < s.numVectors := by simpa [slots] using hj
      by_cases hij : i = j
      · subst hij
        simp [slots, slot, isTombstoned, rawVec, List.getD_eq_getElem?_getD, h.tombstone_length, hj]
      · simp [slots, slot, isTombstoned, rawVec, List.getD_eq_getElem?_getD, hij,
          List.getElem_modify_ne]

theorem Aligned.insertRaw {σ : Type} [LinearOrder σ] (rt : Runtime σ) (h : s.Aligned) (id : UInt64)
    {vec : Vec} (hvec : vec.length = s.dim) (metadata : Bytes) (level : Nat) :
    (s.insertRaw rt id vec metadata level).Aligned :=
  (insertRaw_table rt s id vec metadata level).aligned (h.append id hvec metadata level)

theorem Aligned.slots_insertRaw {σ : Type} [LinearOrder σ] (rt : Runtime σ) (h : s.Aligned)
    (id : UInt64) {vec : Vec} (hvec : vec.length = s.dim) (metadata : Bytes) (level : Nat) :
    (s.insertRaw rt id vec metadata level).slots = s.slots ++ [⟨id, metadata, vec, false⟩] :=
  (insertRaw_table rt s id vec metadata level).slots_eq.trans (h.slots_append id hvec metadata level)

end Table

end HNSWIndex

end NeuralDb
