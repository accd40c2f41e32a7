import NeuralDb.Persist.Recovery

/-! The index file that `compact` leaves behind, loaded again: the live slots and nothing else, over
a graph in order. -/

namespace NeuralDb

open Library

namespace HNSWIndex

/-- As long as the internal ids fit the file, the loaded graph is in order like the saved one. -/
theorem Inv.narrow {s : HNSWIndex} (h : s.Inv) (hnum : s.numVectors ≤ 2 ^ 32) : s.narrow.Inv := by
  have hids : ∀ g ∈ s.graph, ∀ ls ∈ g, ∀ x ∈ ls, x < 2 ^ 32 := by
    intro g hg ls hls x hx
    obtain ⟨l, y, rfl⟩ := exists_links_of_mem hg hls
    exact (h.lt_numVectors (h.in_layer l y x hx)).trans_le hnum
  have hentry : 0 < s.numVectors → s.entryPoint % 2 ^ 32 = s.entryPoint :=
    fun hpos => Nat.mod_eq_of_lt ((h.entry_lt hpos).trans_le hnum)
  rw [narrow_of_links_lt hids]
  refine { h with degree := h.degree, entry_lt := fun hpos => ?_, entry_layers := fun hpos => ?_ }
  · exact (hentry hpos).trans_lt (h.entry_lt hpos)
  · have hlayers := congrArg s.layers (hentry hpos)
    exact (congrArg Nat.cast hlayers).trans (h.entry_layers hpos)

theorem Aligned.liveSize_slots {s : HNSWIndex} (h : s.Aligned) :
    s.liveSize = (liveSlots s.slots).length := by
  rw [h.liveSize_eq, liveSlots, ← List.countP_eq_length_filter, slots, List.countP_map]
  rfl

variable {dim : Nat} {σ : Type} [LinearOrder σ] (rt : Runtime σ)

/-- Loading the file that `compact` wrote gives an index of exactly the live slots, in slot order,
with a graph that is in order for the config of the compacted index. -/
theorem load_compact (cfg : HNSWConfig) (ops : List (Op dim)) (hdim : dim < 2 ^ 32)
    (hlive : (run rt cfg ops).liveSize ≤ 2 ^ 32)
    (hmeta : ∀ e ∈ live (run rt cfg ops).slots, e.2.2.length < 2 ^ 32) (levels : Nat → Level)
    (disk : Disk) (r : HNSWIndex) (path : String) (junk : Nat → UInt8) :
    let s := run rt cfg ops
    ∃ t, load r path (s.compact rt levels disk).index junk = .ok t ∧
      t.slots.map VectorSlot.entry = live s.slots ∧ (∀ v ∈ t.slots, v.deleted = false) ∧
      t.size = t.liveSize ∧ t.liveSize = s.liveSize ∧ t.dim = dim ∧
      ({ t with cfg := cfg } : HNSWIndex).Inv := by
  intro s
  have haligned : s.Aligned := (aligned_run rt cfg ops).1
  have hcopied := compacted_copied rt haligned levels
  have hlength : (liveSlots s.slots).length ≤ 2 ^ 32 := haligned.liveSize_slots ▸ hlive
  have hnum : (s.compacted rt levels).numVectors ≤ 2 ^ 32 := by
    rwa [← slots_length, hcopied.slots_eq]
  have hstorable : (s.compacted rt levels).Storable := by
    refine hcopied.storable (run_dim rt cfg ops ▸ hdim) (by omega) fun v hv => ?_
    exact hmeta v.entry (List.mem_map_of_mem hv)
  have hinv : (s.compacted rt levels).narrow.Inv := hcopied.toInv.narrow hnum
  let t : HNSWIndex := { (s.compacted rt levels).narrow with cfg := r.cfg }
  have htslots : t.slots = liveSlots s.slots := hcopied.slots_eq
  have htaligned : t.Aligned := { hinv.toAligned with }
  have htlive : ∀ v ∈ t.slots, v.deleted = false := by
    intro v hv
    rw [htslots] at hv
    simpa using (List.mem_filter.mp hv).2
  have hall : liveSlots t.slots = t.slots :=
    List.filter_eq_self.mpr fun v hv => by rw [htlive v hv]; rfl
  refine ⟨t, load_save_narrow hcopied.toAligned hstorable r path junk, ?_, htlive, ?_, ?_, ?_, ?_⟩
  · rw [htslots]
    rfl
  · rw [htaligned.liveSize_slots, hall, slots_length]
    rfl
  · rw [htaligned.liveSize_slots, haligned.liveSize_slots, hall, htslots]
  · exact hcopied.dim_eq.trans (run_dim rt cfg ops)
  · -- `Inv` looks at the config for the degree bound only
    have hcfg : (s.compacted rt levels).cfg = cfg := hcopied.cfg_eq.trans (run_cfg rt cfg ops)
    exact hcfg ▸ hinv

/-- Two slots of one id, the first deleted, and a slot with metadata. -/
theorem load_compact_three :
    let ops : List (Op 1) := [.insert 7 ⟨[3], rfl⟩ [] 0, .insert 8 ⟨[5], rfl⟩ [65] 1,
      .insert 7 ⟨[4], rfl⟩ [] 0, .delete 7]
    let s := run .sample {} ops
    ∃ t, load (new 1 {}) "index" (s.compact .sample (fun _ => 0) ⟨none, none⟩).index (fun _ => 0) = .ok t ∧
      t.slots.map VectorSlot.entry = [(8, [5], [65]), (7, [4], [])] ∧ t.size = 2 := by
  intro ops s
  obtain ⟨t, hload, hentries, -, hsize, hlive, -⟩ := load_compact .sample {} ops (by decide) (by decide)
    (by decide) (fun _ => 0) ⟨none, none⟩ (new 1 {}) "index" fun _ => 0
  refine ⟨t, hload, hentries.trans (by decide), ?_⟩
  rw [hsize, hlive]
  decide

theorem save_congr_metadata {s : HNSWIndex} {ms : List Bytes}
    (h : s.metadata.flatMap encodeMetadata = ms.flatMap encodeMetadata) :
    s.save = ({ s with metadata := ms } : HNSWIndex).save := by
  rw [save, save, saveBody, saveBody, h]
  rfl

/-- Metadata whose length is a multiple of 2 ^ 32 is saved with the length 0. -/
theorem load_compact_of_wide {m : Bytes} (hm : m.length % 2 ^ 32 = 0) :
    let s : HNSWIndex := run rt {} [(.insert 7 ⟨[3], rfl⟩ m 0 : Op 1)]
    live s.slots = [(7, [3], m)] ∧
      ∃ t, load (new 1 {}) "index" (s.compact rt (fun _ => 0) ⟨none, none⟩).index (fun _ => 0) = .ok t ∧
        t.slots.map VectorSlot.entry = [(7, [3], [])] := by
  intro s
  refine ⟨rfl, ?_⟩
  let fresh : HNSWIndex := (new 1 {}).append 7 [3] [] 0
  have hencode : encodeMetadata m = encodeMetadata [] := by
    rw [encodeMetadata, leBytes_mod, pow_four_bytes, hm]
    rfl
  have hmetadata : [m].flatMap encodeMetadata = ([[]] : List Bytes).flatMap encodeMetadata := by
    rw [List.flatMap_singleton, List.flatMap_singleton, hencode]
  have hfile : (s.compact rt (fun _ => 0) ⟨none, none⟩).index = some fresh.save :=
    congrArg some (save_congr_metadata hmetadata)
  have hstorable : fresh.Storable := by
    refine ⟨?_, ?_, ?_, ?_, ?_, ?_, ?_⟩
    all_goals decide
  rw [hfile]
  exact ⟨_, load_save_narrow ((aligned_new 1 {}).append 7 rfl [] 0) hstorable _ _ _, rfl⟩

/-- A live vector with 4 GiB of metadata comes back from the compacted file without it. -/
theorem load_compact_wide :
    let m : Bytes := List.replicate (2 ^ 32) 65
    let s : HNSWIndex := run .sample {} [(.insert 7 ⟨[3], rfl⟩ m 0 : Op 1)]
    live s.slots = [(7, [3], m)] ∧ m ≠ [] ∧
      ∃ t, load (new 1 {}) "index" (s.compact .sample (fun _ => 0) ⟨none, none⟩).index (fun _ => 0) = .ok t ∧
        t.slots.map VectorSlot.entry = [(7, [3], [])] := by
  intro m s
  have hm : m.length % 2 ^ 32 = 0 := by rw [List.length_replicate, Nat.mod_self]
  have hne : m ≠ [] := by
    intro h
    have := congrArg List.length h
    rw [List.length_replicate] at this
    exact absurd this (by decide)
  obtain ⟨hlive, t, hload, hentries⟩ := load_compact_of_wide .sample hm
  exact ⟨hlive, hne, t, hload, hentries⟩

end HNSWIndex

end NeuralDb
