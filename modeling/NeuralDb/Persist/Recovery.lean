import NeuralDb.Persist.Compact

/-! Recovery after compactions. The index in memory keeps its deleted slots and the recovered one
has dropped them; with distinct ids the two slot tables show the same live entries all along. -/

namespace NeuralDb

open Library

/-! ### Live entries of a table with distinct ids -/

theorem live_append (vs ws : List VectorSlot) : live (vs ++ ws) = live vs ++ live ws := by
  simp [live, liveSlots]

theorem live_liveSlots (vs : List VectorSlot) : live (liveSlots vs) = live vs := by
  simp [live, liveSlots]

theorem live_id_mem {vs : List VectorSlot} {e : Entry} (h : e ∈ live vs) : e.1 ∈ vs.map VectorSlot.id := by
  obtain ⟨v, hv, rfl⟩ := List.mem_map.mp h
  exact List.mem_map.mpr ⟨v, List.mem_of_mem_filter hv, rfl⟩

theorem markFirst_map_id (x : UInt64) (vs : List VectorSlot) :
    (markFirst x vs).map VectorSlot.id = vs.map VectorSlot.id := by
  induction vs with
  | nil => rfl
  | cons v vs ih =>
    rw [markFirst]
    split_ifs
    · rfl
    · rw [List.map_cons, ih, List.map_cons]

/-- With distinct ids the first slot of an id is its only one. -/
theorem live_markFirst {vs : List VectorSlot} (h : (vs.map VectorSlot.id).Nodup) (x : UInt64) :
    live (markFirst x vs) = (live vs).filter fun e => e.1 != x := by
  induction vs with
  | nil => rfl
  | cons v vs ih =>
    obtain ⟨hv, hvs⟩ := List.nodup_cons.mp h
    have hsplit : live (v :: vs) = live [v] ++ live vs := live_append [v] vs
    rw [markFirst, hsplit, List.filter_append]
    split_ifs with hx
    · have hother : (live vs).filter (fun e => e.1 != x) = live vs := by
        apply List.filter_eq_self.mpr
        intro e he
        simp only [bne_iff_ne]
        rintro rfl
        exact hv (hx ▸ live_id_mem he)
      have hown : (live [v]).filter (fun e => e.1 != x) = [] := by
        rw [List.filter_eq_nil_iff]
        intro e he
        have hid : e.1 = v.id := by simpa using live_id_mem he
        simp [hid, hx]
      rw [hother, hown]
      simp [live, liveSlots]
    · have hown : (live [v]).filter (fun e => e.1 != x) = live [v] := by
        apply List.filter_eq_self.mpr
        intro e he
        have hid : e.1 = v.id := by simpa using live_id_mem he
        simp [hid, hx]
      rw [hown, ← ih hvs]
      exact live_append [v] _

/-- The table in memory and the recovered one: distinct ids, the same live entries, and no id in the
recovered table that memory does not have. -/
structure Sim (vs ws : List VectorSlot) : Prop where
  live_eq : live ws = live vs
  nodup : (vs.map VectorSlot.id).Nodup
  nodup' : (ws.map VectorSlot.id).Nodup
  ids : ws.map VectorSlot.id ⊆ vs.map VectorSlot.id

theorem sim_nil : Sim [] [] := ⟨rfl, List.nodup_nil, List.nodup_nil, List.Subset.refl _⟩

variable {dim : Nat}

theorem Sim.step {vs ws : List VectorSlot} (h : Sim vs ws) (op : Op dim)
    (hnew : op.isInsert = true → op.id ∉ vs.map VectorSlot.id) :
    Sim (stepSlots vs op) (stepSlots ws op) := by
  cases op with
  | insert id vec metadata level =>
    have hvs : id ∉ vs.map VectorSlot.id := hnew rfl
    have hws : id ∉ ws.map VectorSlot.id := fun hid => hvs (h.ids hid)
    simp only [stepSlots]
    refine ⟨?_, ?_, ?_, ?_⟩
    · rw [live_append, live_append, h.live_eq]
    · simpa [List.nodup_append, h.nodup] using hvs
    · simpa [List.nodup_append, h.nodup'] using hws
    · rw [List.map_append, List.map_append]
      exact List.append_subset.mpr
        ⟨List.Subset.trans h.ids (List.subset_append_left _ _), List.subset_append_right _ _⟩
  | delete id =>
    simp only [stepSlots]
    refine ⟨?_, ?_, ?_, ?_⟩
    · rw [live_markFirst h.nodup, live_markFirst h.nodup', h.live_eq]
    · rw [markFirst_map_id]
      exact h.nodup
    · rw [markFirst_map_id]
      exact h.nodup'
    · rw [markFirst_map_id, markFirst_map_id]
      exact h.ids

/-- Dropping the deleted slots starts the recovered table anew. -/
theorem Sim.compacted {vs ws : List VectorSlot} (h : Sim vs ws) : Sim vs (liveSlots vs) where
  live_eq := live_liveSlots vs
  nodup := h.nodup
  nodup' := h.nodup.sublist (List.filter_sublist.map _)
  ids := (List.filter_sublist.map _).subset

/-! ### Loading and replaying -/

namespace HNSWIndex

variable {σ : Type} [LinearOrder σ] (rt : Runtime σ)

/-- The index file loads into a new index of this dimension with these slots. -/
def Loads (dim : Nat) (disk : Disk) (vs : List VectorSlot) : Prop :=
  ∀ cfg path junk, ∃ base, loadNew dim cfg path junk disk = .ok base ∧ base.Aligned ∧
    base.dim = dim ∧ base.slots = vs

theorem loads_absent (wal : Option Bytes) : Loads dim ⟨none, wal⟩ [] :=
  fun cfg _ _ => ⟨new dim cfg, rfl, aligned_new dim cfg, rfl, rfl⟩

theorem Aligned.narrow {s : HNSWIndex} (h : s.Aligned) : s.narrow.Aligned :=
  { h with graph_length := by rw [HNSWIndex.narrow, List.length_map, h.graph_length] }

theorem loads_save {s : HNSWIndex} (h : s.Aligned) (hs : s.Storable) (hdim : s.dim = dim)
    (wal : Option Bytes) : Loads dim ⟨some s.save, wal⟩ s.slots := by
  intro cfg path junk
  refine ⟨_, load_save_narrow h hs (new dim cfg) path junk, ?_, hdim, rfl⟩
  exact { h.narrow with }

theorem Copied.storable {s fresh : HNSWIndex} {vs : List VectorSlot} (h : Copied s fresh vs)
    (hdim : s.dim < 2 ^ 32) (hnum : vs.length < 2 ^ 64) (hmeta : ∀ v ∈ vs, v.metadata.length < 2 ^ 32) :
    fresh.Storable where
  dim_lt := h.dim_eq ▸ hdim
  num_lt := by rwa [← slots_length, h.slots_eq]
  metadata_lt := by
    intro m hm
    rw [← h.toAligned.slots_map_metadata, h.slots_eq] at hm
    obtain ⟨v, hv, rfl⟩ := List.mem_map.mp hm
    exact hmeta v hv
  layers_lt := by
    intro g hg
    obtain ⟨x, hx⟩ := exists_layers_of_mem hg
    have := h.layers_le x
    have := h.maxLayer_lt
    omega
  links_lt := by
    intro g hg ls hls
    obtain ⟨l, x, rfl⟩ := exists_links_of_mem hg hls
    exact (h.degree l x).trans_lt (maxLinks_lt fresh l)
  maxLayer_ge := by
    have := h.maxLayer_nonneg
    omega
  maxLayer_lt := h.maxLayer_lt

theorem loads_compacted {s : HNSWIndex} (hs : s.Aligned) (levels : Nat → Level) (hdim : s.dim < 2 ^ 32)
    (hnum : s.numVectors < 2 ^ 64) (hmeta : ∀ v ∈ s.slots, v.metadata.length < 2 ^ 32)
    (wal : Option Bytes) :
    Loads s.dim ⟨some (s.compacted rt levels).save, wal⟩ (liveSlots s.slots) := by
  have h := compacted_copied rt hs levels
  have hlen : (liveSlots s.slots).length ≤ s.numVectors :=
    slots_length s ▸ List.length_filter_le _ _
  have hst := h.storable hdim (hlen.trans_lt hnum) fun v hv => hmeta v (List.mem_of_mem_filter hv)
  exact h.slots_eq ▸ loads_save h.toAligned hst h.dim_eq wal

end HNSWIndex

/-- The call that is logged for an operation. -/
def Op.call : Op dim → WalCall
  | .insert id vec metadata _ => .insert id vec metadata
  | .delete id => .delete id

namespace HNSWIndex

variable {σ : Type} [LinearOrder σ] (rt : Runtime σ)

theorem replay_ops (levels : Nat → Level) (ops : List (Op dim)) {s : HNSWIndex} (h : s.Aligned)
    (hdim : s.dim = dim) (n : Nat) :
    ∃ r m, (ops.map Op.call).foldl (WalCall.replay (onInsert rt levels) (some onDelete)) (.ok (s, n)) =
      .ok (r, m) ∧ r.Aligned ∧ r.dim = dim ∧ r.slots = ops.foldl stepSlots s.slots := by
  induction ops generalizing s n with
  | nil => exact ⟨s, n, rfl, h, hdim, rfl⟩
  | cons op ops ih =>
    have hstep : ∃ op' : Op dim, ∃ m, op.call.replay (onInsert rt levels) (some onDelete) (.ok (s, n)) =
        .ok (s.step rt op', m) ∧ stepSlots s.slots op' = stepSlots s.slots op := by
      cases op with
      | insert id vec metadata level =>
        have hvec : vec.1.length = s.dim := vec.2.trans hdim.symm
        refine ⟨.insert id vec metadata (levels n), n + 1, ?_, rfl⟩
        have hins : s.insertVec rt id vec metadata (levels n) =
            .ok (s.insertRaw rt id vec metadata (levels n)) := if_pos hvec
        change (do
          let s' ← s.insertVec rt id vec metadata (levels n)
          pure (s', n + 1)) = _
        rw [hins]
        rfl
      | delete id => exact ⟨.delete id, n, rfl, rfl⟩
    obtain ⟨op', m, heq, hslots⟩ := hstep
    obtain ⟨halign, hstep⟩ := h.step rt hdim op'
    have hrest := ih halign ((step_dim rt s op').trans hdim) m
    rw [hstep, hslots] at hrest
    rw [List.map_cons, List.foldl_cons, heq, List.foldl_cons]
    exact hrest

theorem recover_of_load {cfg : HNSWConfig} {path : String} {junk : Nat → UInt8} {disk : Disk}
    {base : HNSWIndex} (h : loadNew dim cfg path junk disk = .ok base) (levels : Nat → Level) :
    recover rt dim cfg path junk levels disk =
      ((logCalls disk.wal).foldl (WalCall.replay (onInsert rt levels) (some onDelete))
        (.ok (base, 0))).map Prod.fst := by
  rw [recover, h, ← replay_eq]
  change (do
    let out ← replay (onInsert rt levels) (some onDelete) disk.wal (.ok (base, 0))
    pure out.1) = _
  cases replay (onInsert rt levels) (some onDelete) disk.wal (.ok (base, 0)) <;> rfl

theorem recover_ops {disk : Disk} {vs : List VectorSlot} (h : Loads dim disk vs) (ops : List (Op dim))
    (hlog : logCalls disk.wal = ops.map Op.call) (cfg : HNSWConfig) (path : String)
    (junk : Nat → UInt8) (levels : Nat → Level) :
    ∃ r, recover rt dim cfg path junk levels disk = .ok r ∧ r.slots = ops.foldl stepSlots vs := by
  obtain ⟨base, hload, halign, hdim, rfl⟩ := h cfg path junk
  obtain ⟨r, m, hreplay, -, -, hslots⟩ := replay_ops rt levels ops halign hdim 0
  refine ⟨r, ?_, hslots⟩
  rw [recover_of_load rt hload, hlog, hreplay]
  rfl

end HNSWIndex

end NeuralDb
