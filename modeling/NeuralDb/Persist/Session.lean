import NeuralDb.Persist.Recovery

/-! An index in use: every call is applied in memory and appended to the log, and `compact` may be
called at any point. Recovery from the two files gives the live entries back. -/

namespace NeuralDb

open Library

variable {dim : Nat}

/-- What a user of an index with a log does. The levels are those drawn by a compaction. -/
inductive StoreOp (dim : Nat) where
  | call (op : Op dim)
  | compact (levels : Nat → Level)

namespace StoreOp

def insertedId : StoreOp dim → Option UInt64
  | .call (.insert id _ _ _) => some id
  | _ => none

def metadata : StoreOp dim → Bytes
  | .call (.insert _ _ metadata _) => metadata
  | _ => []

end StoreOp

/-- The index, its two files and the one handle that stays open on the log. -/
structure Session where
  index : HNSWIndex
  disk : Disk
  wal : WAL

namespace Session

variable {σ : Type} [LinearOrder σ] (rt : Runtime σ)

def start (dim : Nat) (cfg : HNSWConfig) : Session :=
  let (file, wal) := WAL.new none
  ⟨.new dim cfg, ⟨none, some file⟩, wal⟩

def step (s : Session) : StoreOp dim → Session
  | .call op =>
    let (file, wal) := s.wal.appendCall (s.disk.wal.getD []) op.call
    ⟨s.index.step rt op, { s.disk with wal := some file }, wal⟩
  | .compact levels => { s with disk := s.index.compact rt levels s.disk }

def run (cfg : HNSWConfig) (ops : List (StoreOp dim)) : Session := ops.foldl (step rt) (start dim cfg)

/-- What holds between the operations: the index file loads, and replaying the log on it simulates
the table in memory. -/
structure Inv (dim : Nat) (ops : List (StoreOp dim)) (s : Session) : Prop where
  aligned : s.index.Aligned
  dim_eq : s.index.dim = dim
  wal_eq : s.wal = ⟨.append⟩
  num_le : s.index.numVectors ≤ (ops.filterMap StoreOp.insertedId).length
  ids_sub : s.index.slots.map VectorSlot.id ⊆ ops.filterMap StoreOp.insertedId
  metadata_lt : ∀ v ∈ s.index.slots, v.metadata.length < 2 ^ 32
  disk_sim : ∃ (base : List VectorSlot) (pending : List (Op dim)),
    HNSWIndex.Loads dim s.disk base ∧
    s.disk.wal = some ((pending.map Op.call).flatMap WalCall.bytes) ∧
    (∀ op ∈ pending, op.call.Fits) ∧ Sim s.index.slots (pending.foldl stepSlots base)

theorem inv_start (dim : Nat) (cfg : HNSWConfig) : Inv dim [] (start dim cfg) where
  aligned := HNSWIndex.aligned_new dim cfg
  dim_eq := rfl
  wal_eq := rfl
  num_le := le_rfl
  ids_sub := List.Subset.refl _
  metadata_lt _ hv := absurd hv List.not_mem_nil
  disk_sim := ⟨[], [], HNSWIndex.loads_absent _, rfl, fun _ hop => absurd hop List.not_mem_nil, sim_nil⟩

theorem stepSlots_ids (vs : List VectorSlot) (op : Op dim) :
    (stepSlots vs op).map VectorSlot.id =
      vs.map VectorSlot.id ++ ((StoreOp.call op).insertedId).toList := by
  cases op with
  | insert id vec metadata level => simp [stepSlots, StoreOp.insertedId]
  | delete id => simp [stepSlots, StoreOp.insertedId, markFirst_map_id]

theorem markFirst_metadata {x : UInt64} {vs : List VectorSlot} {v : VectorSlot} (h : v ∈ markFirst x vs) :
    ∃ w ∈ vs, w.metadata = v.metadata := by
  induction vs with
  | nil => exact absurd h List.not_mem_nil
  | cons w vs ih =>
    rw [markFirst] at h
    split_ifs at h
    · rcases List.mem_cons.mp h with rfl | h
      · exact ⟨w, List.mem_cons_self, rfl⟩
      · exact ⟨v, List.mem_cons_of_mem w h, rfl⟩
    · rcases List.mem_cons.mp h with rfl | h
      · exact ⟨v, List.mem_cons_self, rfl⟩
      · obtain ⟨u, hu, heq⟩ := ih h
        exact ⟨u, List.mem_cons_of_mem w hu, heq⟩

theorem stepSlots_metadata_lt {vs : List VectorSlot} (h : ∀ v ∈ vs, v.metadata.length < 2 ^ 32)
    {op : Op dim} (hop : (StoreOp.call op).metadata.length < 2 ^ 32) :
    ∀ v ∈ stepSlots vs op, v.metadata.length < 2 ^ 32 := by
  intro v hv
  cases op with
  | insert id vec metadata level =>
    rcases List.mem_append.mp hv with hv | hv
    · exact h v hv
    · rw [List.mem_singleton.mp hv]
      exact hop
  | delete id =>
    obtain ⟨w, hw, heq⟩ := markFirst_metadata hv
    exact heq ▸ h w hw

theorem Op.call_fits (hdim : dim < 2 ^ 32) {op : Op dim} (hop : (StoreOp.call op).metadata.length < 2 ^ 32) :
    op.call.Fits := by
  cases op with
  | insert id vec metadata level => exact ⟨vec.2.symm ▸ hdim, hop⟩
  | delete id => exact trivial

theorem Inv.step_call {ops : List (StoreOp dim)} {s : Session} (h : Inv dim ops s) (hdim : dim < 2 ^ 32)
    (op : Op dim) (hop : (StoreOp.call op).metadata.length < 2 ^ 32)
    (honce : ((ops ++ [StoreOp.call op]).filterMap StoreOp.insertedId).Nodup) :
    Inv dim (ops ++ [.call op]) (s.step rt (.call op)) := by
  obtain ⟨base, pending, hload, hwal, hfits, hsim⟩ := h.disk_sim
  obtain ⟨halign, hslots⟩ := h.aligned.step rt h.dim_eq op
  have hstep : s.step rt (.call op) = ⟨s.index.step rt op,
      { s.disk with wal := some (((pending ++ [op]).map Op.call).flatMap WalCall.bytes) }, ⟨.append⟩⟩ := by
    simp only [Session.step, h.wal_eq, hwal, WAL.appendCall, WAL.fwrite, Option.getD_some,
      List.map_append, List.flatMap_append, List.map_singleton, List.flatMap_singleton]
  rw [List.filterMap_append] at honce
  -- the inserted id is new to the whole session, hence to the slots
  have hnew : op.isInsert = true → op.id ∉ s.index.slots.map VectorSlot.id := by
    intro hins hmem
    cases op with
    | delete id => exact absurd hins Bool.false_ne_true
    | insert id vec metadata level =>
      exact List.nodup_append'.mp honce |>.2.2 (h.ids_sub hmem) (by simp [StoreOp.insertedId, Op.id])
  rw [hstep]
  refine ⟨halign, (HNSWIndex.step_dim rt _ op).trans h.dim_eq, rfl, ?_, ?_, ?_,
    base, pending ++ [op], hload, rfl, ?_, ?_⟩
  · have hlen := congrArg List.length (stepSlots_ids s.index.slots op)
    have hone : ([StoreOp.call op].filterMap StoreOp.insertedId).length = (StoreOp.call op).insertedId.toList.length := by
      cases op <;> rfl
    have hle := h.num_le
    rw [List.length_map, List.length_append, List.length_map, HNSWIndex.slots_length, ← hslots,
      HNSWIndex.slots_length] at hlen
    show (s.index.step rt op).numVectors ≤ _
    rw [List.filterMap_append, List.length_append, hone]
    omega
  · rw [hslots, stepSlots_ids, List.filterMap_append]
    refine List.append_subset.mpr ⟨List.Subset.trans h.ids_sub (List.subset_append_left _ _), ?_⟩
    refine List.Subset.trans ?_ (List.subset_append_right _ _)
    cases op <;> simp [StoreOp.insertedId]
  · rw [hslots]
    exact stepSlots_metadata_lt h.metadata_lt hop
  · intro op' hmem
    rcases List.mem_append.mp hmem with hmem | hmem
    · exact hfits op' hmem
    · rw [List.mem_singleton.mp hmem]
      exact Op.call_fits hdim hop
  · rw [hslots, List.foldl_append]
    exact hsim.step op hnew

theorem Inv.step_compact {ops : List (StoreOp dim)} {s : Session} (h : Inv dim ops s) (hdim : dim < 2 ^ 32)
    (hlen : (ops.filterMap StoreOp.insertedId).length < 2 ^ 32) (levels : Nat → Level) :
    Inv dim (ops ++ [.compact levels]) (s.step rt (.compact levels : StoreOp dim)) := by
  obtain ⟨base, pending, -, -, -, hsim⟩ := h.disk_sim
  have hnum : s.index.numVectors < 2 ^ 64 := (h.num_le.trans_lt hlen).trans (by decide)
  have hload := HNSWIndex.loads_compacted rt h.aligned levels (h.dim_eq.symm ▸ hdim) hnum h.metadata_lt
    (some [])
  rw [h.dim_eq] at hload
  refine ⟨h.aligned, h.dim_eq, h.wal_eq, ?_, ?_, h.metadata_lt, liveSlots s.index.slots, [], hload, rfl,
    fun _ hop => absurd hop List.not_mem_nil, hsim.compacted⟩
  · rw [List.filterMap_append, List.length_append]
    exact h.num_le.trans (Nat.le_add_right _ _)
  · rw [List.filterMap_append]
    exact List.Subset.trans h.ids_sub (List.subset_append_left _ _)

theorem inv_run (cfg : HNSWConfig) (hdim : dim < 2 ^ 32) (ops : List (StoreOp dim))
    (hlen : (ops.filterMap StoreOp.insertedId).length < 2 ^ 32) (honce : (ops.filterMap StoreOp.insertedId).Nodup)
    (hmeta : ∀ op ∈ ops, op.metadata.length < 2 ^ 32) : Inv dim ops (run rt cfg ops) := by
  induction ops using List.reverseRecOn with
  | nil => exact inv_start dim cfg
  | append_singleton ops op ih =>
    have hless : (ops.filterMap StoreOp.insertedId).length < 2 ^ 32 := by
      rw [List.filterMap_append, List.length_append] at hlen
      omega
    have hprev : Inv dim ops (run rt cfg ops) := by
      refine ih hless ?_ fun op' hop' => hmeta op' (List.mem_append_left _ hop')
      rw [List.filterMap_append] at honce
      exact (List.nodup_append'.mp honce).1
    rw [run, List.foldl_append, ← run, List.foldl_cons, List.foldl_nil]
    cases op with
    | call op => exact hprev.step_call rt hdim op (hmeta _ (by simp)) honce
    | compact levels => exact hprev.step_compact rt hdim hless levels

/-- After any history of calls and compactions with internal ids below 2 ^ 32, recovery shows the live entries of the index in
memory, in slot order, whatever levels are drawn on either side. -/
theorem recover_run (cfg : HNSWConfig) (hdim : dim < 2 ^ 32) (ops : List (StoreOp dim))
    (hlen : (ops.filterMap StoreOp.insertedId).length < 2 ^ 32) (honce : (ops.filterMap StoreOp.insertedId).Nodup)
    (hmeta : ∀ op ∈ ops, op.metadata.length < 2 ^ 32) (cfg' : HNSWConfig) (path : String)
    (junk : Nat → UInt8) (levels : Nat → Level) :
    ∃ r, HNSWIndex.recover rt dim cfg' path junk levels (run rt cfg ops).disk = .ok r ∧
      live r.slots = live (run rt cfg ops).index.slots := by
  have h := inv_run rt cfg hdim ops hlen honce hmeta
  obtain ⟨base, pending, hload, hwal, hfits, hsim⟩ := h.disk_sim
  have hlog : logCalls (run rt cfg ops).disk.wal = pending.map Op.call := by
    rw [hwal]
    exact logCalls_flatMap _ fun c hc => by
      obtain ⟨op, hop, rfl⟩ := List.mem_map.mp hc
      exact hfits op hop
  obtain ⟨r, hr, hslots⟩ := HNSWIndex.recover_ops rt hload pending hlog cfg' path junk levels
  exact ⟨r, hr, hslots ▸ hsim.live_eq⟩

/-- A recovery of a history with a deletion behind its compaction. -/
theorem recover_run_three :
    let ops : List (StoreOp 1) := [.call (.insert 7 ⟨[3], rfl⟩ [65] 0), .call (.insert 8 ⟨[5], rfl⟩ [] 1),
      .compact fun _ => 2, .call (.delete 7), .call (.insert 9 ⟨[4], rfl⟩ [66] 0)]
    live (run .sample {} ops).index.slots = [(8, [5], []), (9, [4], [66])] ∧
      ∃ r, HNSWIndex.recover .sample 1 {} "index" (fun _ => 0) (fun _ => 1) (run .sample {} ops).disk =
        .ok r ∧ live r.slots = live (run .sample {} ops).index.slots := by
  intro ops
  refine ⟨by decide, recover_run .sample {} (by decide) ops (by decide) (by decide) (by decide) {}
    "index" (fun _ => 0) (fun _ => 1)⟩

/-! ### The width of the dimension -/

theorem replay_error (levels : Nat → Level) (cs : List WalCall) (e : String) :
    cs.foldl (WalCall.replay (HNSWIndex.onInsert rt levels) (some HNSWIndex.onDelete)) (.error e) =
      .error e := by
  induction cs with
  | nil => rfl
  | cons c cs ih =>
    rw [List.foldl_cons]
    cases c <;> exact ih

/-- When the 32 bits of the dimension are all zero, the zeros of the vector are read as an empty
vector and empty metadata. -/
theorem logCalls_wide (id : UInt64) (metadata : Bytes) {n : Nat} (hpos : 0 < n) (hn : n % 2 ^ 32 = 0) :
    ∃ cs, logCalls (some (WalCall.bytes (.insert id (List.replicate n 0) metadata))) =
      .insert id [] [] :: cs := by
  obtain ⟨m, rfl⟩ := Nat.exists_eq_succ_of_ne_zero hpos.ne'
  have hlen : leBytes 4 (0 :: List.replicate m (0 : Word)).length = leBytes 4 0 := by
    rw [List.length_cons, List.length_replicate, leBytes_mod, pow_four_bytes, hn]
  have hbytes : ∃ rest, WalCall.bytes (.insert id (List.replicate (m + 1) 0) metadata) =
      [WalCall.insert id [] []].flatMap WalCall.bytes ++ rest := by
    refine ⟨(List.replicate m (0 : Word)).flatMap wordBytes ++ (leBytes 4 metadata.length ++
      metadata.take (metadata.length % 2 ^ 32)), ?_⟩
    simp only [WalCall.bytes, List.replicate_succ, hlen, List.flatMap_cons, List.flatMap_nil]
    simp only [List.cons_append, List.append_assoc, List.append_nil, List.length_nil, List.take_nil,
      List.nil_append]
    rfl
  obtain ⟨rest, hrest⟩ := hbytes
  refine ⟨logCalls (some rest), ?_⟩
  have hfits : ∀ c ∈ [WalCall.insert id [] []], c.Fits :=
    List.forall_mem_singleton.mpr ⟨(by decide : 0 < 2 ^ 32), (by decide : 0 < 2 ^ 32)⟩
  rw [hrest, logCalls_append _ hfits]
  rfl

theorem recover_of_wide (cfg cfg' : HNSWConfig) (id : UInt64) (level : Nat) {n : Nat} (hpos : 0 < n)
    (hn : n % 2 ^ 32 = 0) (path : String) (junk : Nat → UInt8) (levels : Nat → Level) :
    let zeros : VecOf n := ⟨List.replicate n 0, List.length_replicate⟩
    let s := run rt cfg [.call (.insert id zeros [] level)]
    live s.index.slots = [(id, zeros.1, [])] ∧
      HNSWIndex.recover rt n cfg' path junk levels s.disk = .error "dimension mismatch" := by
  intro zeros s
  have hslots : s.index.slots = [⟨id, [], zeros, false⟩] :=
    ((HNSWIndex.aligned_new n cfg).step rt rfl (.insert id zeros [] level)).2
  refine ⟨by rw [hslots]; rfl, ?_⟩
  have hwal : s.disk.wal = some (WalCall.bytes (.insert id zeros [])) := rfl
  have hload : HNSWIndex.loadNew n cfg' path junk s.disk = .ok (HNSWIndex.new n cfg') := rfl
  obtain ⟨cs, hcs⟩ := logCalls_wide id [] hpos hn
  have hfirst : WalCall.replay (HNSWIndex.onInsert rt levels) (some HNSWIndex.onDelete)
      (.ok (HNSWIndex.new n cfg', 0)) (.insert id [] []) = .error "dimension mismatch" := by
    have hins : (HNSWIndex.new n cfg').insertVec rt id [] [] (levels 0) = .error "dimension mismatch" :=
      if_neg hpos.ne
    change (do
      let s' ← (HNSWIndex.new n cfg').insertVec rt id [] [] (levels 0)
      pure (s', 0 + 1)) = _
    rw [hins]
    rfl
  rw [HNSWIndex.recover_of_load rt hload, hwal, hcs, List.foldl_cons, hfirst, replay_error]
  rfl

/-- One vector of 2 ^ 32 zeros: the index in memory holds it and recovery fails. -/
theorem recover_wide :
    let zeros : VecOf (2 ^ 32) := ⟨List.replicate (2 ^ 32) 0, List.length_replicate⟩
    let s := run .sample {} [.call (.insert 7 zeros [] 0)]
    live s.index.slots = [(7, zeros.1, [])] ∧
      HNSWIndex.recover .sample (2 ^ 32) {} "index" (fun _ => 0) (fun _ => 0) s.disk =
        .error "dimension mismatch" :=
  recover_of_wide .sample {} {} 7 0 (by decide) (by decide) "index" _ _

end Session

end NeuralDb
