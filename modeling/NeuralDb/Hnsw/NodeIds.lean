import NeuralDb.Hnsw.Invariant
import NeuralDb.Kernel

/-! `insert` with the 32 bits that a node id has in the source. Up to 2 ^ 32 inserts the ids are the naturals
of the other modules; the next insert takes the id 0 again. -/

namespace NeuralDb

namespace HNSWIndex

/-- The first locked region of `insert`, which asks the 32-bit id whether the vector is the first one. -/
def append32 (s : HNSWIndex) (q : UInt32) (id : UInt64) (vec : Vec) (metadata : Bytes) (level : Nat) : HNSWIndex :=
  { s.append id vec metadata level with
    maxLayer := if q = 0 then level else s.maxLayer
    entryPoint := if q = 0 then 0 else s.entryPoint }

section Machine

variable {σ : Type} [LinearOrder σ] (rt : Runtime σ)

/-- `insert` with `q = static_cast<uint32_t>(num_vectors_)`. Past the layers of the node that a wrapped id
names, the assignment to `graph_[q][lc]` is undefined in the source and does nothing here. -/
def insert32 (s : HNSWIndex) (id : UInt64) (vec : Vec) (metadata : Bytes) (level : Nat) : HNSWIndex :=
  let q := UInt32.ofNat s.numVectors
  let s := s.append32 q id vec metadata level
  if q = 0 then s
  else
    let curMax := s.maxLayer
    let ep := descend (m := Id) rt s.rawAccess s vec level (curMax - level).toNat s.entryPoint
    let s := linkLayers (m := Id) rt rawAccess q.toNat vec (min (level : Int) curMax + 1).toNat ep s
    s.raise q.toNat level

variable {dim : Nat}

def step32 (s : HNSWIndex) : Op dim → HNSWIndex
  | .insert id vec metadata level => s.insert32 rt id vec metadata level
  | .delete id => s.deleteVector id

def run32 (cfg : HNSWConfig) (ops : List (Op dim)) : HNSWIndex := ops.foldl (step32 rt) (new dim cfg)

theorem run32_concat (cfg : HNSWConfig) (ops : List (Op dim)) (op : Op dim) :
    run32 rt cfg (ops ++ [op]) = (run32 rt cfg ops).step32 rt op := List.foldl_append

theorem ofNat_eq_zero_iff {n : Nat} (hn : n < 2 ^ 32) : UInt32.ofNat n = 0 ↔ n = 0 := by
  rw [← UInt32.toNat_inj, UInt32.toNat_ofNat_of_lt' hn]
  rfl

theorem append32_eq {s : HNSWIndex} (h : s.numVectors < 2 ^ 32) (id : UInt64) (vec : Vec) (metadata : Bytes)
    (level : Nat) : s.append32 (.ofNat s.numVectors) id vec metadata level = s.append id vec metadata level := by
  simp only [append32, append, ofNat_eq_zero_iff h]

/-- As long as the ids fit their 32 bits nothing is lost. -/
theorem insert32_eq {s : HNSWIndex} (h : s.numVectors < 2 ^ 32) (id : UInt64) (vec : Vec) (metadata : Bytes)
    (level : Nat) : s.insert32 rt id vec metadata level = s.insertRaw rt id vec metadata level := by
  have hq : (UInt32.ofNat s.numVectors).toNat = s.numVectors := UInt32.toNat_ofNat_of_lt' h
  rw [insert32, append32_eq h]
  by_cases h0 : s.numVectors = 0
  · rw [if_pos ((ofNat_eq_zero_iff h).mpr h0), insertRaw_first rt h0]
  · rw [if_neg fun hc => h0 ((ofNat_eq_zero_iff h).mp hc), insertRaw_linked rt h0, hq]

theorem numVectors_run (cfg : HNSWConfig) (ops : List (Op dim)) :
    (run rt cfg ops).numVectors = ops.countP Op.isInsert := by
  rw [← slots_length, (aligned_run rt cfg ops).2]
  induction ops using List.reverseRecOn with
  | nil => rfl
  | append_singleton ops op ih =>
    rw [runSlots_concat, List.countP_append, ← ih]
    cases op with
    | insert id vec metadata level => exact List.length_append
    | delete id => exact markFirst_length id _

theorem run32_eq (cfg : HNSWConfig) {ops : List (Op dim)} (h : ops.countP Op.isInsert ≤ 2 ^ 32) :
    run32 rt cfg ops = run rt cfg ops := by
  induction ops using List.reverseRecOn with
  | nil => rfl
  | append_singleton ops op ih =>
    rw [List.countP_append, List.countP_singleton] at h
    rw [run32_concat, run_concat, ih (by omega)]
    cases op with
    | insert id vec metadata level =>
      have hop : (Op.insert id vec metadata level).isInsert = true := rfl
      rw [if_pos hop] at h
      exact insert32_eq rt (by rw [numVectors_run]; omega) id vec metadata level
    | delete id => rfl

/-- The representation invariant after every operation of a history of up to 2 ^ 32 inserts, whatever levels are
drawn; and the layers of a node never change once it is there. -/
theorem representation_invariant (cfg : HNSWConfig) (ops : List (Op dim)) (hfew : ops.countP Op.isInsert ≤ 2 ^ 32) :
    let s := run32 rt cfg ops
    (s.idMap.length = s.numVectors ∧ s.metadata.length = s.numVectors ∧
      s.tombstone.length = s.numVectors ∧ s.graph.length = s.numVectors ∧
      s.rawVectors.length = s.numVectors * dim) ∧
    (0 < s.numVectors → s.entryPoint < s.numVectors ∧
      (s.layers s.entryPoint : Int) = s.maxLayer + 1 ∧ ∀ x, (s.layers x : Int) ≤ s.maxLayer + 1) ∧
    (∀ x l, x ∉ s.links l x ∧ (s.links l x).Nodup ∧
      (∀ y ∈ s.links l x, y < s.numVectors ∧ l < s.layers y) ∧
      (s.links l x).length ≤ (if l = 0 then cfg.M * 2 else cfg.M).toNat) ∧
    ∀ op : Op dim, (ops ++ [op]).countP Op.isInsert ≤ 2 ^ 32 →
      ∀ x < s.numVectors, (run32 rt cfg (ops ++ [op])).layers x = s.layers x := by
  intro s
  have hs : s = run rt cfg ops := run32_eq rt cfg hfew
  have h : s.Inv := hs ▸ inv_run rt cfg ops
  have hdim : s.dim = dim := hs ▸ run_dim rt cfg ops
  have hmax : ∀ l, s.maxLinks l = if l = 0 then cfg.M * 2 else cfg.M := by
    intro l
    rw [maxLinks, hs, run_cfg]
  refine ⟨⟨h.idMap_length, h.metadata_length, h.tombstone_length, h.graph_length,
    hdim ▸ h.rawVectors_length⟩, fun hpos => ⟨h.entry_lt hpos, h.entry_layers hpos, h.layers_le⟩,
    fun x l => ⟨h.self_free l x, h.nodup l x, fun y hy => ?_, hmax l ▸ h.degree l x⟩, fun op hop x hx => ?_⟩
  · have hlayer := h.in_layer l x y hy
    exact ⟨h.lt_numVectors hlayer, hlayer⟩
  · rw [run32_eq rt cfg hop, run_concat, ← hs]
    exact h.step_layers rt op hx

/-- Every node of a history of inserts at one level has the layers of that level. -/
theorem layers_replicate (cfg : HNSWConfig) (id : UInt64) (vec : VecOf dim) (metadata : Bytes) (level n : Nat) {x : Nat}
    (hx : x < n) : (run rt cfg (List.replicate n (.insert id vec metadata level))).layers x = level + 1 := by
  induction n with
  | zero => exact absurd hx (Nat.not_lt_zero x)
  | succ n ih =>
    have hnum : (run rt cfg (List.replicate n (.insert id vec metadata level))).numVectors = n := by
      rw [numVectors_run, List.countP_replicate]
      exact if_pos rfl
    rw [List.replicate_succ', run_concat, step, (inv_run rt cfg _).insertRaw_layers rt, hnum]
    split_ifs with hlast
    · rfl
    · exact ih (by omega)

/-- Where the ids wrap, an insert at level 0 behind inserts at level 1 takes the index for empty: the entry point
is set back and node 0 has more layers than the top layer says. -/
theorem wrapped_layers (cfg : HNSWConfig) (id : UInt64) (vec : VecOf dim) (metadata : Bytes) {n : Nat} (hpos : 0 < n)
    (hn : n ≤ 2 ^ 32) (hzero : UInt32.ofNat n = 0) :
    let s := run32 rt cfg (List.replicate n (.insert id vec metadata 1) ++ [.insert id vec metadata 0])
    0 < s.numVectors ∧ ¬ ∀ x, (s.layers x : Int) ≤ s.maxLayer + 1 := by
  intro s
  let first : List (Op dim) := List.replicate n (.insert id vec metadata 1)
  have hcount : first.countP Op.isInsert = n := by
    rw [List.countP_replicate]
    exact if_pos rfl
  have hfirst : run32 rt cfg first = run rt cfg first := run32_eq rt cfg (hcount.trans_le hn)
  have hnum : (run rt cfg first).numVectors = n := (numVectors_run rt cfg first).trans hcount
  have hlast : s = (run rt cfg first).append32 0 id vec metadata 0 := by
    have hstep : s = (run rt cfg first).insert32 rt id vec metadata 0 := hfirst ▸ run32_concat rt cfg first _
    rw [hstep, insert32, hnum, hzero]
    exact if_pos rfl
  have hlayers : ((run rt cfg first).append id vec metadata 0).layers 0 = 2 := by
    rw [layers_append, (inv_run rt cfg first).graph_length, hnum, if_neg hpos.ne]
    exact layers_replicate rt cfg id vec metadata 1 n hpos
  rw [hlast]
  refine ⟨Nat.succ_pos _, fun hle => ?_⟩
  have htop : (((run rt cfg first).append id vec metadata 0).layers 0 : Int) ≤ 0 + 1 := hle 0
  omega

end Machine

theorem representation_invariant_two :
    let s := run32 .cosine {} [.insert 7 ⟨[0x3F800000], List.length_singleton⟩ [] 1,
      .insert 8 ⟨[0x40000000], List.length_singleton⟩ [] 0]
    0 < s.numVectors → s.entryPoint < s.numVectors ∧ (s.layers s.entryPoint : Int) = s.maxLayer + 1 :=
  fun hpos => ((representation_invariant .cosine {} _ (by decide)).2.1 hpos).imp_right And.left

theorem invariant_wraps :
    let vec : VecOf 1 := ⟨[0x3F800000], List.length_singleton⟩
    let s := run32 .cosine {} (List.replicate (2 ^ 32) (.insert 7 vec [] 1) ++ [.insert 7 vec [] 0])
    2 ≤ ({} : HNSWConfig).M ∧ 0 < s.numVectors ∧ ¬ ∀ x, (s.layers x : Int) ≤ s.maxLayer + 1 :=
  ⟨by decide, wrapped_layers .cosine {} 7 _ [] (Nat.two_pow_pos 32) le_rfl rfl⟩

end HNSWIndex

end NeuralDb
