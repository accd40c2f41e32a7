import NeuralDb.Hnsw.GraphInvariant
import NeuralDb.Hnsw.History

/-! The representation invariant of an HNSW index, kept by every history of calls. -/

namespace NeuralDb

namespace HNSWIndex

structure Inv (s : HNSWIndex) : Prop extends Aligned s, LinksOk s where
  maxLayer_nonneg : 0 ≤ s.maxLayer
  entry_lt : 0 < s.numVectors → s.entryPoint < s.numVectors
  entry_layers : 0 < s.numVectors → (s.layers s.entryPoint : Int) = s.maxLayer + 1
  layers_le : ∀ x, (s.layers x : Int) ≤ s.maxLayer + 1

theorem inv_new (dim : Nat) (cfg : HNSWConfig) : (new dim cfg).Inv where
  toAligned := aligned_new dim cfg
  self_free _ _ := List.not_mem_nil
  nodup _ _ := List.nodup_nil
  in_layer _ _ _ hy := absurd hy List.not_mem_nil
  degree _ _ := Nat.zero_le _
  maxLayer_nonneg := le_rfl
  entry_lt h := absurd h (lt_irrefl 0)
  entry_layers h := absurd h (lt_irrefl 0)
  layers_le _ := Int.ofNat_le.mpr (Nat.zero_le 1)

variable {s : HNSWIndex}

theorem Inv.lt_numVectors (h : s.Inv) {l x : Nat} (hl : l < s.layers x) : x < s.numVectors :=
  h.graph_length ▸ lt_graph_length hl

theorem Inv.deleteVector (h : s.Inv) (id : UInt64) : (s.deleteVector id).Inv := by
  have halign := h.toAligned.deleteVector id
  unfold HNSWIndex.deleteVector at halign ⊢
  split at halign
  · exact { h with toAligned := halign }
  · exact h

section Raise

variable (s) (q level : Nat)

@[simp] theorem raise_links : (s.raise q level).links = s.links := by
  unfold raise
  split_ifs <;> rfl

@[simp] theorem raise_layers : (s.raise q level).layers = s.layers := by
  unfold raise
  split_ifs <;> rfl

theorem raise_maxLayer : (s.raise q level).maxLayer = max s.maxLayer level := by
  unfold raise
  split_ifs with h
  · exact (max_eq_right h.le).symm
  · exact (max_eq_left (not_lt.mp h)).symm

@[simp] theorem raise_maxLinks : (s.raise q level).maxLinks = s.maxLinks := by
  unfold raise
  split_ifs <;> rfl

end Raise

theorem LinksOk.raise (h : s.LinksOk) (q level : Nat) : (s.raise q level).LinksOk := by
  constructor <;> simp only [raise_links, raise_layers, raise_maxLinks]
  · exact h.self_free
  · exact h.nodup
  · exact h.in_layer
  · exact h.degree

section Insert

variable {σ : Type} [LinearOrder σ] (rt : Runtime σ)

theorem Inv.append_first (h : s.Inv) (h0 : s.numVectors = 0) (id : UInt64) {vec : Vec}
    (hvec : vec.length = s.dim) (metadata : Bytes) (level : Nat) :
    (s.append id vec metadata level).Inv := by
  have hlen : s.graph.length = 0 := h.graph_length.trans h0
  have hmax : (s.append id vec metadata level).maxLayer = level := if_pos h0
  have hentry : (s.append id vec metadata level).entryPoint = 0 := if_pos h0
  have hlayers : ∀ x, (s.append id vec metadata level).layers x = if x = 0 then level + 1 else 0 := by
    intro x
    rw [layers_append, hlen]
    split_ifs
    · rfl
    · exact layers_eq_zero (by omega)
  exact {
    toAligned := h.toAligned.append id hvec metadata level
    toLinksOk := h.toLinksOk.append id vec metadata level
    maxLayer_nonneg := by omega
    entry_lt := fun hpos => by rwa [hentry]
    entry_layers := fun _ => by rw [hentry, hlayers, hmax]; rfl
    layers_le := fun x => by
      rw [hlayers, hmax]
      split_ifs <;> omega }

/-- Where the linking loop of a later insert starts: with `n` layers to go, at a node `ep` that has
them, and with a new node that takes part in no layer yet. -/
structure LinkStart (t : HNSWIndex) (q level n ep : Nat) : Prop where
  ok : t.LinksOk
  free : ∀ l, t.Unlinked q l
  layers_new : t.layers q = level + 1
  layers_ep : n ≤ t.layers ep
  ep_ne : ep ≠ q
  pos : 0 < n
  le : n ≤ level + 1

theorem Inv.linkStart (h : s.Inv) (h0 : s.numVectors ≠ 0) (id : UInt64) (vec : Vec) (metadata : Bytes)
    (level : Nat) :
    ∃ n ep, LinkStart (s.append id vec metadata level) s.numVectors level n ep ∧
      s.insertRaw rt id vec metadata level =
        raise (linkLayers (m := Id) rt rawAccess s.numVectors vec n ep (s.append id vec metadata level))
          s.numVectors level := by
  let t := s.append id vec metadata level
  let q := s.numVectors
  have ht : t.LinksOk := h.toLinksOk.append id vec metadata level
  have hfree : ∀ l, t.Unlinked q l := by
    intro l
    have := h.toLinksOk.unlinked_append id vec metadata level l
    rwa [h.graph_length] at this
  have hmax : t.maxLayer = s.maxLayer := if_neg h0
  have hentry : t.entryPoint = s.entryPoint := if_neg h0
  have hpos : 0 < s.numVectors := Nat.pos_of_ne_zero h0
  have hlt := h.entry_lt hpos
  have hep : (t.layers t.entryPoint : Int) = t.maxLayer + 1 ∧ t.entryPoint ≠ q := by
    refine ⟨?_, hentry ▸ hlt.ne⟩
    rw [hentry, hmax, layers_append, if_neg (by rw [h.graph_length]; exact hlt.ne)]
    exact h.entry_layers hpos
  have hnonneg : 0 ≤ t.maxLayer := hmax ▸ h.maxLayer_nonneg
  let P : Nat → Nat → Prop := fun l x => l < t.layers x ∧ x ≠ q
  have hlinks : ∀ l x, P l x → ∀ y ∈ t.links l x, P l y :=
    fun l x _ y hy => ⟨ht.in_layer l x y hy, fun he => (hfree l).2 x (he ▸ hy)⟩
  have hdown : ∀ l x, P (l + 1) x → P l x := fun l x hx => ⟨Nat.lt_of_succ_lt hx.1, hx.2⟩
  let ep := descend (m := Id) rt t.rawAccess t vec level (t.maxLayer - level).toNat t.entryPoint
  let n := (min (level : Int) t.maxLayer + 1).toNat
  have hep' : n ≤ t.layers ep ∧ ep ≠ q := by
    by_cases hle : (level : Int) ≤ t.maxLayer
    · have hP : P level ep := descend_mem rt t vec level hlinks hdown _ ⟨by omega, hep.2⟩
      exact ⟨by have := hP.1; omega, hP.2⟩
    · -- the node is above the old graph, there is no descent
      have hzero : (t.maxLayer - level).toNat = 0 := by omega
      have hsame : ep = t.entryPoint := by
        simp only [ep, hzero]
        rfl
      rw [hsame]
      exact ⟨by omega, hep.2⟩
  have hq : t.layers q = level + 1 := by rw [layers_append, if_pos h.graph_length.symm]
  refine ⟨n, ep, ⟨ht, hfree, hq, hep'.1, hep'.2, ?_, ?_⟩, insertRaw_linked rt h0⟩
  · omega
  · omega

/-- The state of a later insert when its linking loop is done: the node is linked on every layer it
shares with the old graph, and the other nodes have kept their layers. -/
theorem Inv.linked (h : s.Inv) (h0 : s.numVectors ≠ 0) (id : UInt64) (vec : Vec) (metadata : Bytes)
    (level : Nat) :
    ∃ u : HNSWIndex, s.insertRaw rt id vec metadata level = u.raise s.numVectors level ∧ u.LinksOk ∧
      Relinked (fun l => l ≤ level) (s.append id vec metadata level) u := by
  obtain ⟨n, ep, hstart, heq⟩ := h.linkStart rt h0 id vec metadata level
  have hq : n ≤ (s.append id vec metadata level).layers s.numVectors := hstart.layers_new ▸ hstart.le
  obtain ⟨hok, hrel⟩ := hstart.ok.linkLayers rt vec n hq (fun l _ => hstart.free l) hstart.layers_ep hstart.ep_ne
  exact ⟨_, heq, hok, hrel.mono fun l hl => Nat.lt_succ_iff.mp (hl.trans_le hstart.le)⟩

theorem Inv.insertRaw (h : s.Inv) (id : UInt64) {vec : Vec} (hvec : vec.length = s.dim)
    (metadata : Bytes) (level : Nat) : (s.insertRaw rt id vec metadata level).Inv := by
  by_cases h0 : s.numVectors = 0
  · rw [insertRaw_first rt h0]
    exact h.append_first h0 id hvec metadata level
  have halign := h.toAligned.insertRaw rt id hvec metadata level
  obtain ⟨u, heq, hok, hrel⟩ := h.linked rt h0 id vec metadata level
  have hpos : 0 < s.numVectors := Nat.pos_of_ne_zero h0
  have hmax : u.maxLayer = s.maxLayer := by
    rw [hrel.frame]
    exact if_neg h0
  have hentry : u.entryPoint = s.entryPoint := by
    rw [hrel.frame]
    exact if_neg h0
  have hnum : u.numVectors = s.numVectors + 1 := by
    rw [hrel.frame]
    rfl
  have hlayers : ∀ x, u.layers x = if x = s.numVectors then level + 1 else s.layers x := by
    intro x
    rw [hrel.layers_eq, layers_append, h.graph_length]
  have hnonneg := h.maxLayer_nonneg
  have hold := h.layers_le
  have hlinks := hok.raise s.numVectors level
  rw [heq] at halign ⊢
  by_cases hup : s.maxLayer < level
  · -- the new node becomes the entry point, at the top of its own layers
    have hraise : u.raise s.numVectors level = { u with maxLayer := level, entryPoint := s.numVectors } :=
      if_pos (hmax ▸ hup)
    rw [hraise] at halign hlinks ⊢
    refine { toAligned := halign, toLinksOk := hlinks, maxLayer_nonneg := Int.natCast_nonneg level,
             entry_lt := fun _ => by simp only [hnum]; exact Nat.lt_succ_self _,
             entry_layers := fun _ => ?_, layers_le := fun x => ?_ }
    · change (u.layers s.numVectors : Int) = _
      rw [hlayers, if_pos rfl]
      rfl
    · change (u.layers x : Int) ≤ level + 1
      have := hold x
      rw [hlayers]
      split_ifs <;> omega
  · have hraise : u.raise s.numVectors level = u := if_neg (hmax ▸ hup)
    rw [hraise] at halign ⊢
    refine { toAligned := halign, toLinksOk := hok, maxLayer_nonneg := hmax ▸ hnonneg,
             entry_lt := fun _ => ?_, entry_layers := fun _ => ?_, layers_le := fun x => ?_ }
    · rw [hentry, hnum]
      exact Nat.lt_succ_of_lt (h.entry_lt hpos)
    · rw [hentry, hmax, hlayers, if_neg (h.entry_lt hpos).ne]
      exact h.entry_layers hpos
    · have := hold x
      rw [hlayers, hmax]
      split_ifs <;> omega

theorem Inv.insertRaw_layers (h : s.Inv) (id : UInt64) (vec : Vec) (metadata : Bytes) (level x : Nat) :
    (s.insertRaw rt id vec metadata level).layers x =
      if x = s.numVectors then level + 1 else s.layers x := by
  rw [← h.graph_length, ← layers_append s id vec metadata level]
  by_cases h0 : s.numVectors = 0
  · rw [insertRaw_first rt h0]
  · obtain ⟨u, heq, -, hrel⟩ := h.linked rt h0 id vec metadata level
    rw [heq, raise_layers, hrel.layers_eq]

variable {dim : Nat}

theorem Inv.step (h : s.Inv) (hdim : s.dim = dim) (op : Op dim) : (s.step rt op).Inv := by
  cases op with
  | insert id vec metadata level => exact h.insertRaw rt id (vec.2.trans hdim.symm) metadata level
  | delete id => exact h.deleteVector id

/-- No call changes the layers of a node that is there, so the `resize` of `insert` never acts. -/
theorem Inv.step_layers (h : s.Inv) (op : Op dim) {x : Nat} (hx : x < s.numVectors) :
    (s.step rt op).layers x = s.layers x := by
  cases op with
  | insert id vec metadata level =>
    rw [HNSWIndex.step, h.insertRaw_layers rt, if_neg hx.ne]
  | delete id =>
    simp only [HNSWIndex.step, HNSWIndex.deleteVector]
    split <;> rfl

theorem inv_run (cfg : HNSWConfig) (ops : List (Op dim)) : (run rt cfg ops).Inv := by
  induction ops using List.reverseRecOn with
  | nil => exact inv_new dim cfg
  | append_singleton ops op ih =>
    rw [run_concat]
    exact ih.step rt (run_dim rt cfg ops) op

end Insert

end HNSWIndex

end NeuralDb
