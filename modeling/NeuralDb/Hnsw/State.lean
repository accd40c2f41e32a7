import NeuralDb.Flat.Index

/-! The state of an HNSW index and the updates its code makes under one hold of `index_mutex_`.
Internal ids are `uint32_t` in the source and naturals here. `NodeIds` has the inserts with their 32 bits, which
are these as long as there are no more than 2 ^ 32 of them. -/

namespace NeuralDb

structure HNSWConfig where
  M : Int := 16
  efConstruction : Int := 200
  efSearch : Int := 50
  /-- The `M * 2` links of the bottom layer are an `int`. -/
  M_lt : M < 2 ^ 30 := by decide

structure HNSWIndex where
  dim : Nat
  cfg : HNSWConfig
  numVectors : Nat := 0
  maxLayer : Int := 0
  entryPoint : Nat := 0
  graph : List (List (List Nat)) := []
  rawVectors : List Word := []
  idMap : List UInt64 := []
  metadata : List Bytes := []
  tombstone : List Bool := []

namespace HNSWIndex

def new (dim : Nat) (cfg : HNSWConfig) : HNSWIndex := { dim, cfg }

def setEfSearch (s : HNSWIndex) (ef : Int) : HNSWIndex := { s with cfg := { s.cfg with efSearch := ef } }

/-- `raw_vec`: the `dim_` floats at `raw_vectors_.data() + i * dim_`. -/
def rawVec (s : HNSWIndex) (i : Nat) : Vec := (s.rawVectors.drop (i * s.dim)).take s.dim

/-- `graph_[x].size()`. -/
def layers (s : HNSWIndex) (x : Nat) : Nat := (s.graph.getD x []).length

/-- `graph_[x][l]`, empty when `x` does not reach layer `l`. -/
def links (s : HNSWIndex) (l x : Nat) : List Nat := (s.graph.getD x []).getD l []

def isTombstoned (s : HNSWIndex) (i : Nat) : Bool := s.tombstone.getD i false

def slot (s : HNSWIndex) (i : Nat) : VectorSlot :=
  ⟨s.idMap.getD i 0, s.metadata.getD i [], s.rawVec i, s.isTombstoned i⟩

/-- The slots of the index as the flat index stores them. -/
def slots (s : HNSWIndex) : List VectorSlot := (List.range s.numVectors).map s.slot

/-- The first locked region of `insert`. The first vector becomes the entry point. -/
def append (s : HNSWIndex) (id : UInt64) (vec : Vec) (metadata : Bytes) (level : Nat) : HNSWIndex :=
  { s with
    numVectors := s.numVectors + 1
    rawVectors := s.rawVectors ++ vec
    idMap := s.idMap ++ [id]
    metadata := s.metadata ++ [metadata]
    tombstone := s.tombstone ++ [false]
    graph := s.graph ++ [List.replicate (level + 1) []]
    maxLayer := if s.numVectors = 0 then level else s.maxLayer
    entryPoint := if s.numVectors = 0 then 0 else s.entryPoint }

/-- `graph_[x][l] = ls`. -/
def setLinks (s : HNSWIndex) (l x : Nat) (ls : List Nat) : HNSWIndex :=
  { s with graph := s.graph.modify x fun layers => layers.set l ls }

/-- `graph_[x].resize(l + 1)` when `x` does not reach layer `l`. -/
def growTo (s : HNSWIndex) (l x : Nat) : HNSWIndex :=
  { s with graph := s.graph.modify x fun layers => layers ++ List.replicate (l + 1 - layers.length) [] }

/-- `graph_[nb][l].push_back(q)`. -/
def pushLink (s : HNSWIndex) (l nb q : Nat) : HNSWIndex :=
  (s.growTo l nb).setLinks l nb ((s.growTo l nb).links l nb ++ [q])

/-- The last locked region of `insert`. -/
def raise (s : HNSWIndex) (q level : Nat) : HNSWIndex :=
  if s.maxLayer < level then { s with maxLayer := level, entryPoint := q } else s

/-- The slot that `delete_vector` and `is_deleted` look at: the first that carries the id. -/
def firstSlot (s : HNSWIndex) (id : UInt64) : Option Nat :=
  (s.idMap.take s.numVectors).idxOf? id

def deleteVector (s : HNSWIndex) (id : UInt64) : HNSWIndex :=
  match s.firstSlot id with
  | some i => { s with tombstone := s.tombstone.set i true }
  | none => s

def isDeleted (s : HNSWIndex) (id : UInt64) : Bool :=
  match s.firstSlot id with
  | some i => s.isTombstoned i
  | none => false

def size (s : HNSWIndex) : Nat := s.numVectors

def liveSize (s : HNSWIndex) : Nat := s.tombstone.countP fun t => !t

/-! ### Reading the graph after an update -/

section Graph

variable {s : HNSWIndex}

theorem graph_append_getD (s : HNSWIndex) (id : UInt64) (vec : Vec) (metadata : Bytes) (level x : Nat) :
    (s.append id vec metadata level).graph.getD x [] =
      if x = s.graph.length then List.replicate (level + 1) [] else s.graph.getD x [] := by
  simp only [append, List.getD_eq_getElem?_getD]
  rcases lt_trichotomy x s.graph.length with hlt | rfl | hgt
  · rw [List.getElem?_append_left hlt, if_neg hlt.ne]
  · simp
  · have hlen : (s.graph ++ [List.replicate (level + 1) []]).length ≤ x := by
      rw [List.length_append, List.length_singleton]
      omega
    rw [List.getElem?_eq_none hlen, List.getElem?_eq_none hgt.le, if_neg hgt.ne']

theorem layers_append (s : HNSWIndex) (id : UInt64) (vec : Vec) (metadata : Bytes) (level x : Nat) :
    (s.append id vec metadata level).layers x =
      if x = s.graph.length then level + 1 else s.layers x := by
  rw [layers, graph_append_getD]
  split_ifs
  · exact List.length_replicate
  · rfl

theorem links_append (s : HNSWIndex) (id : UInt64) (vec : Vec) (metadata : Bytes) (level l x : Nat) :
    (s.append id vec metadata level).links l x = s.links l x := by
  rw [links, graph_append_getD]
  split_ifs with h
  · have hnone : s.graph[s.graph.length]? = none := List.getElem?_eq_none le_rfl
    simp only [links, h, List.getD_eq_getElem?_getD, hnone, List.getElem?_replicate]
    split_ifs <;> rfl
  · rfl

@[simp] theorem layers_setLinks (s : HNSWIndex) (l x : Nat) (ls : List Nat) (y : Nat) :
    (s.setLinks l x ls).layers y = s.layers y := by
  simp only [layers, setLinks, List.getD_eq_getElem?_getD, List.getElem?_modify]
  cases s.graph[y]? with
  | none => simp
  | some g => by_cases h : x = y <;> simp [h]

theorem links_setLinks (s : HNSWIndex) (l x : Nat) (ls : List Nat) (k y : Nat) :
    (s.setLinks l x ls).links k y =
      if x = y ∧ l = k ∧ k < s.layers y then ls else s.links k y := by
  simp only [layers, links, setLinks, List.getD_eq_getElem?_getD, List.getElem?_modify]
  cases s.graph[y]? with
  | none => simp
  | some g =>
    by_cases h : x = y
    · simp [h, List.getElem?_set]
      by_cases hk : l = k <;> simp [hk]
      split_ifs with hlt
      · rfl
      · simp [List.getElem?_eq_none (by omega : g.length ≤ k)]
    · simp [h]

/-- What holds of each list that is there and of the new one holds of each list after the assignment. -/
theorem forall_links_setLinks {P : Nat → Nat → List Nat → Prop} {l x : Nat} {ls : List Nat}
    (h : ∀ k y, P k y (s.links k y)) (hls : P l x ls) (k y : Nat) : P k y ((s.setLinks l x ls).links k y) := by
  rw [links_setLinks]
  split_ifs with hk
  · obtain ⟨rfl, rfl, -⟩ := hk
    exact hls
  · exact h k y

theorem layers_eq_zero (h : s.graph.length ≤ x) : s.layers x = 0 := by
  simp [layers, List.getD_eq_getElem?_getD, List.getElem?_eq_none h]

theorem links_of_layers_le (h : s.layers x ≤ l) : s.links l x = [] := by
  rw [links, List.getD_eq_getElem?_getD, List.getElem?_eq_none h]
  rfl

theorem links_of_length_le (h : s.graph.length ≤ x) (l : Nat) : s.links l x = [] := by
  apply links_of_layers_le
  rw [layers_eq_zero h]
  exact Nat.zero_le l

theorem lt_length_of_mem_links {y : Nat} (hy : y ∈ s.links l x) : x < s.graph.length := by
  by_contra hge
  rw [links_of_length_le (not_lt.mp hge)] at hy
  exact absurd hy List.not_mem_nil

theorem exists_layers_of_mem {g : List (List Nat)} (hg : g ∈ s.graph) : ∃ x, s.layers x = g.length := by
  obtain ⟨x, hx, rfl⟩ := List.mem_iff_getElem.mp hg
  exact ⟨x, by simp [layers, List.getD_eq_getElem?_getD, hx]⟩

theorem exists_links_of_mem {g : List (List Nat)} (hg : g ∈ s.graph) {ls : List Nat} (hls : ls ∈ g) :
    ∃ l x, s.links l x = ls := by
  obtain ⟨x, hx, rfl⟩ := List.mem_iff_getElem.mp hg
  obtain ⟨l, hl, rfl⟩ := List.mem_iff_getElem.mp hls
  exact ⟨l, x, by simp [links, List.getD_eq_getElem?_getD, hx, hl]⟩

theorem growTo_of_lt (h : l < s.layers x) : s.growTo l x = s := by
  have hid : s.graph.modify x (fun ls => ls ++ List.replicate (l + 1 - ls.length) []) = s.graph := by
    apply List.ext_getElem?
    intro i
    rw [List.getElem?_modify]
    by_cases hi : x = i
    · subst hi
      cases hg : s.graph[x]? with
      | none => simp
      | some g =>
        have : l < g.length := by simpa [layers, List.getD_eq_getElem?_getD, hg] using h
        simp [show l + 1 - g.length = 0 by omega]
    · simp [hi]
  rw [growTo, hid]

@[simp] theorem links_growTo (s : HNSWIndex) (l x k y : Nat) :
    (s.growTo l x).links k y = s.links k y := by
  simp only [links, growTo, List.getD_eq_getElem?_getD, List.getElem?_modify]
  cases s.graph[y]? with
  | none => simp
  | some g =>
    by_cases h : x = y
    · simp only [h, if_true, Option.map_eq_map, Option.map_some, Option.getD_some]
      rcases Nat.lt_or_ge k g.length with hk | hk
      · rw [List.getElem?_append_left hk]
      · rw [List.getElem?_append_right hk, List.getElem?_eq_none hk, List.getElem?_replicate]
        split_ifs <;> rfl
    · simp [h]

theorem lt_layers_growTo {l : Nat} (h : x < s.graph.length) : l < (s.growTo l x).layers x := by
  simp only [layers, growTo, List.getD_eq_getElem?_getD, List.getElem?_modify, if_true,
    List.getElem?_eq_getElem h, Option.map_eq_map, Option.map_some, Option.getD_some,
    List.length_append, List.length_replicate]
  omega

theorem lt_layers_pushLink {l nb : Nat} (h : nb < s.graph.length) (q : Nat) :
    l < (s.pushLink l nb q).layers nb := by
  rw [pushLink, layers_setLinks]
  exact lt_layers_growTo h

theorem links_pushLink {l nb : Nat} (h : nb < s.graph.length) (q k y : Nat) :
    (s.pushLink l nb q).links k y = if nb = y ∧ l = k then s.links l nb ++ [q] else s.links k y := by
  rw [pushLink, links_setLinks, links_growTo, links_growTo]
  have hlt : l < (s.growTo l nb).layers nb := lt_layers_growTo h
  by_cases hy : nb = y ∧ l = k
  · obtain ⟨rfl, rfl⟩ := hy
    rw [if_pos ⟨rfl, rfl, hlt⟩, if_pos ⟨rfl, rfl⟩]
  · rw [if_neg fun hc => hy ⟨hc.1, hc.2.1⟩, if_neg hy]

/-- In the graph of a reached index the neighbour always has the layer, so nothing grows. -/
theorem pushLink_of_lt {l x q : Nat} (h : l < s.layers x) :
    s.pushLink l x q = s.setLinks l x (s.links l x ++ [q]) := by
  rw [pushLink, growTo_of_lt h]

end Graph

end HNSWIndex

end NeuralDb
