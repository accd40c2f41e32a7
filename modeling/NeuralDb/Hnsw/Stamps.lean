import NeuralDb.Hnsw.Prefix
import NeuralDb.Library.StampSet

/-! The visited set of `search_layer_`: a buffer of 16-bit stamps that all searches of a thread share,
whatever index they are on. The other modules model it as a list that starts empty in each search. -/

namespace NeuralDb

open Library

namespace HNSWIndex

section Search

variable {m : Type → Type} [Monad m] {σ : Type} [LinearOrder σ] (rt : Runtime σ)

/-- The stamps when the traversal starts: with room for the slots of the index, and under the next tag. -/
def enter (s : HNSWIndex) (visited : StampSet 16) : StampSet 16 := (visited.grow s.numVectors 10000).advance

/-- `search_layer_` with `visited_buf` and `visit_tag` as the thread has them, and as it leaves them. -/
def searchLayerStamped (acc : VecAccess m) (s : HNSWIndex) (query : Vec) (ep : Nat) (ef : Int) (layer : Nat)
    (visited : StampSet 16) : m (List (σ × Nat) × StampSet 16) := do
  let (out, visited) ←
    Beam.searchStamped (s.links layer) (simTo rt acc query) ef s.graph.length ep (s.enter visited)
  pure (rt.sort out, visited)

theorem enter_fresh (s : HNSWIndex) (visited : StampSet 16) : (s.enter visited).Fresh :=
  StampSet.advance_fresh (by decide) _

theorem le_enter_length (s : HNSWIndex) (visited : StampSet 16) : s.numVectors ≤ (s.enter visited).marks.length := by
  rw [enter, StampSet.advance_length]
  exact StampSet.le_grow_length _ _ _

/-- What a search of a layer returns does not depend on the stamps that it finds. -/
theorem searchLayerStamped_eq [LawfulMonad m] (acc : VecAccess m) {s : HNSWIndex} (query : Vec) (ep : Nat) (ef : Int)
    {layer : Nat} (hlinks : ∀ x, ∀ y ∈ s.links layer x, y < s.numVectors) (visited : StampSet 16) :
    Prod.fst <$> searchLayerStamped rt acc s query ep ef layer visited = searchLayer rt acc s query ep ef layer := by
  have hroom : ∀ x, ∀ y ∈ s.links layer x, y < (s.enter visited).marks.length :=
    fun x y hy => (hlinks x y hy).trans_le (s.le_enter_length visited)
  have hsearch := Beam.searchStamped_eq (s.enter_fresh visited) hroom (simTo rt acc query) ef s.graph.length ep
  rw [searchLayerStamped, searchLayer, ← hsearch, map_bind, bind_map_left]
  exact bind_congr fun out => map_pure (f := m) Prod.fst (rt.sort out.1, out.2)

end Search

/-- A call of `search_layer_`, on some index and with any way to read its vectors. The entry point and the
links of the layer are internal ids of the index. -/
structure LayerCall where
  index : HNSWIndex
  access : VecAccess Id
  query : Vec
  ep : Nat
  ef : Int
  layer : Nat
  graph_length : index.graph.length = index.numVectors
  ep_lt : ep < index.numVectors
  links_lt : ∀ x, ∀ y ∈ index.links layer x, y < index.numVectors

/-- On an index in order, a search from any slot on any layer is such a call. -/
def Inv.layerCall {s : HNSWIndex} (h : s.Inv) (access : VecAccess Id) (query : Vec) {ep : Nat} (hep : ep < s.numVectors)
    (ef : Int) (layer : Nat) : LayerCall where
  index := s
  access := access
  query := query
  ep := ep
  ef := ef
  layer := layer
  graph_length := h.graph_length
  ep_lt := hep
  links_lt x y hy := h.lt_numVectors (h.in_layer layer x y hy)

section Thread

variable {σ : Type} [LinearOrder σ] (rt : Runtime σ)

/-- What the call returns on the stamps of the thread, and the stamps after it. -/
def LayerCall.run (c : LayerCall) (visited : StampSet 16) : List (σ × Nat) × StampSet 16 :=
  searchLayerStamped (m := Id) rt c.access c.index c.query c.ep c.ef c.layer visited

/-- What the call returns in the model with a list of visited nodes. -/
def LayerCall.plain (c : LayerCall) : List (σ × Nat) := searchLayerPure rt c.access c.query c.index c.ep c.ef c.layer

/-- The calls of one thread, one after the other. -/
def runCalls : List LayerCall → StampSet 16 → List (List (σ × Nat)) × StampSet 16
  | [], visited => ([], visited)
  | c :: cs, visited =>
    let (out, visited) := c.run rt visited
    let (outs, visited) := runCalls cs visited
    (out :: outs, visited)

theorem LayerCall.run_eq (c : LayerCall) (visited : StampSet 16) : (c.run rt visited).1 = c.plain rt :=
  searchLayerStamped_eq (m := Id) rt c.access c.query c.ep c.ef c.links_lt visited

/-- Whatever stamps the thread has, a search of the index finds the same candidates on layer 0. -/
theorem Inv.foundCandidates_run {s : HNSWIndex} (h : s.Inv) (query : Vec) (hpos : 0 < s.numVectors) {e : Nat}
    (he : s.searchStart rt query = some e) (visited : StampSet 16) :
    s.foundCandidates rt query =
      ((h.layerCall s.rawAccess query (h.searchStart_lt rt hpos he) s.cfg.efSearch 0).run rt visited).1 := by
  rw [LayerCall.run_eq, foundCandidates, if_neg hpos.ne', he]
  rfl

theorem runCalls_eq (calls : List LayerCall) (visited : StampSet 16) :
    (runCalls rt calls visited).1 = calls.map (LayerCall.plain rt) := by
  induction calls generalizing visited with
  | nil => rfl
  | cons c cs ih =>
    have hstep : (runCalls rt (c :: cs) visited).1 = (c.run rt visited).1 :: (runCalls rt cs (c.run rt visited).2).1 := rfl
    rw [hstep, c.run_eq, ih, List.map_cons]

/-- In every sequence of calls on a thread, each traversal starts with no entry of the buffer at the current
tag. The calls return what they would return on a new thread, which is what the model with a list returns,
and no search is cut short. -/
theorem stamps_fresh (calls : List LayerCall) :
    (∀ pre c post, calls = pre ++ c :: post → (enter c.index (runCalls rt pre .empty).2).Fresh) ∧
      (runCalls rt calls .empty).1 = calls.map (LayerCall.plain rt) ∧
      ∀ c ∈ calls, c.plain rt = (c.run rt .empty).1 ∧
        ∃ b, SearchEnd rt c.access c.index c.query c.ep c.ef c.layer b := by
  refine ⟨fun pre c post _ => c.index.enter_fresh _, runCalls_eq rt calls .empty, fun c _ => ?_⟩
  have hlinks : ∀ x, ∀ y ∈ c.index.links c.layer x, y < c.index.graph.length :=
    fun x y hy => c.graph_length ▸ c.links_lt x y hy
  exact ⟨(c.run_eq rt .empty).symm, searchLayer_end rt c.access c.query c.ef hlinks (c.graph_length ▸ c.ep_lt)⟩

end Thread

end HNSWIndex

end NeuralDb
