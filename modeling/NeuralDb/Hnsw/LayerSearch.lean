import NeuralDb.Hnsw.GraphInvariant
import NeuralDb.Library.LocalOptimum

/-! `search_layer_` on an arbitrary graph: what it returns is locally optimal, and exact when the beam
has room for every node that can be reached. -/

namespace NeuralDb

open Library

namespace HNSWIndex

/-- `y` can be reached from `x` along the links of a layer. -/
def Reaches (s : HNSWIndex) (layer : Nat) : Nat → Nat → Prop :=
  Relation.ReflTransGen fun x y => y ∈ s.links layer x

section LayerSearch

variable {σ : Type} [LinearOrder σ] (rt : Runtime σ) (acc : VecAccess Id) {s : HNSWIndex} (query : Vec)
  {ep : Nat} {ef : Int} {layer : Nat}

/-- The similarity of the query to a node, for an accessor without effects. -/
def simPure (x : Nat) : σ := simTo (m := Id) rt acc query x

/-- `search_layer_` with such an accessor. -/
def searchLayerPure (s : HNSWIndex) (ep : Nat) (ef : Int) (layer : Nat) : List (σ × Nat) :=
  searchLayer (m := Id) rt acc s query ep ef layer

theorem Reaches.lt (hlinks : ∀ x, ∀ y ∈ s.links layer x, y < s.graph.length) (hep : ep < s.graph.length)
    {y : Nat} (h : s.Reaches layer ep y) : y < s.graph.length := by
  induction h with
  | refl => exact hep
  | tail _ hlink _ => exact hlinks _ _ hlink

/-- What a layer search knows of the beam in which it ended. -/
structure SearchEnd (rt : Runtime σ) (acc : VecAccess Id) (s : HNSWIndex) (query : Vec) (ep : Nat) (ef : Int)
    (layer : Nat) (b : Beam σ Nat) : Prop where
  inv : b.Inv (simPure rt acc query) (s.Reaches layer ep) ef
  finished : b.Finished (simPure rt acc query) (s.links layer) ef
  entry : ep ∈ b.visited
  out_eq : searchLayerPure rt acc query s ep ef layer = rt.sort b.results

theorem searchLayer_end (ef : Int) (hlinks : ∀ x, ∀ y ∈ s.links layer x, y < s.graph.length) (hep : ep < s.graph.length) :
    ∃ b, SearchEnd rt acc s query ep ef layer b := by
  have hn : ∀ l : List Nat, l.Nodup → (∀ x ∈ l, s.Reaches layer ep x) → l.length ≤ s.graph.length :=
    fun l hnodup hl => length_le_of_lt hnodup fun x hx => (hl x hx).lt hlinks hep
  have hclosed : ∀ x, s.Reaches layer ep x → ∀ y ∈ s.links layer x, s.Reaches layer ep y :=
    fun _ hx _ hy => hx.tail hy
  obtain ⟨b, hinv, hfin, hentry, hres⟩ :=
    Beam.search_finished (simPure rt acc query) ef hn hclosed .refl le_rfl
  exact ⟨b, hinv, hfin, hentry, congrArg rt.sort hres⟩

variable {acc query}

theorem SearchEnd.mem_out {b : Beam σ Nat} (h : SearchEnd rt acc s query ep ef layer b) {c : σ × Nat} :
    c ∈ searchLayerPure rt acc query s ep ef layer ↔ c ∈ b.results := by
  rw [h.out_eq]
  exact (rt.sort_perm b.results).mem_iff

theorem SearchEnd.mem_ids {b : Beam σ Nat} (h : SearchEnd rt acc s query ep ef layer b) {x : Nat} :
    x ∈ (searchLayerPure rt acc query s ep ef layer).map Prod.snd ↔ x ∈ b.results.map Prod.snd := by
  rw [h.out_eq]
  exact ((rt.sort_perm b.results).map Prod.snd).mem_iff

theorem SearchEnd.length_out {b : Beam σ Nat} (h : SearchEnd rt acc s query ep ef layer b) :
    (searchLayerPure rt acc query s ep ef layer).length = b.results.length := by
  rw [h.out_eq]
  exact (rt.sort_perm b.results).length_eq

theorem SearchEnd.nodup {b : Beam σ Nat} (h : SearchEnd rt acc s query ep ef layer b) :
    ((searchLayerPure rt acc query s ep ef layer).map Prod.snd).Nodup := by
  rw [h.out_eq]
  exact ((rt.sort_perm b.results).map Prod.snd).nodup_iff.mpr h.inv.results_nodup

theorem SearchEnd.ordered {b : Beam σ Nat} (h : SearchEnd rt acc s query ep ef layer b) :
    (searchLayerPure rt acc query s ep ef layer).Pairwise fun a b => b.1 ≤ a.1 := by
  rw [h.out_eq]
  exact rt.sort_ordered b.results

theorem SearchEnd.full_or_all {b : Beam σ Nat} (h : SearchEnd rt acc s query ep ef layer b) (hef : 1 ≤ ef) :
    (b.results.length : Int) = ef ∨ ∀ y, s.Reaches layer ep y → y ∈ b.results.map Prod.snd :=
  Beam.Finished.full_or_all h.inv h.finished hef h.entry

theorem SearchEnd.all_of_room {b : Beam σ Nat} (h : SearchEnd rt acc s query ep ef layer b)
    (hlinks : ∀ x, ∀ y ∈ s.links layer x, y < s.graph.length) (hep : ep < s.graph.length) (hef : 1 ≤ ef)
    (hroom : ({x | s.Reaches layer ep x}.ncard : Int) ≤ ef) :
    ∀ y, s.Reaches layer ep y → y ∈ b.results.map Prod.snd := by
  rcases h.full_or_all rt hef with hfull | hall
  · have hfinite : {x | s.Reaches layer ep x}.Finite :=
      (Set.finite_lt_nat s.graph.length).subset fun x hx => Reaches.lt hlinks hep hx
    have hsub : ((b.results.map Prod.snd).toFinset : Set Nat) ⊆ {x | s.Reaches layer ep x} := by
      intro x hx
      obtain ⟨p, hp, rfl⟩ := List.mem_map.mp (List.mem_toFinset.mp hx)
      exact h.inv.result_in hp
    have hcard : ((b.results.map Prod.snd).toFinset : Set Nat).ncard = b.results.length := by
      rw [Set.ncard_coe_finset, List.toFinset_card_of_nodup h.inv.results_nodup, List.length_map]
    -- a full beam is as large as what can be reached
    have heq := Set.eq_of_subset_of_ncard_le hsub (by omega) hfinite
    intro y hy
    have hy : y ∈ ((b.results.map Prod.snd).toFinset : Set Nat) := by
      rw [heq]
      exact hy
    exact List.mem_toFinset.mp hy
  · exact hall

variable (acc query layer)

end LayerSearch

end HNSWIndex

end NeuralDb
