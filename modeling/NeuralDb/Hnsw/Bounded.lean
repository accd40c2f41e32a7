import NeuralDb.Hnsw.GraphInvariant

/-! Graphs whose links stay among the first `n` nodes, a weaker form of the graph invariant that
every single update keeps. -/

namespace NeuralDb

open Library

namespace HNSWIndex

/-- A graph over `n` nodes with bounded link lists. -/
structure Bounded (n : Nat) (s : HNSWIndex) : Prop where
  graph_length : s.graph.length = n
  lt : ∀ l x, ∀ y ∈ s.links l x, y < n
  degree : ∀ l x, (s.links l x).length ≤ (s.maxLinks l).toNat

variable {n : Nat} {s : HNSWIndex} {σ : Type} [LinearOrder σ] (rt : Runtime σ)

theorem Regraphed.rawVec_eq {t : HNSWIndex} (h : Regraphed s t) : t.rawVec = s.rawVec := by
  rw [h.frame]
  rfl

theorem Regraphed.cfg_eq {t : HNSWIndex} (h : Regraphed s t) : t.cfg = s.cfg := h.table.cfg_eq

@[simp] theorem pushLink_maxLinks (s : HNSWIndex) (l nb q k : Nat) :
    (s.pushLink l nb q).maxLinks k = s.maxLinks k := rfl

theorem LinksOk.bounded (h : s.LinksOk) : s.Bounded s.graph.length :=
  ⟨rfl, fun _ _ _ hy => h.lt_length hy, h.degree⟩

theorem Bounded.setLinks (h : s.Bounded n) {l : Nat} (x : Nat) {ls : List Nat} (hlt : ∀ y ∈ ls, y < n)
    (hdeg : ls.length ≤ (s.maxLinks l).toNat) : (s.setLinks l x ls).Bounded n where
  graph_length := (setLinks_graph_length s l x ls).trans h.graph_length
  lt := forall_links_setLinks (P := fun _ _ ls => ∀ y ∈ ls, y < n) h.lt hlt
  degree := forall_links_setLinks (P := fun k _ ls => ls.length ≤ (s.maxLinks k).toNat) h.degree hdeg

theorem Bounded.append (h : s.Bounded n) (id : UInt64) (vec : Vec) (metadata : Bytes) (level : Nat) :
    (s.append id vec metadata level).Bounded (n + 1) where
  graph_length := by simp [HNSWIndex.append, h.graph_length]
  lt l x y hy := by
    rw [links_append] at hy
    exact Nat.lt_succ_of_lt (h.lt l x y hy)
  degree l x := by
    rw [links_append]
    exact h.degree l x

/-- What the back-link region of a plain index does, without a look at the layers of `nb`. -/
theorem Bounded.backLink (h : s.Bounded n) (lc : Nat) {q nb : Nat} (hq : q < n) (hnb : nb < n) :
    Bounded n (HNSWIndex.backLink (m := Id) rt s.rawAccess s lc q nb) := by
  have hlen : nb < s.graph.length := h.graph_length ▸ hnb
  have hpush : ∀ k y, ∀ z ∈ (s.pushLink lc nb q).links k y, z < n := by
    intro k y z hz
    rw [links_pushLink hlen] at hz
    split_ifs at hz
    · rcases List.mem_append.mp hz with hz | hz
      · exact h.lt lc nb z hz
      · exact List.mem_singleton.mp hz ▸ hq
    · exact h.lt k y z hz
  have hgraph := (regraphed_pushLink s lc nb q).graph_length.trans h.graph_length
  have hother : ∀ k y, ¬ (nb = y ∧ lc = k) →
      ((s.pushLink lc nb q).links k y).length ≤ (s.maxLinks k).toNat := by
    intro k y hky
    rw [links_pushLink hlen, if_neg hky]
    exact h.degree k y
  simp only [HNSWIndex.backLink]
  split_ifs with hfull
  · let t := s.pushLink lc nb q
    let ls := selectNeighbours rt (scoreLinks (m := Id) rt s.rawAccess nb (t.links lc nb)) (t.maxLinks lc)
    have hsub : ls.Subperm (t.links lc nb) := by
      have hmap : (scoreLinks (m := Id) rt s.rawAccess nb (t.links lc nb)).map Prod.snd = t.links lc nb := by
        rw [scoreLinks_raw, List.map_map, Function.comp_def, List.map_id']
      have hperm := selectNeighbours_subperm rt
        (scoreLinks (m := Id) rt s.rawAccess nb (t.links lc nb)) (t.maxLinks lc)
      exact hmap ▸ hperm
    change Bounded n (t.setLinks lc nb ls)
    exact {
      graph_length := (setLinks_graph_length t lc nb ls).trans hgraph
      lt := forall_links_setLinks (P := fun _ _ ls => ∀ y ∈ ls, y < n) hpush
        fun z hz => hpush lc nb z (hsub.subset hz)
      degree := fun k y => by
        rw [links_setLinks]
        split_ifs with hk
        · exact hk.2.1 ▸ selectNeighbours_length rt _ _
        · refine hother k y fun hky => hk ⟨hky.1, hky.2, ?_⟩
          exact hky.1 ▸ hky.2 ▸ lt_layers_pushLink hlen q }
  · refine ⟨hgraph, hpush, fun k y => ?_⟩
    by_cases hky : nb = y ∧ lc = k
    · obtain ⟨rfl, rfl⟩ := hky
      change ((s.pushLink lc nb q).links lc nb).length ≤ ((s.pushLink lc nb q).maxLinks lc).toNat
      omega
    · exact hother k y hky

theorem links_backLink_of_ne (lc q : Nat) {nb : Nat} (hnb : nb < s.graph.length) (k : Nat) {y : Nat}
    (hy : nb ≠ y) :
    links (HNSWIndex.backLink (m := Id) rt s.rawAccess s lc q nb) k y = s.links k y := by
  have hpush : (s.pushLink lc nb q).links k y = s.links k y := by
    rw [links_pushLink hnb, if_neg fun hc => hy hc.1]
  unfold HNSWIndex.backLink
  dsimp only
  split_ifs
  · refine Eq.trans ?_ hpush
    exact (links_setLinks _ _ _ _ k y).trans (if_neg fun hc => hy hc.1)
  · exact hpush

theorem links_backLink_room (lc q : Nat) {nb : Nat} (hnb : nb < s.graph.length)
    (hroom : ((s.links lc nb).length + 1 : Int) ≤ s.maxLinks lc) :
    links (HNSWIndex.backLink (m := Id) rt s.rawAccess s lc q nb) lc nb = s.links lc nb ++ [q] := by
  have hpush : (s.pushLink lc nb q).links lc nb = s.links lc nb ++ [q] := by
    rw [links_pushLink hnb, if_pos ⟨rfl, rfl⟩]
  unfold HNSWIndex.backLink
  dsimp only
  rw [if_neg]
  · exact hpush
  · rw [hpush, pushLink_maxLinks, List.length_append, List.length_singleton, Int.natCast_add]
    exact not_lt.mpr hroom

theorem links_backLinks_of_notMem (lc q k : Nat) {y : Nat} (nbs : List Nat) {s : HNSWIndex}
    (hnbs : ∀ nb ∈ nbs, nb < s.graph.length) (hy : y ∉ nbs) :
    links (HNSWIndex.backLinks (m := Id) rt rawAccess lc q nbs s) k y = s.links k y := by
  induction nbs generalizing s with
  | nil => rfl
  | cons nb nbs ih =>
    have hne : y ≠ nb := List.ne_of_not_mem_cons hy
    have hrest : y ∉ nbs := List.not_mem_of_not_mem_cons hy
    have hnb := hnbs nb List.mem_cons_self
    have hlen := (regraphed_backLink rt s lc q nb).graph_length
    refine (ih (fun x hx => ?_) hrest).trans (links_backLink_of_ne rt lc q hnb k (Ne.symm hne))
    rw [hlen]
    exact hnbs x (List.mem_cons_of_mem nb hx)

theorem Bounded.layerResult (hs : s.Bounded n) (query : Vec) {ep : Nat} (hep : ep < n) (ef : Int)
    (layer : Nat) : LayerResult (s.simRaw rt query) (· < n) ef
      (searchLayer (m := Id) rt s.rawAccess s query ep ef layer) :=
  searchLayer_result rt s query ef layer hep fun x _ y hy => hs.lt layer x y hy

theorem Bounded.backLinks (lc : Nat) {q : Nat} (hq : q < n) (nbs : List Nat) (hnbs : ∀ nb ∈ nbs, nb < n)
    {s : HNSWIndex} (hs : s.Bounded n) :
    Bounded n (HNSWIndex.backLinks (m := Id) rt rawAccess lc q nbs s) := by
  induction nbs generalizing s with
  | nil => exact hs
  | cons nb nbs ih =>
    exact ih (fun x hx => hnbs x (List.mem_cons_of_mem nb hx))
      (hs.backLink rt lc hq (hnbs nb List.mem_cons_self))

theorem selectNeighbours_pos {cands : List (σ × Nat)} {M : Int}
    (h : selectNeighbours rt cands M ≠ []) : 0 < M := by
  have := selectNeighbours_length rt cands M
  have := List.length_pos_iff.mpr h
  omega

end HNSWIndex

end NeuralDb
