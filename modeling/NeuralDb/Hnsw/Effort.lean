import NeuralDb.Hnsw.NodeIds
import NeuralDb.Hnsw.Prefix
import NeuralDb.Library.BeamWidth

/-! What a larger `ef_search` buys. Without deleted slots, and without two vectors that are equally similar to
the query, no hit gets worse and none is lost. -/

namespace NeuralDb

open Library

namespace HNSWIndex

variable {σ : Type} [LinearOrder σ] (rt : Runtime σ) {s : HNSWIndex} {query : Vec}

/-- No two slots are equally similar to the query. -/
def Distinct (s : HNSWIndex) (query : Vec) : Prop :=
  ∀ x y, x < s.numVectors → y < s.numVectors → s.simRaw rt query x = s.simRaw rt query y → x = y

theorem distinct_of_nodup (h : (s.slots.map fun v => rt.cosineSimilarity query v.data).Nodup) :
    s.Distinct rt query := by
  intro x y hx hy heq
  have hget : ∀ {i}, i < s.numVectors →
      (s.slots.map fun v => rt.cosineSimilarity query v.data)[i]? = some (s.simRaw rt query i) := by
    intro i hi
    rw [List.getElem?_map, slots_getElem? s hi]
    rfl
  refine (List.getElem?_inj ?_ h).mp ((hget hx).trans (heq ▸ (hget hy).symm))
  rw [List.length_map, slots_length]
  exact hx

/-- The nodes that a search of layer 0 with beam width `ef` expands from its start, in order. -/
def expanded (s : HNSWIndex) (query : Vec) (ef : Int) : List Nat :=
  match s.searchStart rt query with
  | none => []
  | some e =>
    Beam.expansions (s.links 0) (s.simRaw rt query) ef s.graph.length (Beam.start e (s.simRaw rt query e))

/-- The candidates for a larger `ef_search` are rank by rank at least as similar, and what is expanded for a
smaller one is expanded first. -/
theorem Inv.found_wider (h : s.Inv) (hdistinct : s.Distinct rt query) {ef ef' : Int} (hef : 1 ≤ ef) (hle : ef ≤ ef') :
    (∀ i (hi : i < ((s.setEfSearch ef).foundCandidates rt query).length),
      ∃ hi' : i < ((s.setEfSearch ef').foundCandidates rt query).length,
        (((s.setEfSearch ef).foundCandidates rt query)[i]).1 ≤
          (((s.setEfSearch ef').foundCandidates rt query)[i]).1) ∧
      (0 < s.numVectors → s.expanded rt query ef <+: s.expanded rt query ef') := by
  by_cases h0 : s.numVectors = 0
  · have hnone : (s.setEfSearch ef).foundCandidates rt query = [] := if_pos h0
    refine ⟨fun i hi => ?_, fun hpos => absurd h0 hpos.ne'⟩
    rw [hnone] at hi
    exact absurd hi (Nat.not_lt_zero i)
  have hpos : 0 < s.numVectors := Nat.pos_of_ne_zero h0
  cases he : s.searchStart rt query with
  | none =>
    have hnone : ∀ ef, (s.setEfSearch ef).foundCandidates rt query = [] := by
      intro ef
      have hstart := (searchStart_setEfSearch rt s ef query).trans he
      have hnum : ¬ (s.setEfSearch ef).numVectors = 0 := h0
      rw [foundCandidates, if_neg hnum, hstart]
    refine ⟨fun i hi => ?_, fun _ => ?_⟩
    · rw [hnone] at hi
      exact absurd hi (Nat.not_lt_zero i)
    · simp only [expanded, he]
      exact List.prefix_rfl
  | some e =>
    have hlt := h.searchStart_lt rt hpos he
    have hclosed : ∀ x, x < s.numVectors → ∀ y ∈ s.links 0 x, y < s.numVectors := fun _ _ _ hy => h.links_lt hy
    let last : Int → Beam σ Nat := fun ef =>
      Beam.loop (m := Id) (s.links 0) (simTo rt s.rawAccess query) ef s.graph.length
        (Beam.start e (s.simRaw rt query e))
    have hfound : ∀ ef, (s.setEfSearch ef).foundCandidates rt query = rt.sort (last ef).results := by
      intro ef
      have hstart := (searchStart_setEfSearch rt s ef query).trans he
      have hnum : ¬ (s.setEfSearch ef).numVectors = 0 := h0
      rw [foundCandidates, if_neg hnum, hstart]
      rfl
    obtain ⟨hgoing, hgoing', hvisited, hprefix⟩ :=
      Beam.search_wider (s.simRaw rt query) hdistinct hef hle hclosed s.graph.length hlt
    refine ⟨fun i hi => ?_, fun _ => ?_⟩
    · simp only [hfound] at hi ⊢
      exact Beam.rank_le_of_visited hef hle hgoing hgoing' hvisited (rt.sort_perm _) (rt.sort_perm _)
        (rt.sort_ordered _) (rt.sort_ordered _) hi
    · simp only [expanded, he]
      exact hprefix

/-- Where no slot is deleted a search returns the first candidates that it finds. -/
theorem searchRaw_found (hlive : ∀ x, s.isTombstoned x = false) {k : Int} (hk : 1 ≤ k) :
    s.searchRaw rt query k = ((s.foundCandidates rt query).take k.toNat).map s.external := by
  rw [searchRaw_take hk, liveCandidates, List.filter_eq_self.mpr]
  intro c _
  rw [isLive, hlive]
  rfl

theorem Inv.hits_wider (h : s.Inv) (hlive : ∀ x, s.isTombstoned x = false) (hdistinct : s.Distinct rt query)
    {ef ef' k : Int} (hef : 1 ≤ ef) (hle : ef ≤ ef') (hk : 1 ≤ k) :
    ∀ i (hi : i < ((s.setEfSearch ef).searchRaw rt query k).length),
      ∃ hi' : i < ((s.setEfSearch ef').searchRaw rt query k).length,
        (((s.setEfSearch ef).searchRaw rt query k)[i]).1 ≤ (((s.setEfSearch ef').searchRaw rt query k)[i]).1 := by
  intro i hi
  have hhits : ∀ ef, (s.setEfSearch ef).searchRaw rt query k =
      (((s.setEfSearch ef).foundCandidates rt query).take k.toNat).map s.external :=
    fun ef => searchRaw_found rt (s := s.setEfSearch ef) hlive hk
  simp only [hhits] at hi ⊢
  rw [List.length_map, List.length_take] at hi
  obtain ⟨hi', hrank⟩ := (h.found_wider rt hdistinct hef hle).1 i (by omega)
  refine ⟨by rw [List.length_map, List.length_take]; omega, ?_⟩
  simp only [List.getElem_map, List.getElem_take, external]
  exact hrank

variable {dim : Nat}

/-- After any sequence of fewer than 2 ^ 31 inserts, when no two vectors are equally similar to the query, a larger
`ef_search` expands what a smaller one expands and then more, returns as many hits or more, each at least as similar as the
hit of its rank was, and has as many hits or more above any threshold. -/
theorem wider_search (cfg : HNSWConfig) (ops : List (Op dim)) (hops : ∀ op ∈ ops, op.isInsert = true)
    (hfew : ops.length < 2 ^ 31) (query : Vec)
    (hdistinct : ((FlatIndex.run ops).vectors.map fun v => rt.cosineSimilarity query v.data).Nodup)
    {ef ef' k : Int} (hef : 1 ≤ ef) (hle : ef ≤ ef') (hk : 1 ≤ k) :
    let s := run32 rt cfg ops
    let hits := (s.setEfSearch ef).searchRaw rt query k
    let hits' := (s.setEfSearch ef').searchRaw rt query k
    (0 < s.size → s.expanded rt query ef <+: s.expanded rt query ef') ∧ hits.length ≤ hits'.length ∧
      (∀ i (hi : i < hits.length), ∃ hi' : i < hits'.length, hits[i].1 ≤ hits'[i].1) ∧
      ∀ v : σ, (hits.countP fun r => decide (v ≤ r.1)) ≤ hits'.countP fun r => decide (v ≤ r.1) := by
  rw [run32_eq rt cfg (List.countP_le_length.trans (by omega))]
  intro s hits hits'
  have hs : s.Inv := inv_run rt cfg ops
  have hslots : s.slots = (FlatIndex.run ops).vectors := slots_run rt cfg ops
  have hdist : s.Distinct rt query := distinct_of_nodup rt (hslots ▸ hdistinct)
  have hlive : ∀ x, s.isTombstoned x = false := by
    intro x
    by_cases hx : x < s.numVectors
    · have hv := List.mem_of_getElem? (slots_getElem? s hx)
      rw [hslots, FlatIndex.run_eq] at hv
      exact runSlots_live hops _ hv
    · exact hs.isTombstoned_of_le (not_lt.mp hx)
  have hranks := hs.hits_wider rt hlive hdist hef hle hk
  refine ⟨(hs.found_wider rt hdist hef hle).2, ?_, hranks, fun v => ?_⟩
  · by_contra hlt
    obtain ⟨hi', -⟩ := hranks hits'.length (not_le.mp hlt)
    exact lt_irrefl _ hi'
  · exact countP_le_of_rank hranks fun a b hab ha => decide_eq_true ((of_decide_eq_true ha).trans hab)

/-- A beam of one finds the best vector, a beam of five the next one too. -/
theorem wider_search_three :
    let ops : List (Op 2) := [.insert 7 ⟨[0, 0x3F800000], rfl⟩ [] 0, .insert 8 ⟨[0x3F800000, 0], rfl⟩ [] 0,
      .insert 9 ⟨[0x40400000, 0x40800000], rfl⟩ [] 0]
    let s := run32 .cosine {} ops
    (s.setEfSearch 1).searchRaw .cosine [0x3F800000, 0] 2 = [(1, 8)] ∧
      (s.setEfSearch 5).searchRaw .cosine [0x3F800000, 0] 2 = [(1, 8), (9 / 25, 9)] ∧
      ((s.setEfSearch 1).searchRaw .cosine [0x3F800000, 0] 2).length ≤
        ((s.setEfSearch 5).searchRaw .cosine [0x3F800000, 0] 2).length := by
  intro ops s
  obtain ⟨-, hlen, -⟩ := wider_search .cosine {} ops (by decide) (by decide) [0x3F800000, 0] (by decide +kernel)
    (show (1 : Int) ≤ 1 by decide) (show (1 : Int) ≤ 5 by decide) (show (1 : Int) ≤ 2 by decide)
  exact ⟨by decide +kernel, by decide +kernel, hlen⟩

end HNSWIndex

end NeuralDb
