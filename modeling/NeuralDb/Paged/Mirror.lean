import NeuralDb.Hnsw.Search
import NeuralDb.Library.Interleaving
import NeuralDb.Paged.Simulation

/-! A paged index at the full-page dimension next to a plain index that received the same inserts. -/

namespace NeuralDb

open Library PagedVectorStore HNSWIndex

namespace PagedIndex

/-- The paged index `p` has the graph of the plain index `s`, and its store the vectors of `s`. -/
structure Mirrors (cap : Nat) (s : HNSWIndex) (p : PagedIndex) : Prop where
  hnsw_eq : p.hnsw = s
  store_holds : p.store.Holds cap s.numVectors s.rawVec

variable {cap : Nat} {fails : Prop} {σ : Type} [LinearOrder σ] (rt : Runtime σ)

theorem returns_insert {s : HNSWIndex} (hs : s.Inv) (hroom : ¬ fails → PruneFits cap s.cfg)
    (id : UInt64) (vec : Vec) (metadata : Bytes) (level : Nat) :
    Returns fails (Holds cap (s.numVectors + 1) (s.append id vec metadata level).rawVec)
      (HNSWIndex.insert rt (fun _ => pagedAccess) s id vec metadata level)
      (s.insertRaw rt id vec metadata level) := by
  by_cases h0 : s.numVectors = 0
  · rw [insertRaw_first rt h0]
    unfold HNSWIndex.insert
    rw [if_pos h0]
    exact returns_pure _
  let t := s.append id vec metadata level
  have ht : t.Bounded (s.numVectors + 1) := by
    rw [← hs.graph_length]
    exact hs.toLinksOk.bounded.append id vec metadata level
  have hentry : t.entryPoint < s.numVectors + 1 := by
    have hkeep : t.entryPoint = s.entryPoint := if_neg h0
    rw [hkeep]
    exact Nat.lt_succ_of_lt (hs.entry_lt (Nat.pos_of_ne_zero h0))
  have hlt := descend_mem rt t vec level (P := fun _ x => x < s.numVectors + 1)
    (fun l x _ y hy => ht.lt l x y hy) (fun _ _ hx => hx) (t.maxLayer - level).toNat hentry
  rw [insertRaw_linked rt h0]
  unfold HNSWIndex.insert
  rw [if_neg h0]
  refine (returns_descend rt ht vec level (t.maxLayer - level).toNat hentry).bind ?_
  exact (returns_linkLayers rt (Nat.lt_succ_self _) vec _ ht hlt hroom).map
    fun u => u.raise s.numVectors level

theorem Mirrors.push {s : HNSWIndex} {p : PagedIndex} (h : p.Mirrors cap s) (hs : s.Inv)
    (hdim : s.dim = fullPageDim) (i : Insertion fullPageDim) :
    (p.store.push i.vec).Holds cap (s.numVectors + 1) (s.append i.id i.vec i.metadata i.level).rawVec := by
  have hvec : i.vec.1.length = fullPageDim := i.vec.2
  apply h.store_holds.push hvec
  · exact fun j hj => hs.toAligned.rawVec_append i.id i.vec i.metadata i.level hj
  · exact hs.toAligned.rawVec_append_self i.id (hvec.trans hdim.symm) i.metadata i.level

/-- One insert: the paged index goes wrong or stays the mirror of the plain one. -/
theorem Mirrors.insert {s : HNSWIndex} {p : PagedIndex} (h : p.Mirrors cap s) (hs : s.Inv)
    (hdim : s.dim = fullPageDim) (hroom : ¬ fails → PruneFits cap s.cfg) (i : Insertion fullPageDim) :
    (fails ∧ p.insert rt i = none) ∨ ∃ p', p.insert rt i = some p' ∧ p'.Mirrors cap (s.step rt i.op) := by
  let t := s.append i.id i.vec i.metadata i.level
  have htable := insertRaw_table rt s i.id i.vec i.metadata i.level
  have hraw : (s.step rt i.op).rawVec = t.rawVec := by
    show (s.insertRaw rt i.id i.vec i.metadata i.level).rawVec = t.rawVec
    rw [htable.frame]
    rfl
  have hrun := returns_insert rt hs hroom i.id i.vec i.metadata i.level _ (h.push hs hdim i)
  unfold PagedIndex.insert
  rw [h.hnsw_eq]
  rcases hrun with ⟨hf, hnone⟩ | ⟨st', hsome, h'⟩
  · exact .inl ⟨hf, by rw [hnone]; rfl⟩
  · refine .inr ⟨⟨st', s.step rt i.op⟩, by rw [hsome]; rfl, rfl, ?_⟩
    rw [hraw]
    have hnum : (s.step rt i.op).numVectors = s.numVectors + 1 := htable.numVectors_eq
    rwa [hnum]

theorem Mirrors.search {s : HNSWIndex} {p : PagedIndex} (h : p.Mirrors cap s) (hs : s.Inv) (query : Vec)
    (k : Int) : ∃ p', p.search rt query k = some (s.searchRaw rt query k, p') := by
  have hbounded : s.Bounded s.numVectors := hs.graph_length ▸ hs.toLinksOk.bounded
  have hret : Returns False (Holds cap s.numVectors s.rawVec) (HNSWIndex.search rt pagedAccess s query k)
      (s.searchRaw rt query k) := by
    unfold HNSWIndex.searchRaw HNSWIndex.search
    split_ifs with h0
    · exact returns_pure _
    cases hep : s.liveEntry with
    | none => exact returns_pure _
    | some ep =>
      have hlt := hs.liveEntry_lt (Nat.pos_of_ne_zero h0) hep
      have hmem := descend_mem rt s query 0 (P := fun _ x => x < s.numVectors)
        (fun l x _ y hy => hbounded.lt l x y hy) (fun _ _ hx => hx) s.maxLayer.toNat hlt
      refine (returns_descend rt hbounded query 0 s.maxLayer.toNat hlt).bind ?_
      exact (returns_searchLayer rt hbounded query hmem s.cfg.efSearch 0).map fun c => s.collect k c []
  obtain ⟨st', hsome, -⟩ := hret.defined not_false h.store_holds
  refine ⟨⟨st', s⟩, ?_⟩
  rw [PagedIndex.search, h.hnsw_eq, hsome]
  rfl

end PagedIndex

end NeuralDb
