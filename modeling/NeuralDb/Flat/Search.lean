import NeuralDb.Flat.Index
import NeuralDb.Library.TopK

/-! The brute-force search returns eligible slots, all of them when `k` allows it, and no descending
list of eligible slots beats it at any rank. -/

namespace NeuralDb

open Library

namespace FlatIndex

variable {σ : Type} [LinearOrder σ] (rt : Runtime σ) (f : FlatIndex) (eligible : VectorSlot → Bool)
  (query : Vec)

theorem scores_length : (f.scores rt eligible query).length = f.vectors.length := by
  simp [scores]

theorem mem_scores {p : WithBot σ × Nat} :
    p ∈ f.scores rt eligible query ↔ ∃ v, f.vectors[p.2]? = some v ∧
      p.1 = if eligible v then (rt.cosineSimilarity query v.data : WithBot σ) else ⊥ := by
  simp only [scores, List.mem_map]
  constructor
  · rintro ⟨⟨v, i⟩, hvi, rfl⟩
    exact ⟨v, List.mk_mem_zipIdx_iff_getElem?.mp hvi, rfl⟩
  · rintro ⟨v, hv, hp⟩
    exact ⟨(v, p.2), List.mk_mem_zipIdx_iff_getElem?.mpr hv, Prod.ext hp.symm rfl⟩

theorem score_eligible {p : WithBot σ × Nat} (hp : p ∈ f.scores rt eligible query) (hne : p.1 ≠ ⊥) :
    ∃ v, f.vectors[p.2]? = some v ∧ eligible v = true ∧
      p.1 = (rt.cosineSimilarity query v.data : WithBot σ) := by
  obtain ⟨v, hv, hs⟩ := (f.mem_scores rt eligible query).mp hp
  split_ifs at hs with he
  · exact ⟨v, hv, he, hs⟩
  · exact absurd hs hne

theorem scores_topSorted (n : Nat) : TopSorted n (rt.partialSort n (f.scores rt eligible query)) :=
  ⟨rt.partialSort_ordered _ _, rt.partialSort_top _ _⟩

/-- The scores in the order in which `search` collects them. -/
def ranked (k : Int) : List (WithBot σ × Nat) :=
  let actualK := min k.toNat f.vectors.length
  (rt.partialSort actualK (f.scores rt eligible query)).take actualK

/-- The result built for a scored slot. -/
def toResult (p : WithBot σ × Nat) : Option (SearchResult σ) :=
  f.vectors[p.2]?.map fun v => ⟨v.id, p.1, v.metadata⟩

theorem searchWith_eq (k : Int) :
    f.searchWith rt eligible query k =
      ((f.ranked rt eligible query k).takeWhile fun p => decide (p.1 ≠ ⊥)).filterMap f.toResult := rfl

theorem ranked_ordered (k : Int) :
    (f.ranked rt eligible query k).Pairwise fun a b => b.1 ≤ a.1 := rt.partialSort_ordered _ _

theorem ranked_mem {k : Int} {p : WithBot σ × Nat} (hp : p ∈ f.ranked rt eligible query k) :
    p ∈ f.scores rt eligible query :=
  (rt.partialSort_perm _ _).mem_iff.mp (List.mem_of_mem_take hp)

theorem sentinel_up (s t : WithBot σ) (hst : s ≤ t) (h : decide (s ≠ ⊥) = true) :
    decide (t ≠ ⊥) = true := by
  rw [decide_eq_true_eq] at h ⊢
  rintro rfl
  exact h (le_bot_iff.mp hst)

theorem searchWith_sound {k : Int} {r : SearchResult σ} (hr : r ∈ f.searchWith rt eligible query k) :
    ∃ v ∈ f.vectors, eligible v = true ∧ r.id = v.id ∧ r.metadata = v.metadata ∧
      r.score = (rt.cosineSimilarity query v.data : WithBot σ) := by
  rw [searchWith_eq] at hr
  obtain ⟨p, hp, hpr⟩ := List.mem_filterMap.mp hr
  have hne : p.1 ≠ ⊥ := of_decide_eq_true (List.all_eq_true.mp List.all_takeWhile p hp)
  have hmem := f.ranked_mem rt eligible query ((List.takeWhile_prefix _).subset hp)
  obtain ⟨v, hv, he, hs⟩ := f.score_eligible rt eligible query hmem hne
  rw [toResult, hv, Option.map_some, Option.some_inj] at hpr
  subst hpr
  exact ⟨v, List.mem_of_getElem? hv, he, rfl, rfl, hs⟩

/-- With room for every slot no eligible slot is missed. -/
theorem searchWith_complete {k : Int} (hk : (f.vectors.length : Int) ≤ k) {v : VectorSlot}
    (hv : v ∈ f.vectors) (he : eligible v = true) :
    ∃ r ∈ f.searchWith rt eligible query k, r.id = v.id := by
  obtain ⟨i, hi⟩ := List.mem_iff_getElem?.mp hv
  let p : WithBot σ × Nat := (rt.cosineSimilarity query v.data, i)
  have hscore : p ∈ f.scores rt eligible query :=
    (f.mem_scores rt eligible query).mpr ⟨v, hi, by rw [if_pos he]⟩
  have hranked : p ∈ f.ranked rt eligible query k := by
    have hperm := rt.partialSort_perm (min k.toNat f.vectors.length) (f.scores rt eligible query)
    have hall : min k.toNat f.vectors.length = f.vectors.length := by omega
    rw [ranked, hall, List.take_of_length_le]
    · exact hall ▸ hperm.mem_iff.mpr hscore
    · rw [← hall, hperm.length_eq, scores_length, hall]
  have hkept := mem_takeWhile_of_descending (f.ranked_ordered rt eligible query k)
    (p := fun s => decide (s ≠ ⊥)) sentinel_up hranked (decide_eq_true WithBot.coe_ne_bot)
  refine ⟨⟨v.id, p.1, v.metadata⟩, ?_, rfl⟩
  rw [searchWith_eq]
  refine List.mem_filterMap.mpr ⟨p, hkept, ?_⟩
  rw [toResult, hi]
  rfl

/-- The result that a search builds for an eligible slot. -/
def resultOf (v : VectorSlot) : SearchResult σ := ⟨v.id, rt.cosineSimilarity query v.data, v.metadata⟩

theorem scores_results :
    ((f.scores rt eligible query).filter fun p => decide (p.1 ≠ ⊥)).filterMap f.toResult =
      (f.vectors.filter eligible).map (resultOf rt query) := by
  have hslot : ∀ p ∈ f.vectors.zipIdx, f.vectors[p.2]? = some p.1 :=
    fun p hp => List.mk_mem_zipIdx_iff_getElem?.mp hp
  have hfirst : (f.vectors.filter eligible).map (resultOf rt query) =
      f.vectors.zipIdx.filterMap fun p =>
        if eligible p.1 then some (resultOf (σ := σ) rt query p.1) else none := by
    have hmap : f.vectors = f.vectors.zipIdx.map Prod.fst := (List.zipIdx_map_fst 0 f.vectors).symm
    conv_lhs => rw [hmap]
    rw [← List.filterMap_eq_filter, List.map_filterMap, List.filterMap_map]
    apply List.filterMap_congr
    intro p _
    by_cases he : eligible p.1 = true <;> simp [he, Option.guard]
  rw [hfirst, scores, List.filter_map, List.filterMap_map, List.filterMap_filter]
  apply List.filterMap_congr
  rintro ⟨v, i⟩ hp
  by_cases he : eligible v = true
  · have hv : f.vectors[i]? = some v := hslot _ hp
    simp [he, toResult, hv, resultOf]
  · simp [he]

/-- With room for every slot a search returns the eligible slots, in some order. -/
theorem searchWith_perm {k : Int} (hk : (f.vectors.length : Int) ≤ k) :
    (f.searchWith rt eligible query k).Perm ((f.vectors.filter eligible).map (resultOf rt query)) := by
  have hall : min k.toNat f.vectors.length = f.vectors.length := by omega
  have hperm := rt.partialSort_perm f.vectors.length (f.scores rt eligible query)
  have hranked : f.ranked rt eligible query k = rt.partialSort f.vectors.length (f.scores rt eligible query) := by
    rw [ranked, hall, List.take_of_length_le]
    rw [hperm.length_eq, scores_length]
  rw [searchWith_eq, takeWhile_eq_filter_of_descending (f.ranked_ordered rt eligible query k)
    (p := fun s => decide (s ≠ ⊥)) sentinel_up, hranked, ← scores_results]
  exact (hperm.filter _).filterMap _

/-- `results` are the `k` best eligible slots of `f`, the slots `slots` in this order. -/
structure IsTopK (k : Int) (slots : List Nat) (results : List (SearchResult σ)) : Prop where
  distinct : slots.Nodup
  slots_eligible : ∀ i ∈ slots, ∃ v, f.vectors[i]? = some v ∧ eligible v = true
  hits : results.map some = slots.map fun i => f.vectors[i]?.map (resultOf rt query)
  length : (results.length : Int) = min k (f.vectors.countP eligible)
  descending : results.Pairwise fun a b => b.score ≤ a.score
  best : ∀ i v, f.vectors[i]? = some v → eligible v = true → i ∉ slots →
    ∀ r ∈ results, (rt.cosineSimilarity query v.data : WithBot σ) ≤ r.score

theorem countP_scores :
    (f.scores rt eligible query).countP (fun p => decide (p.1 ≠ ⊥)) = f.vectors.countP eligible := by
  have hmap : f.vectors.countP eligible = f.vectors.zipIdx.countP (eligible ∘ Prod.fst) := by
    rw [← List.countP_map, List.zipIdx_map_fst]
  rw [hmap, scores, List.countP_map]
  apply List.countP_congr
  rintro ⟨v, i⟩ -
  by_cases he : eligible v = true <;> simp [he]

theorem scores_slots_nodup : ((f.scores rt eligible query).map Prod.snd).Nodup := by
  have hsnd : (f.scores rt eligible query).map Prod.snd = f.vectors.zipIdx.map Prod.snd := by
    rw [scores, List.map_map]
    rfl
  rw [hsnd, List.zipIdx_map_snd]
  exact List.nodup_range'

/-- The entries that the loop over the results gets to before the sentinel. -/
def collected (k : Int) : List (WithBot σ × Nat) :=
  (f.ranked rt eligible query k).filter fun p => decide (p.1 ≠ ⊥)

theorem searchWith_collected (k : Int) :
    f.searchWith rt eligible query k = (f.collected rt eligible query k).filterMap f.toResult := by
  rw [searchWith_eq, collected, takeWhile_eq_filter_of_descending (f.ranked_ordered rt eligible query k)
    (p := fun s => decide (s ≠ ⊥)) sentinel_up]

theorem collected_hit {k : Int} {p : WithBot σ × Nat} (hp : p ∈ f.collected rt eligible query k) :
    ∃ v, f.vectors[p.2]? = some v ∧ eligible v = true ∧
      p.1 = (rt.cosineSimilarity query v.data : WithBot σ) := by
  rw [collected, List.mem_filter] at hp
  exact f.score_eligible rt eligible query (f.ranked_mem rt eligible query hp.1) (of_decide_eq_true hp.2)

theorem map_some_filterMap {α β : Type} {g : α → Option β} {l : List α} (h : ∀ a ∈ l, (g a).isSome) :
    (l.filterMap g).map some = l.map g := by
  induction l with
  | nil => rfl
  | cons a l ih =>
    obtain ⟨b, hb⟩ := Option.isSome_iff_exists.mp (h a List.mem_cons_self)
    rw [List.filterMap_cons_some hb, List.map_cons, List.map_cons, hb,
      ih fun c hc => h c (List.mem_cons_of_mem a hc)]

theorem searchWith_map_some (k : Int) :
    (f.searchWith rt eligible query k).map some = (f.collected rt eligible query k).map f.toResult := by
  rw [searchWith_collected]
  apply map_some_filterMap
  intro p hp
  obtain ⟨v, hv, -⟩ := f.collected_hit rt eligible query hp
  rw [toResult, hv]
  rfl

theorem searchWith_map_score (k : Int) :
    (f.searchWith rt eligible query k).map SearchResult.score =
      (f.collected rt eligible query k).map Prod.fst := by
  have hmap := congrArg (List.map (Option.map SearchResult.score)) (f.searchWith_map_some rt eligible query k)
  rw [List.map_map, List.map_map] at hmap
  apply List.map_injective_iff.mpr (Option.some_injective _)
  rw [List.map_map, List.map_map]
  refine hmap.trans (List.map_congr_left fun p hp => ?_)
  obtain ⟨v, hv, -⟩ := f.collected_hit rt eligible query hp
  simp [toResult, hv]

theorem searchWith_isTopK {k : Int} (hk : 0 ≤ k) :
    ∃ slots, f.IsTopK rt eligible query k slots (f.searchWith rt eligible query k) := by
  let n := min k.toNat f.vectors.length
  let sorted := rt.partialSort n (f.scores rt eligible query)
  have hperm : sorted.Perm (f.scores rt eligible query) := rt.partialSort_perm _ _
  have htop : TopSorted n sorted := f.scores_topSorted rt eligible query n
  have hscores := f.searchWith_map_score rt eligible query k
  refine ⟨(f.collected rt eligible query k).map Prod.snd, ?_, ?_, ?_, ?_, ?_, ?_⟩
  · have hsub : (f.collected rt eligible query k).Sublist sorted :=
      List.filter_sublist.trans (List.take_sublist _ _)
    have hnodup : (sorted.map Prod.snd).Nodup :=
      (hperm.map Prod.snd).nodup_iff.mpr (f.scores_slots_nodup rt eligible query)
    exact (hsub.map Prod.snd).nodup hnodup
  · intro i hi
    obtain ⟨p, hp, rfl⟩ := List.mem_map.mp hi
    obtain ⟨v, hv, he, -⟩ := f.collected_hit rt eligible query hp
    exact ⟨v, hv, he⟩
  · rw [searchWith_map_some, List.map_map]
    apply List.map_congr_left
    intro p hp
    obtain ⟨v, hv, -, hs⟩ := f.collected_hit rt eligible query hp
    simp [toResult, hv, hs, resultOf]
  · have hlen : (f.searchWith rt eligible query k).length = (f.collected rt eligible query k).length := by
      simpa using congrArg List.length hscores
    have hcut : (f.collected rt eligible query k).length = min n (f.vectors.countP eligible) := by
      rw [← countP_scores rt f eligible query, ← hperm.countP_eq]
      exact htop.length_filter (p := fun s => decide (s ≠ ⊥)) sentinel_up
    have hcount : f.vectors.countP eligible ≤ f.vectors.length := List.countP_le_length
    omega
  · have hordered : ((f.collected rt eligible query k).map Prod.fst).Pairwise fun a b => b ≤ a :=
      List.pairwise_map.mpr ((f.ranked_ordered rt eligible query k).sublist List.filter_sublist)
    rw [← hscores] at hordered
    exact List.pairwise_map.mp hordered
  · intro i v hv he hnot r hr
    let p : WithBot σ × Nat := (rt.cosineSimilarity query v.data, i)
    have hp : p ∈ sorted :=
      hperm.mem_iff.mpr ((f.mem_scores rt eligible query).mpr ⟨v, hv, by rw [if_pos he]⟩)
    -- an entry among the first `n` with this score would have been collected
    have hdrop : p ∈ sorted.drop n := by
      rw [← List.take_append_drop n sorted, List.mem_append] at hp
      refine hp.resolve_left fun htake => hnot (List.mem_map.mpr ⟨p, ?_, rfl⟩)
      exact List.mem_filter.mpr ⟨htake, decide_eq_true WithBot.coe_ne_bot⟩
    obtain ⟨c, hc, hcr⟩ := List.mem_map.mp (hscores ▸ List.mem_map_of_mem hr)
    rw [← hcr]
    exact htop.top c (List.mem_of_mem_filter hc) p hdrop

/-- The brute-force search is an exact top-k search, and the plain one filters nothing. -/
theorem search_exact {k : Int} (hk : 0 ≤ k) (filter : Bytes → Bool) :
    (∃ slots, f.IsTopK rt (fun v => !v.deleted && filter v.metadata) query k slots
      (f.searchFiltered rt query k filter)) ∧
      f.search rt query k = f.searchFiltered rt query k fun _ => true := by
  refine ⟨f.searchWith_isTopK rt _ query hk, ?_⟩
  simp only [search, searchFiltered, Bool.and_true]

/-- Two slots of one id with equal vectors, one of them with metadata, and a deleted slot. -/
def tiedIndex : FlatIndex :=
  ⟨1, [⟨1, [], [5], false⟩, ⟨2, [], [9], true⟩, ⟨1, [7], [5], false⟩, ⟨3, [], [2], false⟩]⟩

theorem search_exact_tied :
    ∃ slots, IsTopK .sample tiedIndex (fun v => !v.deleted && decide (v.metadata = [])) [1] 3 slots
      (tiedIndex.searchFiltered .sample [1] 3 fun m => decide (m = [])) :=
  (search_exact .sample tiedIndex [1] (by decide) fun m => decide (m = [])).1

/-- The entries of the slots that are eligible. -/
def eligibleScores : List (WithBot σ × Nat) := (f.scores rt eligible query).filter fun p => decide (p.1 ≠ ⊥)

theorem eligibleScores_map_fst :
    (f.eligibleScores rt eligible query).map Prod.fst =
      (f.vectors.filter eligible).map fun v => (rt.cosineSimilarity query v.data : WithBot σ) := by
  have hkept : ∀ p ∈ f.vectors.zipIdx,
      (decide ((if eligible p.1 then (rt.cosineSimilarity query p.1.data : WithBot σ) else ⊥) ≠ ⊥)) = eligible p.1 := by
    rintro ⟨v, i⟩ -
    by_cases he : eligible v = true <;> simp [he]
  have hslots : f.vectors.filter eligible = (f.vectors.zipIdx.filter fun p => eligible p.1).map Prod.fst := by
    have hmap := List.filter_map (p := eligible) (f := Prod.fst) (l := f.vectors.zipIdx)
    rwa [List.zipIdx_map_fst] at hmap
  rw [eligibleScores, scores, List.filter_map, List.map_map, hslots, List.map_map]
  refine (List.map_congr_left fun p hp => ?_).trans (congrArg (List.map _) (List.filter_congr hkept))
  obtain ⟨hp, hne⟩ := List.mem_filter.mp hp
  have helig : eligible p.1 = true := (hkept p hp).symm.trans hne
  exact if_pos helig

variable {f eligible query} {l : List (WithBot σ × Nat)}

end FlatIndex

end NeuralDb
