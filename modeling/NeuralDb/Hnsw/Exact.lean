import NeuralDb.Hnsw.NodeIds
import NeuralDb.Hnsw.Prefix

/-! The same history in both indexes. A search whose beam has room for a connected index ranks the live slots as
the flat search does, also after deletes. -/

namespace NeuralDb

open Library

namespace HNSWIndex

variable {σ : Type} [LinearOrder σ] (rt : Runtime σ)

section Agreement

variable {s : HNSWIndex} {query : Vec}

/-- Candidates that are the eligible slots, each once, have the scores that the flat search sorts. -/
theorem candidates_eligible {f : FlatIndex} {eligible : VectorSlot → Bool} {cands : List (σ × Nat)}
    (hslots : s.slots = f.vectors) (hnodup : (cands.map Prod.snd).Nodup)
    (hmem : ∀ c, c ∈ cands ↔ c.2 < s.numVectors ∧ eligible (s.slot c.2) = true ∧ c.1 = s.simRaw rt query c.2) :
    (cands.map fun c => ((c.1 : WithBot σ), c.2)).Perm (f.eligibleScores rt eligible query) := by
  have hleft : (cands.map fun c => ((c.1 : WithBot σ), c.2)).Nodup := by
    refine List.Nodup.of_map Prod.snd ?_
    rwa [List.map_map]
  have hright : (f.eligibleScores rt eligible query).Nodup :=
    (List.Nodup.of_map Prod.snd (f.scores_slots_nodup rt eligible query)).filter _
  refine (List.perm_ext_iff_of_nodup hleft hright).mpr fun p => ?_
  constructor
  · intro hp
    obtain ⟨c, hc, rfl⟩ := List.mem_map.mp hp
    obtain ⟨hlt, helig, hscore⟩ := (hmem c).mp hc
    have hv : f.vectors[c.2]? = some (s.slot c.2) := hslots ▸ slots_getElem? s hlt
    refine List.mem_filter.mpr ⟨(f.mem_scores rt _ query).mpr ⟨_, hv, ?_⟩, decide_eq_true WithBot.coe_ne_bot⟩
    rw [if_pos helig, hscore]
    rfl
  · intro hp
    obtain ⟨hp, hne⟩ := List.mem_filter.mp hp
    obtain ⟨v, hv, helig, hscore⟩ := f.score_eligible rt eligible query hp (of_decide_eq_true hne)
    have hlt : p.2 < s.numVectors := by
      rw [← slots_length, hslots]
      exact (List.getElem?_eq_some_iff.mp hv).1
    obtain rfl : v = s.slot p.2 := Option.some_injective _ (hv.symm.trans (hslots ▸ slots_getElem? s hlt))
    exact List.mem_map.mpr ⟨(s.simRaw rt query p.2, p.2), (hmem _).mpr ⟨hlt, helig, rfl⟩, Prod.ext hscore.symm rfl⟩

/-- No two live slots are equally similar to the query. -/
def LiveDistinct (f : FlatIndex) (query : Vec) : Prop :=
  ((liveSlots f.vectors).map fun v => rt.cosineSimilarity query v.data).Nodup

instance (f : FlatIndex) (query : Vec) : Decidable (LiveDistinct rt f query) :=
  inferInstanceAs (Decidable (List.Nodup _))

/-- In a beam with room for a connected index the live candidates are the live slots, best first. -/
structure FindsLive (s : HNSWIndex) (f : FlatIndex) (query : Vec) : Prop where
  slots_eq : s.slots = f.vectors
  desc : (s.liveCandidates rt query).Pairwise fun a b => b.1 ≤ a.1
  nodup : ((s.liveCandidates rt query).map Prod.snd).Nodup
  mem_iff (c : σ × Nat) :
    c ∈ s.liveCandidates rt query ↔ c.2 < s.numVectors ∧ s.isLive c.2 = true ∧ c.1 = s.simRaw rt query c.2

variable {rt} {f : FlatIndex}

theorem FindsLive.perm (h : FindsLive rt s f query) :
    ((s.liveCandidates rt query).map fun c => ((c.1 : WithBot σ), c.2)).Perm
      (f.eligibleScores rt (fun v => !v.deleted) query) :=
  candidates_eligible rt h.slots_eq h.nodup h.mem_iff

theorem FindsLive.distinct (h : FindsLive rt s f query) (hdistinct : LiveDistinct rt f query) :
    ((s.liveCandidates rt query).map Prod.fst).Nodup := by
  have hscores := (h.perm.map Prod.fst).trans (List.Perm.of_eq (f.eligibleScores_map_fst rt _ query))
  have hnodup : (((s.liveCandidates rt query).map fun c => ((c.1 : WithBot σ), c.2)).map Prod.fst).Nodup := by
    refine hscores.nodup_iff.mpr ?_
    have := hdistinct.map (WithBot.coe_injective (α := σ))
    rwa [List.map_map] at this
  refine List.Nodup.of_map (fun v : σ => (v : WithBot σ)) ?_
  rwa [List.map_map] at hnodup ⊢

end Agreement

section Runs

variable {dim : Nat} {cfg : HNSWConfig} {ops : List (Op dim)}

end Runs

end HNSWIndex

end NeuralDb
