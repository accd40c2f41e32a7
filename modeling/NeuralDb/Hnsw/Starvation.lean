import NeuralDb.Hnsw.Exhaustive

/-! How many hits a search returns. Deleted slots take room in the beam, and live slots that the links
do not lead to are never seen, so the count depends on both. -/

namespace NeuralDb

open Library

namespace HNSWIndex

section Count

variable {s : HNSWIndex}

def isLive (s : HNSWIndex) (i : Nat) : Bool := !s.isTombstoned i

/-- The live slots that can be reached from `e` on the bottom layer. -/
def liveReached (s : HNSWIndex) (e : Nat) : Set Nat := {x | s.Reaches 0 e x ∧ s.isLive x = true}

theorem ncard_filter {l : List Nat} (hnodup : l.Nodup) (p : Nat → Bool) :
    {x | x ∈ l ∧ p x = true}.ncard = l.countP p := by
  have hset : {x | x ∈ l ∧ p x = true} = ((l.filter p).toFinset : Set Nat) := by
    ext x
    simp
  rw [hset, Set.ncard_coe_finset, List.toFinset_card_of_nodup (hnodup.filter p), List.countP_eq_length_filter]

theorem Aligned.liveSize_eq_countP (h : s.Aligned) : s.liveSize = (List.range s.numVectors).countP s.isLive :=
  h.liveSize_eq

/-- Distinct slots hold at most as many deleted ones as the index does. -/
theorem Aligned.deleted_le (h : s.Aligned) {l : List Nat} (hnodup : l.Nodup) (hlt : ∀ x ∈ l, x < s.numVectors) :
    l.length + s.liveSize ≤ l.countP s.isLive + s.numVectors := by
  have hsub : l.Subperm (List.range s.numVectors) :=
    List.subperm_of_subset hnodup fun x hx => List.mem_range.mpr (hlt x hx)
  have hdel := hsub.countP_le fun x => decide ¬ s.isLive x = true
  have hl := List.length_eq_countP_add_countP s.isLive (l := l)
  have hrange := List.length_eq_countP_add_countP s.isLive (l := List.range s.numVectors)
  rw [List.length_range, ← h.liveSize_eq_countP] at hrange
  omega

end Count

section Search

variable {σ : Type} [LinearOrder σ] (rt : Runtime σ) {s : HNSWIndex} {query : Vec} {e : Nat}

theorem searchStart_none (hs : s.Aligned) (h : s.searchStart rt query = none) : s.liveSize = 0 := by
  have hentry : s.liveEntry = none := Option.map_eq_none_iff.mp h
  unfold liveEntry at hentry
  split_ifs at hentry
  rw [hs.liveSize_eq_countP, List.countP_eq_zero]
  intro x hx
  exact List.find?_eq_none.mp hentry x hx

/-- The candidates of a search from `e` and the hits it keeps of them. -/
structure Candidates (rt : Runtime σ) (s : HNSWIndex) (query : Vec) (e : Nat) (k : Int) (cands : List Nat) :
    Prop where
  nodup : cands.Nodup
  reached : ∀ x ∈ cands, s.Reaches 0 e x
  full_or_all : (cands.length : Int) = s.cfg.efSearch ∨ ∀ y, s.Reaches 0 e y → y ∈ cands
  all_of_room : (s.numVectors : Int) ≤ s.cfg.efSearch → ∀ y, s.Reaches 0 e y → y ∈ cands
  hits : ((searchRaw rt s query k).length : Int) = min k (cands.countP s.isLive : Int)

theorem Inv.candidates (h : s.Inv) (hpos : 0 < s.numVectors) (he : s.searchStart rt query = some e) {k : Int}
    (hk : 1 ≤ k) (hef : 1 ≤ s.cfg.efSearch) : ∃ cands, Candidates rt s query e k cands := by
  have hlt := h.searchStart_lt rt hpos he
  obtain ⟨b, hb⟩ := h.searchEnd rt hpos he s.cfg.efSearch
  let out := searchLayerPure rt s.rawAccess query s e s.cfg.efSearch 0
  refine ⟨out.map Prod.snd, hb.nodup rt, ?_, ?_, ?_, ?_⟩
  · intro x hx
    obtain ⟨c, hc, rfl⟩ := List.mem_map.mp hx
    exact hb.inv.result_in ((hb.mem_out rt).mp hc)
  · rw [List.length_map, hb.length_out rt]
    exact (hb.full_or_all rt hef).imp_right fun hall y hy => (hb.mem_ids rt).mpr (hall y hy)
  · intro hroom y hy
    have hcard := h.reached_ncard hlt
    refine (hb.mem_ids rt).mpr (hb.all_of_room rt ?_ (h.graph_length ▸ hlt) hef (by omega) y hy)
    exact fun _ _ hy => h.lt_length hy
  · have hlive : (out.map Prod.snd).countP s.isLive = (out.filter fun c => !s.isTombstoned c.2).length := by
      rw [List.countP_map, List.countP_eq_length_filter]
      rfl
    have heq : searchRaw rt s query k =
        ((out.filter fun c => !s.isTombstoned c.2).take k.toNat).map s.external := searchRaw_eq rt hpos he hk
    rw [heq, hlive, List.length_map, List.length_take]
    omega

/-- The candidates are in descending order, and the hits are the first live ones of them. -/
theorem Inv.candidates_searched (h : s.Inv) (hpos : 0 < s.numVectors) (he : s.searchStart rt query = some e) {k : Int}
    (hk : 1 ≤ k) (hef : 1 ≤ s.cfg.efSearch) :
    let cands := searchLayerPure rt s.rawAccess query s e s.cfg.efSearch 0
    (cands.Pairwise fun a b => b.1 ≤ a.1) ∧ (cands.map Prod.snd).Nodup ∧
      (∀ c ∈ cands, s.Reaches 0 e c.2 ∧ c.1 = s.simRaw rt query c.2) ∧
      ((cands.length : Int) = s.cfg.efSearch ∨ ∀ y, s.Reaches 0 e y → y ∈ cands.map Prod.snd) ∧
      searchRaw rt s query k = ((cands.filter fun c => s.isLive c.2).take k.toNat).map s.external := by
  intro cands
  obtain ⟨b, hb⟩ := h.searchEnd rt hpos he s.cfg.efSearch
  refine ⟨hb.ordered rt, hb.nodup rt, fun c hc => ?_, ?_, searchRaw_eq rt hpos he hk⟩
  · have hresult := (hb.mem_out rt).mp hc
    exact ⟨hb.inv.result_in hresult, hb.inv.results_scored c hresult⟩
  · rw [hb.length_out rt]
    exact (hb.full_or_all rt hef).imp_right fun hall y hy => (hb.mem_ids rt).mpr (hall y hy)

theorem Candidates.lt (h : s.Inv) (he : e < s.numVectors) {k : Int} {cands : List Nat}
    (hc : Candidates rt s query e k cands) : ∀ x ∈ cands, x < s.numVectors :=
  fun x hx => h.reached_lt he (hc.reached x hx)

/-- With all reached nodes among the candidates the hits are bounded by `k` alone. -/
theorem Candidates.hits_all {k : Int} {cands : List Nat} (hc : Candidates rt s query e k cands)
    (hall : ∀ y, s.Reaches 0 e y → y ∈ cands) :
    ((searchRaw rt s query k).length : Int) = min k ((s.liveReached e).ncard : Int) := by
  have hset : s.liveReached e = {x | x ∈ cands ∧ s.isLive x = true} := by
    ext x
    exact and_congr_left fun _ => ⟨hall x, hc.reached x⟩
  rw [hc.hits, hset, ncard_filter hc.nodup]

/-- With room in the beam for `k` slots besides the deleted ones, or for the whole index, no reached
live slot is lost for want of room. -/
theorem Inv.hits_of_room (h : s.Inv) (hpos : 0 < s.numVectors) (he : s.searchStart rt query = some e) {k : Int}
    (hk : 1 ≤ k) (hef : 1 ≤ s.cfg.efSearch)
    (hroom : k + (s.numVectors - s.liveSize) ≤ s.cfg.efSearch ∨ (s.numVectors : Int) ≤ s.cfg.efSearch) :
    ((searchRaw rt s query k).length : Int) = min k ((s.liveReached e).ncard : Int) := by
  have hlt := h.searchStart_lt rt hpos he
  obtain ⟨cands, hc⟩ := h.candidates rt hpos he hk hef
  rcases hroom with hroom | hroom
  · rcases hc.full_or_all with hfull | hall
    · -- a full beam holds at least `k` live candidates, and these are reached
      have hdel := h.toAligned.deleted_le hc.nodup (hc.lt rt h hlt)
      have hsub : {x | x ∈ cands ∧ s.isLive x = true} ⊆ s.liveReached e :=
        fun x hx => ⟨hc.reached x hx.1, hx.2⟩
      have hfinite : (s.liveReached e).Finite :=
        (Set.finite_lt_nat s.numVectors).subset fun x hx => h.reached_lt hlt hx.1
      have hle := Set.ncard_le_ncard hsub hfinite
      rw [ncard_filter hc.nodup] at hle
      rw [hc.hits]
      omega
    · exact hc.hits_all rt hall
  · exact hc.hits_all rt (hc.all_of_room hroom)

theorem Connected.liveReached_ncard (h : s.Inv) (hconn : s.Connected) (he : e < s.numVectors) :
    (s.liveReached e).ncard = s.liveSize := by
  have hset : s.liveReached e = {x | x ∈ List.range s.numVectors ∧ s.isLive x = true} := by
    ext x
    refine and_congr_left fun _ => ⟨fun hx => ?_, fun hx => hconn e he x (List.mem_range.mp hx)⟩
    exact List.mem_range.mpr (h.reached_lt he hx)
  rw [hset, ncard_filter List.nodup_range, h.liveSize_eq_countP]

end Search

section Runs

variable {σ : Type} [LinearOrder σ] (rt : Runtime σ) {dim : Nat}

/-- After any history of fewer than 2 ^ 31 inserts a search returns the first `k` live ones of its candidates, in
their order, and these are `ef_search` many or all that can be reached from its start. With room in the beam for
the deleted slots no live slot that can be reached is missed, and all can be as long as no link of the bottom
layer was dropped. -/
theorem search_fills (cfg : HNSWConfig) (hM : 2 ≤ cfg.M) (ops : List (Op dim))
    (hfew : ops.countP Op.isInsert < 2 ^ 31) (query : Vec) {ef k : Int} (hk : 1 ≤ k) (hkef : k ≤ ef) :
    let s := (run32 rt cfg ops).setEfSearch ef
    let hits := searchRaw rt s query k
    (hits.length ≤ min k s.liveSize ∧ (s.searchStart rt query = none → s.liveSize = 0)) ∧
    (∀ e, 0 < s.size → s.searchStart rt query = some e →
      let cands := searchLayerPure rt s.rawAccess query s e ef 0
      (cands.Pairwise fun a b => b.1 ≤ a.1) ∧ (cands.map Prod.snd).Nodup ∧
        (∀ c ∈ cands, s.Reaches 0 e c.2 ∧ c.1 = s.simRaw rt query c.2) ∧
        ((cands.length : Int) = ef ∨ ∀ y, s.Reaches 0 e y → y ∈ cands.map Prod.snd) ∧
        hits = ((cands.filter fun c => s.isLive c.2).take k.toNat).map s.external) ∧
    (k + (s.size - s.liveSize) ≤ ef ∨ (s.size : Int) ≤ ef →
      (∀ e, 0 < s.size → s.searchStart rt query = some e → (hits.length : Int) = min k (s.liveReached e).ncard) ∧
      (Unpruned rt cfg ops → (hits.length : Int) = min k s.liveSize)) ∧
    ((s.size : Int) ≤ 2 * cfg.M + 1 → Unpruned rt cfg ops) := by
  rw [run32_eq rt cfg (by omega)]
  intro s hits
  have hs : s.Inv := (inv_run rt cfg ops).setEfSearch ef
  have hef : 1 ≤ s.cfg.efSearch := hk.trans hkef
  have hupper : (hits.length : Int) ≤ min k s.liveSize := by
    obtain ⟨found, heq, hfound⟩ := hs.searchRaw_hits rt query hk
    have hlive := hfound.length_live rt hs.toAligned
    have hlen := hfound.length_k
    simp only [hits, heq, List.length_map]
    omega
  refine ⟨⟨hupper, searchStart_none rt hs.toAligned⟩, fun e hpos he => hs.candidates_searched rt hpos he hk hef,
    fun hroom => ⟨fun e hpos he => ?_, ?_⟩, fun hsmall => unpruned_small hsmall⟩
  · exact hs.hits_of_room rt hpos he hk hef hroom
  · intro hkeep
    have hconn : s.Connected := hkeep.connected (by omega)
    rcases Nat.eq_zero_or_pos s.numVectors with h0 | hpos
    · have hzero : s.liveSize = 0 := by
        rw [hs.liveSize_eq_countP, h0]
        rfl
      omega
    · cases he : s.searchStart rt query with
      | none =>
        have hzero := searchStart_none rt hs.toAligned he
        omega
      | some e =>
        have hlt := hs.searchStart_lt rt hpos he
        rw [← hconn.liveReached_ncard hs hlt]
        exact hs.hits_of_room rt hpos he hk hef hroom

/-- The vectors (1, 0) and (0, 1), the second one deleted. -/
def shadowed : List (Op 2) :=
  [.insert 7 ⟨[0x3F800000, 0], rfl⟩ [] 0, .insert 8 ⟨[0, 0x3F800000], rfl⟩ [] 0, .delete 8]

theorem search_fills_shadowed :
    let s := (run32 .cosine slender shadowed).setEfSearch 2
    ((searchRaw .cosine s [0, 0x3F800000] 1).length : Int) = min (1 : Int) s.liveSize := by
  have hsize : ((run32 .cosine slender shadowed).size : Int) ≤ 2 := by decide +kernel
  obtain ⟨-, -, hexact, hsmall⟩ := search_fills .cosine slender (by decide) shadowed (by decide) [0, 0x3F800000]
    (show (1 : Int) ≤ 1 by decide) (show (1 : Int) ≤ 2 by decide)
  exact (hexact (.inr hsize)).2 (hsmall (hsize.trans (by decide)))

/-- The deleted vector takes the one place of the beam, and the live one is not returned. -/
theorem search_starves :
    let s := (run32 .cosine slender shadowed).setEfSearch 1
    2 ≤ s.cfg.M ∧ s.liveSize = 1 ∧
      ((searchRaw .cosine s [0, 0x3F800000] 1).length : Int) ≠ min (1 : Int) s.liveSize := by
  decide +kernel

end Runs

end HNSWIndex

end NeuralDb
