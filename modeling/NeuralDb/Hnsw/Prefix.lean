import NeuralDb.Hnsw.Starvation

/-! Two searches that differ in `k` only. The collecting loop compares with `k` after an append, so a
search for no hits never meets the comparison. -/

namespace NeuralDb

open Library

namespace HNSWIndex

section Collect

variable {σ : Type}

/-- Once there are `k` hits or more, the collecting loop takes every live candidate. -/
theorem collect_all (s : HNSWIndex) {k : Int} (cs : List (σ × Nat)) {out : List (σ × UInt64)}
    (hout : k ≤ out.length) :
    s.collect k cs out = out ++ (cs.filter fun c => s.isLive c.2).map s.external := by
  induction cs generalizing out with
  | nil => simp [collect]
  | cons c cs ih =>
    rw [collect]
    by_cases hc : s.isTombstoned c.2 = true
    · have hdead : s.isLive c.2 = false := by rw [isLive, hc]; rfl
      rw [if_pos hc, ih hout, List.filter_cons_of_neg (by rw [hdead]; exact Bool.false_ne_true)]
    · have hlive : s.isLive c.2 = true := by simpa [isLive] using hc
      have hlen : (out ++ [(c.1, s.idMap.getD c.2 0)]).length = out.length + 1 := by simp
      rw [if_neg hc, List.filter_cons_of_pos (p := fun c : σ × Nat => s.isLive c.2) hlive]
      dsimp only
      rw [if_neg (by omega), ih (by omega), List.append_assoc]
      rfl

end Collect

variable {σ : Type} [LinearOrder σ] (rt : Runtime σ)

/-- What the search of layer 0 leaves for the collecting loop. -/
def foundCandidates (s : HNSWIndex) (query : Vec) : List (σ × Nat) :=
  if s.numVectors = 0 then []
  else
    match s.searchStart rt query with
    | none => []
    | some e => searchLayerPure rt s.rawAccess query s e s.cfg.efSearch 0

def liveCandidates (s : HNSWIndex) (query : Vec) : List (σ × Nat) :=
  (s.foundCandidates rt query).filter fun c => s.isLive c.2

/-- The search of layer 0 finds deleted slots only, or is never made. -/
def NothingLive (s : HNSWIndex) (query : Vec) : Prop := ∀ c ∈ s.foundCandidates rt query, s.isTombstoned c.2 = true

variable {rt} {s : HNSWIndex} {query : Vec}

theorem searchRaw_collect (s : HNSWIndex) (query : Vec) (k : Int) :
    searchRaw rt s query k = s.collect k (s.foundCandidates rt query) [] := by
  unfold searchRaw search foundCandidates searchStart
  split_ifs with h0
  · rfl
  · cases s.liveEntry with
    | none => rfl
    | some ep => rfl

theorem searchRaw_take {k : Int} (hk : 1 ≤ k) :
    searchRaw rt s query k = ((s.liveCandidates rt query).take k.toNat).map s.external := by
  obtain ⟨n, rfl⟩ := Int.eq_ofNat_of_zero_le (show 0 ≤ k by omega)
  have hroom : ([] : List (σ × UInt64)).length < n := by
    rw [List.length_nil]
    omega
  rw [searchRaw_collect, collect_eq s _ hroom]
  rfl

theorem searchRaw_all {k : Int} (hk : k ≤ 0) :
    searchRaw rt s query k = (s.liveCandidates rt query).map s.external := by
  rw [searchRaw_collect]
  exact collect_all s _ hk

theorem nothingLive_iff : s.NothingLive rt query ↔ s.liveCandidates rt query = [] := by
  rw [liveCandidates, List.filter_eq_nil_iff]
  simp only [isLive, Bool.not_eq_true', Bool.not_eq_false]
  rfl

/-- What is found live can be reached from where the descent ends, and has its own score. -/
theorem Inv.mem_liveCandidates (h : s.Inv) {c : σ × Nat} (hc : c ∈ s.liveCandidates rt query) :
    ∃ e, 0 < s.size ∧ s.searchStart rt query = some e ∧ c.2 ∈ s.liveReached e ∧ c.1 = s.simRaw rt query c.2 := by
  obtain ⟨hfound, hlive⟩ := List.mem_filter.mp hc
  unfold foundCandidates at hfound
  split_ifs at hfound with h0
  · exact absurd hfound List.not_mem_nil
  · have hpos := Nat.pos_of_ne_zero h0
    split at hfound
    · exact absurd hfound List.not_mem_nil
    · next e he =>
      obtain ⟨b, hb⟩ := h.searchEnd rt hpos he s.cfg.efSearch
      have hresult := (hb.mem_out rt).mp hfound
      exact ⟨e, hpos, he, ⟨hb.inv.result_in hresult, hlive⟩, hb.inv.results_scored c hresult⟩

/-- A beam with room for the index finds all that can be reached. -/
theorem Inv.liveCandidates_room (h : s.Inv) (hroom : (s.size : Int) ≤ s.cfg.efSearch) {e : Nat} (hpos : 0 < s.size)
    (he : s.searchStart rt query = some e) {x : Nat} (hx : x ∈ s.liveReached e) :
    (s.simRaw rt query x, x) ∈ s.liveCandidates rt query := by
  obtain ⟨-, -, hmem⟩ := h.candidates_room rt hpos he hroom
  have hfound : s.foundCandidates rt query = searchLayerPure rt s.rawAccess query s e s.cfg.efSearch 0 := by
    have hne : s.numVectors ≠ 0 := hpos.ne'
    rw [foundCandidates, if_neg hne, he]
  exact List.mem_filter.mpr ⟨hfound ▸ (hmem _).mpr ⟨hx.1, rfl⟩, hx.2⟩

/-- In a beam with room for the index nothing live is found when nothing live can be reached. -/
theorem Inv.nothingLive_iff (h : s.Inv) (hroom : (s.size : Int) ≤ s.cfg.efSearch) :
    s.NothingLive rt query ↔ ∀ e, 0 < s.size → s.searchStart rt query = some e → s.liveReached e = ∅ := by
  rw [HNSWIndex.nothingLive_iff, List.eq_nil_iff_forall_not_mem]
  constructor
  · intro hnone e hpos he
    rw [Set.eq_empty_iff_forall_notMem]
    exact fun x hx => hnone _ (h.liveCandidates_room hroom hpos he hx)
  · intro hempty c hc
    obtain ⟨e, hpos, he, hreached, -⟩ := h.mem_liveCandidates hc
    exact Set.eq_empty_iff_forall_notMem.mp (hempty e hpos he) c.2 hreached

/-- In every state the hits for `k` are the first of the hits for a larger `k'`, and at most `k`, exactly
when `k` is positive or nothing live is found. -/
theorem search_prefix_iff (s : HNSWIndex) (query : Vec) {k k' : Int} (hk : 0 ≤ k) (hkk : k ≤ k') :
    let hits := searchRaw rt s query
    (hits k = (hits k').take (min k (hits k').length).toNat ↔ 1 ≤ k ∨ s.NothingLive rt query) ∧
      (((hits k).length : Int) ≤ k ↔ 1 ≤ k ∨ s.NothingLive rt query) ∧
      (s.Inv → (s.size : Int) ≤ s.cfg.efSearch → (s.NothingLive rt query ↔
        ∀ e, 0 < s.size → s.searchStart rt query = some e → s.liveReached e = ∅)) := by
  intro hits
  refine ⟨?_, ?_, fun h hroom => h.nothingLive_iff hroom⟩
  all_goals rcases hk.eq_or_lt with rfl | hpos
  · -- the prefix is empty, and the hits are all the live candidates
    have hnil : (hits k').take (min 0 (hits k').length : Int).toNat = [] := by
      rw [List.take_eq_nil_iff]
      left
      omega
    have hall : hits 0 = (s.liveCandidates rt query).map s.external := searchRaw_all le_rfl
    rw [hnil, hall, List.map_eq_nil_iff, ← nothingLive_iff, or_iff_right (by decide)]
  · refine iff_of_true ?_ (.inl hpos)
    have hshort : hits k = ((s.liveCandidates rt query).take k.toNat).map s.external := searchRaw_take hpos
    have hlong : hits k' = ((s.liveCandidates rt query).take k'.toNat).map s.external :=
      searchRaw_take (hpos.trans_le hkk)
    rw [hlong, List.length_map, hshort, ← List.map_take, List.take_take, List.length_take]
    congr 1
    rw [List.take_eq_take_iff]
    omega
  · have hall : hits 0 = (s.liveCandidates rt query).map s.external := searchRaw_all le_rfl
    rw [hall, List.length_map, nothingLive_iff, or_iff_right (by decide), ← List.length_eq_zero_iff]
    omega
  · refine iff_of_true ?_ (.inl hpos)
    have hshort : hits k = ((s.liveCandidates rt query).take k.toNat).map s.external := searchRaw_take hpos
    rw [hshort, List.length_map, List.length_take]
    omega

/-- Two vectors, of which the second is the nearer. -/
def nearAndFar : List (Op 1) := [.insert 7 ⟨[13], rfl⟩ [] 0, .insert 8 ⟨[17], rfl⟩ [] 0]

theorem search_prefix_two :
    let s := run .sample {} nearAndFar
    searchRaw .sample s [2] 1 = [(34, 8)] ∧
      searchRaw .sample s [2] 1 = (searchRaw .sample s [2] 2).take (min 1 (searchRaw .sample s [2] 2).length : Int).toNat := by
  intro s
  have h := (@search_prefix_iff Nat _ .sample s [2] 1 2 (by decide) (by decide)).1
  exact ⟨by decide, h.mpr (.inl le_rfl)⟩

/-- A search for no hits returns both vectors. -/
theorem search_prefix_none :
    let s := run .sample {} nearAndFar
    searchRaw .sample s [2] 0 = [(34, 8), (26, 7)] ∧
      searchRaw .sample s [2] 0 ≠
        (searchRaw .sample s [2] 2).take (min 0 (searchRaw .sample s [2] 2).length : Int).toNat := by
  decide

end HNSWIndex

end NeuralDb
