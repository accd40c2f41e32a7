import NeuralDb.Hnsw.Deletion
import NeuralDb.Hnsw.Prefix

/-! What a delete does not touch. The graph, the entry point and the vectors come from the inserts alone, so a delete
may be made earlier or later as long as it stays where it is among the calls with its id. -/

namespace NeuralDb

open Library

namespace HNSWIndex

def withTombstone (s : HNSWIndex) (t : List Bool) : HNSWIndex := { s with tombstone := t }

section Insert

variable {σ : Type} [LinearOrder σ] (rt : Runtime σ) (t : List Bool)

theorem descend_withTombstone (s : HNSWIndex) (query : Vec) (floor n ep : Nat) :
    descend (m := Id) rt (s.withTombstone t).rawAccess (s.withTombstone t) query floor n ep =
      descend (m := Id) rt s.rawAccess s query floor n ep := by
  induction n generalizing ep with
  | zero => rfl
  | succ n ih => exact ih _

theorem scoreLinks_withTombstone (s : HNSWIndex) (nbVec : Nat) (xs : List Nat) :
    scoreLinks (m := Id) rt (s.withTombstone t).rawAccess nbVec xs = scoreLinks (m := Id) rt s.rawAccess nbVec xs := by
  induction xs with
  | nil => rfl
  | cons x xs ih => exact congrArg (List.cons _) ih

theorem backLink_withTombstone (s : HNSWIndex) (lc q nb : Nat) :
    backLink (m := Id) rt (s.withTombstone t).rawAccess (s.withTombstone t) lc q nb =
      withTombstone (backLink (m := Id) rt s.rawAccess s lc q nb) t := by
  have hscores := scoreLinks_withTombstone rt t s nb ((s.pushLink lc nb q).links lc nb)
  simp only [backLink]
  split_ifs with hlong hlong' hlong'
  · exact congrArg (fun cands : List (σ × Nat) =>
      ((s.pushLink lc nb q).withTombstone t).setLinks lc nb (selectNeighbours rt cands ((s.pushLink lc nb q).maxLinks lc)))
      hscores
  · exact absurd hlong hlong'
  · exact absurd hlong' hlong
  · rfl

theorem backLinks_withTombstone (lc q : Nat) (nbs : List Nat) (s : HNSWIndex) :
    backLinks (m := Id) rt rawAccess lc q nbs (s.withTombstone t) =
      withTombstone (backLinks (m := Id) rt rawAccess lc q nbs s) t := by
  induction nbs generalizing s with
  | nil => rfl
  | cons nb nbs ih =>
    change backLinks (m := Id) rt rawAccess lc q nbs (backLink (m := Id) rt (s.withTombstone t).rawAccess _ lc q nb) = _
    rw [backLink_withTombstone, ih]
    rfl

theorem linkLayers_withTombstone (q : Nat) (vec : Vec) (n ep : Nat) (s : HNSWIndex) :
    linkLayers (m := Id) rt rawAccess q vec n ep (s.withTombstone t) =
      withTombstone (linkLayers (m := Id) rt rawAccess q vec n ep s) t := by
  induction n generalizing s ep with
  | zero => rfl
  | succ lc ih =>
    let cands : List (σ × Nat) :=
      searchLayer (m := Id) rt s.rawAccess s vec ep (max s.cfg.efConstruction s.cfg.M) lc
    let neighbours := selectNeighbours rt cands s.cfg.M
    have hback := backLinks_withTombstone rt t lc q neighbours (s.setLinks lc q neighbours)
    exact (congrArg (linkLayers (m := Id) rt rawAccess q vec lc (front cands ep)) hback).trans (ih _ _)

theorem insertRaw_withTombstone (s : HNSWIndex) (id : UInt64) (vec : Vec) (metadata : Bytes) (level : Nat) :
    (s.withTombstone t).insertRaw rt id vec metadata level =
      (s.insertRaw rt id vec metadata level).withTombstone (t ++ [false]) := by
  by_cases hq : s.numVectors = 0
  · rw [insertRaw_first rt hq, insertRaw_first rt (show (s.withTombstone t).numVectors = 0 from hq)]
    rfl
  · rw [insertRaw_linked rt hq, insertRaw_linked rt (show (s.withTombstone t).numVectors ≠ 0 from hq)]
    have happend : (s.withTombstone t).append id vec metadata level =
        (s.append id vec metadata level).withTombstone (t ++ [false]) := rfl
    have hraise : ∀ u : HNSWIndex, (u.withTombstone (t ++ [false])).raise s.numVectors level =
        (u.raise s.numVectors level).withTombstone (t ++ [false]) := by
      intro u
      unfold raise
      split_ifs with hlt hlt' hlt'
      · rfl
      · exact absurd hlt hlt'
      · exact absurd hlt' hlt
      · rfl
    simp only [happend, descend_withTombstone]
    exact (congrArg (fun u => raise u s.numVectors level) (linkLayers_withTombstone rt _ _ _ _ _ _)).trans (hraise _)

end Insert

end HNSWIndex

section Slots

variable {dim : Nat}

def undeleted (v : VectorSlot) : VectorSlot := { v with deleted := false }

theorem map_undeleted_markFirst (id : UInt64) (vs : List VectorSlot) :
    (markFirst id vs).map undeleted = vs.map undeleted := by
  induction vs with
  | nil => rfl
  | cons v vs ih =>
    rw [markFirst]
    split_ifs
    · rfl
    · rw [List.map_cons, List.map_cons, ih]

/-- Up to the marks, the slots are those of the inserts. -/
theorem map_undeleted_runSlots (ops : List (Op dim)) :
    (runSlots ops).map undeleted = runSlots (ops.filter Op.isInsert) := by
  induction ops using List.reverseRecOn with
  | nil => rfl
  | append_singleton ops op ih =>
    rw [runSlots_concat, List.filter_append]
    cases op with
    | insert id vec metadata level =>
      change (runSlots ops ++ [_]).map undeleted = runSlots (ops.filter Op.isInsert ++ [_])
      rw [runSlots_concat, List.map_append, ih]
      rfl
    | delete id =>
      change (markFirst id (runSlots ops)).map undeleted = runSlots (ops.filter Op.isInsert ++ [])
      rw [map_undeleted_markFirst, ih, List.append_nil]

/-- The slots of an id depend on the calls with that id only. -/
theorem copies_runSlots (x : UInt64) (ops : List (Op dim)) :
    copies x (runSlots ops) = copies x (runSlots (ops.filter fun op => op.id == x)) := by
  induction ops using List.reverseRecOn with
  | nil => rfl
  | append_singleton ops op ih =>
    rw [runSlots_concat, List.filter_append]
    by_cases hid : op.id = x
    · rw [show [op].filter (fun op => op.id == x) = [op] by simp [hid], runSlots_concat]
      subst hid
      cases op with
      | insert id vec metadata level =>
        change copies id _ = copies id _
        rw [copies_insert, copies_insert]
        exact congrArg (· ++ _) ih
      | delete id =>
        change copies id _ = copies id _
        rw [copies_delete, copies_delete]
        exact congrArg (List.modifyHead tombstoned) ih
    · rw [copies_step_ne hid, show [op].filter (fun op => op.id == x) = [] by simp [hid], List.append_nil, ih]

/-- A table is known from its slots without their marks and from the slots of each id. -/
theorem slots_ext {vs ws : List VectorSlot} (h : vs.map undeleted = ws.map undeleted)
    (hcopies : ∀ x, copies x vs = copies x ws) : vs = ws := by
  induction vs generalizing ws with
  | nil => exact (List.map_eq_nil_iff.mp h.symm).symm
  | cons v vs ih =>
    cases ws with
    | nil => simp at h
    | cons w ws =>
      obtain ⟨hhead, htail⟩ := List.cons.inj h
      have hid : v.id = w.id := (VectorSlot.mk.inj hhead).1
      have hown := hcopies v.id
      simp only [copies, List.filter_cons, beq_self_eq_true, if_true, hid] at hown
      obtain ⟨rfl, -⟩ := List.cons.inj hown
      refine congrArg (List.cons v) (ih htail fun x => ?_)
      have hx := hcopies x
      simp only [copies, List.filter_cons] at hx
      by_cases hvx : (v.id == x) = true
      · rw [if_pos hvx, if_pos hvx] at hx
        exact (List.cons.inj hx).2
      · rwa [if_neg hvx, if_neg hvx] at hx

theorem runSlots_congr {ops ops' : List (Op dim)} (hinserts : ops.filter Op.isInsert = ops'.filter Op.isInsert)
    (hown : ∀ x, (ops.filter fun op => op.id == x) = ops'.filter fun op => op.id == x) :
    runSlots ops = runSlots ops' := by
  apply slots_ext
  · rw [map_undeleted_runSlots, map_undeleted_runSlots, hinserts]
  · intro x
    rw [copies_runSlots, copies_runSlots x ops', hown]

end Slots

namespace HNSWIndex

section Runs

variable {σ : Type} [LinearOrder σ] (rt : Runtime σ) {dim : Nat}

theorem Aligned.slots_map_deleted {s : HNSWIndex} (h : s.Aligned) : s.slots.map VectorSlot.deleted = s.tombstone := by
  apply List.ext_getElem
  · rw [List.length_map, slots_length, h.tombstone_length]
  · intro i h₁ h₂
    simp [slots, slot, isTombstoned, List.getD_eq_getElem?_getD, h₂]

theorem deleteVector_withTombstone (s : HNSWIndex) (id : UInt64) (t : List Bool) :
    (s.deleteVector id).withTombstone t = s.withTombstone t := by
  unfold deleteVector
  split <;> rfl

/-- After a history the index is that of its inserts, but for the tombstones. -/
theorem run_eq_inserts (cfg : HNSWConfig) (ops : List (Op dim)) :
    run rt cfg ops =
      (run rt cfg (ops.filter Op.isInsert)).withTombstone ((runSlots ops).map VectorSlot.deleted) := by
  -- the tombstones are known, so that it remains to compare all else
  have hflags : ∀ ops : List (Op dim),
      run rt cfg ops = (run rt cfg ops).withTombstone ((runSlots ops).map VectorSlot.deleted) := by
    intro ops
    obtain ⟨haligned, hslots⟩ := aligned_run rt cfg ops
    rw [← hslots, haligned.slots_map_deleted]
    rfl
  rw [hflags]
  generalize (runSlots ops).map VectorSlot.deleted = t
  induction ops using List.reverseRecOn generalizing t with
  | nil => rfl
  | append_singleton ops op ih =>
    rw [run_concat, List.filter_append]
    cases op with
    | insert id vec metadata level =>
      change _ = (run rt cfg (ops.filter Op.isInsert ++ [_])).withTombstone t
      rw [run_concat]
      have hforget : ∀ s : HNSWIndex, (s.insertRaw rt id vec metadata level).withTombstone t =
          ((s.withTombstone []).insertRaw rt id vec metadata level).withTombstone t := by
        intro s
        rw [insertRaw_withTombstone]
        rfl
      exact (hforget _).trans ((congrArg (fun u => (insertRaw rt u id vec metadata level).withTombstone t) (ih [])).trans
        (hforget _).symm)
    | delete id =>
      change ((run rt cfg ops).deleteVector id).withTombstone t = (run rt cfg (ops.filter Op.isInsert ++ [])).withTombstone t
      rw [deleteVector_withTombstone, List.append_nil, ih]

/-- Histories with the same inserts, in which each id has the same calls in the same order, end in one index. -/
theorem run_reorder (cfg : HNSWConfig) (ops ops' : List (Op dim))
    (hinserts : ops.filter Op.isInsert = ops'.filter Op.isInsert)
    (hown : ∀ x, (ops.filter fun op => op.id == x) = ops'.filter fun op => op.id == x) :
    run rt cfg ops = run rt cfg ops' := by
  rw [run_eq_inserts, run_eq_inserts rt cfg ops', hinserts, runSlots_congr hinserts hown]

/-- The second history deletes 7 at once, and 8 before 7. -/
def lateDeletes : List (Op 1) :=
  [.insert 7 ⟨[14], List.length_singleton⟩ [] 0, .insert 8 ⟨[15], List.length_singleton⟩ [] 1, .delete 7, .delete 8]

def earlyDeletes : List (Op 1) :=
  [.insert 7 ⟨[14], List.length_singleton⟩ [] 0, .delete 7, .insert 8 ⟨[15], List.length_singleton⟩ [] 1, .delete 8]

theorem run_reorder_two : run .sample {} lateDeletes = run .sample {} earlyDeletes := by
  refine run_reorder .sample {} lateDeletes earlyDeletes rfl fun x => ?_
  simp only [lateDeletes, earlyDeletes, List.filter_cons, List.filter_nil, Op.id]
  by_cases hseven : (7 == x) = true
  · obtain rfl := beq_iff_eq.mp hseven
    rfl
  · simp [hseven]

theorem run_isTombstoned_inserts (cfg : HNSWConfig) (ops : List (Op dim)) (x : Nat) :
    (run rt cfg (ops.filter Op.isInsert)).isTombstoned x = false := by
  obtain ⟨haligned, hslots⟩ := aligned_run rt cfg (ops.filter Op.isInsert)
  have hlive := runSlots_live fun op (hop : op ∈ ops.filter Op.isInsert) => List.of_mem_filter hop
  rw [isTombstoned, ← haligned.slots_map_deleted, hslots, List.getD_eq_getElem?_getD, List.getElem?_map]
  cases hv : (runSlots (ops.filter Op.isInsert))[x]? with
  | none => rfl
  | some v => exact hlive v (List.mem_of_getElem? hv)

section Search

variable {s : HNSWIndex} {query : Vec}

theorem foundCandidates_withTombstone {t : List Bool} (hs : s.isTombstoned s.entryPoint = false)
    (ht : (s.withTombstone t).isTombstoned s.entryPoint = false) :
    (s.withTombstone t).foundCandidates rt query = s.foundCandidates rt query := by
  have hentry : (s.withTombstone t).liveEntry = s.liveEntry := by
    rw [liveEntry, liveEntry, hs]
    exact if_neg (ht ▸ Bool.false_ne_true)
  have hstart : (s.withTombstone t).searchStart rt query = s.searchStart rt query := by
    rw [searchStart, searchStart, hentry]
    exact congrArg (s.liveEntry.map ·) (funext (descend_withTombstone rt t s query 0 _))
  unfold foundCandidates
  rw [hstart]
  rfl

theorem Aligned.firstSlot_external (h : s.Aligned) (hnodup : (s.slots.map VectorSlot.id).Nodup) {x : Nat}
    (hx : x < s.numVectors) : s.firstSlot (s.idMap.getD x 0) = some x := by
  have hlen : x < (s.slots.map VectorSlot.id).length := by rwa [List.length_map, slots_length]
  have hid : (s.slots.map VectorSlot.id)[x] = s.idMap.getD x 0 := by simp [slots, slot]
  rw [h.firstSlot_eq, List.idxOf?_eq_some_iff]
  exact ⟨hlen, hid, fun j hj heq => hj.ne (hnodup.getElem_inj_iff.mp (heq.trans hid.symm))⟩

end Search

/-- While the entry point is live, deletes only filter what a search finds: the hits are the first that are not deleted
among what the index would find without the deletes. -/
theorem search_erased (cfg : HNSWConfig) (ops : List (Op dim)) (query : Vec)
    (hentry : (run rt cfg ops).isTombstoned (run rt cfg ops).entryPoint = false) :
    let s := run rt cfg ops
    let t := run rt cfg (ops.filter Op.isInsert)
    ∀ k : Int, 1 ≤ k →
      searchRaw rt s query k =
          (((t.foundCandidates rt query).filter fun c => s.isLive c.2).take k.toNat).map t.external ∧
        ((∀ x, inserts x ops ≤ 1) →
          searchRaw rt s query k = ((searchRaw rt t query 0).filter fun h => !s.isDeleted h.2).take k.toNat) := by
  intro s t k hk
  have herased : s = t.withTombstone ((runSlots ops).map VectorSlot.deleted) := run_eq_inserts rt cfg ops
  obtain ⟨haligned, hslots⟩ : s.Aligned ∧ s.slots = runSlots ops := aligned_run rt cfg ops
  have hinv : t.Inv := inv_run rt cfg _
  have hall : ∀ x, t.isTombstoned x = false := fun x => run_isTombstoned_inserts rt cfg ops x
  have hfound : s.foundCandidates rt query = t.foundCandidates rt query := by
    have halive : s.isTombstoned s.entryPoint = false := hentry
    rw [herased] at halive ⊢
    exact foundCandidates_withTombstone rt (hall _) halive
  have hsearch : searchRaw rt s query k =
      (((t.foundCandidates rt query).filter fun c => s.isLive c.2).take k.toNat).map t.external := by
    have hexternal : (s.external : σ × Nat → σ × UInt64) = t.external := by
      rw [herased]
      rfl
    rw [searchRaw_take hk, liveCandidates, hfound, hexternal]
  refine ⟨hsearch, fun hunique => ?_⟩
  have hlive : t.liveCandidates rt query = t.foundCandidates rt query :=
    List.filter_eq_self.mpr fun c _ => by rw [isLive, hall]; rfl
  have hflags : ∀ c ∈ t.foundCandidates rt query, (!s.isDeleted (t.external c).2) = s.isLive c.2 := by
    intro c hc
    rw [← hlive] at hc
    obtain ⟨e, hpos, he, hreached, -⟩ := hinv.mem_liveCandidates hc
    have hlt : c.2 < t.numVectors := hinv.reached_lt (hinv.searchStart_lt rt hpos he) hreached.1
    have hnodup : (s.slots.map VectorSlot.id).Nodup := hslots ▸ nodup_of_inserts hunique
    have hfirst := haligned.firstSlot_external hnodup (x := c.2) (by rw [herased]; exact hlt)
    have hid : (t.external c).2 = s.idMap.getD c.2 0 := by rw [herased]; rfl
    rw [isDeleted, hid, hfirst]
    rfl
  rw [hsearch, searchRaw_all le_rfl, hlive, List.filter_map, ← List.map_take]
  exact congrArg (fun cs => (cs.take k.toNat).map t.external) (List.filter_congr fun c hc => (hflags c hc).symm)

/-- The entry point is live, and a better match is deleted. -/
def outlived : List (Op 1) :=
  [.insert 7 ⟨[14], List.length_singleton⟩ [] 0, .insert 8 ⟨[15], List.length_singleton⟩ [] 0, .delete 8]

theorem search_erased_outlived :
    let s := run .sample {} outlived
    let t := run .sample {} (outlived.filter Op.isInsert)
    searchRaw .sample s [2] 1 = ((searchRaw .sample t [2] 0).filter fun h => !s.isDeleted h.2).take 1 :=
  (search_erased .sample {} outlived [2] (by decide) 1 le_rfl).2 (inserts_le_one (by decide))

end Runs

end HNSWIndex

end NeuralDb
