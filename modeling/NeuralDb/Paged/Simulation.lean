import NeuralDb.Hnsw.Bounded
import NeuralDb.Library.Returns
import NeuralDb.Paged.Cache

/-! The operations of the HNSW index take the same course whether vectors come from the page store or
from `raw_vectors_`. Only the pruning of a list may go wrong: it holds on to the pointer of one page
while it asks for others. -/

namespace NeuralDb

open Library PagedVectorStore

namespace HNSWIndex

variable {n : Nat} {s : HNSWIndex} {σ : Type} [LinearOrder σ] (rt : Runtime σ)

section Reads

variable {cap : Nat} {vec : Nat → Vec} {fails : Prop}

theorem returns_simTo (query : Vec) {x : Nat} (hx : x < n) :
    Returns fails (Holds cap n vec) (simTo rt pagedAccess query x) (rt.cosineSimilarity query (vec x)) := by
  intro st h
  obtain ⟨p, st', hget, h', hp, -⟩ := h.get hx
  have hrun : simTo rt pagedAccess query x st = (PagedVectorStore.get x st).bind fun r =>
      (PagedVectorStore.read r.1 r.2).bind fun r' => some (rt.cosineSimilarity query r'.1, r'.2) := rfl
  refine .inr ⟨st', ?_, h'⟩
  rw [hrun, hget, Option.bind_some, h'.read hp]
  rfl

/-- Scoring the links of `nb` through the pointer `p` of its vector, with the pages `a` used after it: the
scores come out when the page of `nb` outlives the gets of the links, and otherwise a read goes wrong. -/
theorem scoreLinks_outlives (p : PagePointer) (nb : Nat) (xs : List Nat) (hxs : ∀ x ∈ xs, x < n) {a b : List Nat}
    {st : PagedVectorStore} (h : st.Holds cap n vec) (hp : st.PointsTo nb p) (hlru : st.lruOrder = a ++ nb :: b) :
    (Lru.outlives cap nb a xs = true ∧ ∃ st', scoreLinks rt pagedAccess p xs st =
        some (xs.map fun x => (rt.cosineSimilarity (vec nb) (vec x), x), st') ∧ st'.Holds cap n vec) ∨
      Lru.outlives cap nb a xs = false ∧ scoreLinks rt pagedAccess p xs st = none := by
  induction xs generalizing st a b with
  | nil => exact .inl ⟨rfl, st, rfl, h⟩
  | cons x xs ih =>
    have htail : ∀ y ∈ xs, y < n := fun y hy => hxs y (List.mem_cons_of_mem x hy)
    obtain ⟨px, st', hget, h', hpx, horder, hkeep, hdrop⟩ := h.get (hxs x List.mem_cons_self)
    let after : Option (List (σ × Nat) × PagedVectorStore) :=
      (PagedVectorStore.read p st').bind fun a => (PagedVectorStore.read px a.2).bind fun b =>
        (scoreLinks rt pagedAccess p xs b.2).bind fun rest =>
          some ((rt.cosineSimilarity a.1 b.1, x) :: rest.1, rest.2)
    have hrun : scoreLinks rt pagedAccess p (x :: xs) st = after := by
      change (PagedVectorStore.get x st).bind _ = after
      rw [hget]
      rfl
    rw [hrun]
    rw [hlru] at horder
    -- the rest of the loop, when the page of `nb` is still there behind the pages `seen`
    have hrest : ∀ seen b', st'.lruOrder = seen ++ nb :: b' →
        (Lru.outlives cap nb seen xs = true ∧ ∃ st'', after =
          some ((x :: xs).map fun x => (rt.cosineSimilarity (vec nb) (vec x), x), st'') ∧ st''.Holds cap n vec) ∨
        Lru.outlives cap nb seen xs = false ∧ after = none := by
      intro seen b' hseen
      have hpoint := hkeep nb p hp (by rw [hseen]; simp)
      have hafter : after = (scoreLinks rt pagedAccess p xs st').bind fun rest =>
          some ((rt.cosineSimilarity (vec nb) (vec x), x) :: rest.1, rest.2) := by
        change (PagedVectorStore.read p st').bind _ = _
        rw [h'.read hpoint, Option.bind_some, h'.read hpx, Option.bind_some]
      rw [hafter]
      rcases ih htail h' hpoint hseen with ⟨hout, st'', hsome, h''⟩ | ⟨hout, hnone⟩
      · exact .inl ⟨hout, st'', by rw [hsome]; rfl, h''⟩
      · exact .inr ⟨hout, by rw [hnone]; rfl⟩
    rw [Lru.outlives]
    split_ifs with hxnb
    · subst hxnb
      exact hrest [] _ horder
    · have hnext : Lru.InOrder cap (a ++ nb :: b) := hlru ▸ h.cap_eq ▸ h.lruOk.inOrder
      rcases hnext.touch_behind hxnb with ⟨b', hstays⟩ | ⟨hgone, hfull⟩
      · rw [hstays] at horder
        have hroom : (x :: a.erase x).length < cap := by
          have hle := h'.lru_le
          rw [horder, List.length_append, List.length_cons (a := nb)] at hle
          omega
        rw [decide_eq_true hroom, Bool.true_and]
        exact hrest _ b' horder
      · rw [decide_eq_false (not_lt.mpr hfull), Bool.false_and]
        have hout := hdrop nb p hp (horder ▸ hgone)
        refine .inr ⟨rfl, ?_⟩
        change (PagedVectorStore.read p st').bind _ = none
        rw [hout.read]
        rfl

end Reads

section Operations

variable {cap : Nat} {fails : Prop}

theorem returns_searchLayer (hs : s.Bounded n) (query : Vec) {ep : Nat} (hep : ep < n) (ef : Int)
    (layer : Nat) :
    Returns fails (Holds cap n s.rawVec) (searchLayer rt pagedAccess s query ep ef layer)
      (searchLayer (m := Id) rt s.rawAccess s query ep ef layer) := by
  have hread : ∀ x, x < n → Returns fails (Holds cap n s.rawVec) (simTo rt pagedAccess query x)
      (s.simRaw rt query x) := fun x hx => returns_simTo rt query hx
  have hlinks : ∀ x, x < n → ∀ y ∈ s.links layer x, y < n := fun x _ y hy => hs.lt layer x y hy
  exact (Beam.returns_search hread hlinks s.graph.length hep).map rt.sort

theorem returns_descend (hs : s.Bounded n) (query : Vec) (floor k : Nat) {ep : Nat} (hep : ep < n) :
    Returns fails (Holds cap n s.rawVec) (descend rt pagedAccess s query floor k ep)
      (descend (m := Id) rt s.rawAccess s query floor k ep) := by
  induction k generalizing ep with
  | zero => exact returns_pure ep
  | succ k ih =>
    have hfront := (hs.layerResult rt query hep 1 (floor + (k + 1))).front_mem ep
    exact (returns_searchLayer rt hs query hep 1 _).bind (ih hfront)

/-- The pages that a pruning touches fit in the cache. -/
def PruneFits (cap : Nat) (cfg : HNSWConfig) : Prop := cfg.M ≤ 0 ∨ 2 * cfg.M + 2 ≤ cap

theorem returns_backLink (hs : s.Bounded n) (hM : 0 < s.cfg.M) (hroom : ¬ fails → PruneFits cap s.cfg)
    (lc : Nat) {q nb : Nat} (hq : q < n) (hnb : nb < n) :
    Returns fails (Holds cap n s.rawVec) (backLink rt pagedAccess s lc q nb)
      (backLink (m := Id) rt s.rawAccess s lc q nb) := by
  have hlen : nb < s.graph.length := hs.graph_length ▸ hnb
  have hlinks : (s.pushLink lc nb q).links lc nb = s.links lc nb ++ [q] := by
    rw [links_pushLink hlen, if_pos ⟨rfl, rfl⟩]
  unfold backLink
  dsimp only
  split_ifs with hfull
  · intro st h
    obtain ⟨p, st', hget, h', hp, hlru, -⟩ := h.get hnb
    have hxs : ∀ x ∈ (s.pushLink lc nb q).links lc nb, x < n := by
      intro x hx
      rcases List.mem_append.mp (hlinks ▸ hx) with hx | hx
      · exact hs.lt lc nb x hx
      · exact List.mem_singleton.mp hx ▸ hq
    -- a list that is pruned is one longer than its bound
    have hfits : ¬ fails → ([] : List Nat).length + ((s.pushLink lc nb q).links lc nb).length < cap := by
      intro hf
      have hdeg := hs.degree lc nb
      have hmax : s.maxLinks lc ≤ 2 * s.cfg.M := by
        unfold maxLinks
        split_ifs <;> omega
      rw [hlinks, List.length_append, List.length_singleton, List.length_nil]
      rcases hroom hf with hle | hle <;> omega
    have hscore := scoreLinks_outlives rt p nb _ hxs (a := []) h' hp hlru
    have hrun : ∀ f : List (σ × Nat) → HNSWIndex,
        (do let nbVec ← pagedAccess.get nb
            let cands ← scoreLinks rt pagedAccess nbVec ((s.pushLink lc nb q).links lc nb)
            pure (f cands)) st = (PagedVectorStore.get nb st).bind fun r =>
          (scoreLinks rt pagedAccess r.1 ((s.pushLink lc nb q).links lc nb) r.2).bind fun c =>
            some (f c.1, c.2) := fun _ => rfl
    rw [hrun, hget, Option.bind_some]
    rcases hscore with ⟨-, st'', hsome, h''⟩ | ⟨hout, hnone⟩
    · refine .inr ⟨st'', ?_, h''⟩
      rw [hsome]
      exact congrArg (fun c => some (HNSWIndex.setLinks _ lc nb (selectNeighbours rt c _), st''))
        (scoreLinks_raw rt s nb _).symm
    · have hf : fails := by
        by_contra hf
        rw [Lru.outlives_of_room _ (hfits hf)] at hout
        contradiction
      exact .inl ⟨hf, by rw [hnone]; rfl⟩
  · exact returns_pure _

theorem returns_backLinks (lc : Nat) {q : Nat} (hq : q < n) (nbs : List Nat) (hnbs : ∀ nb ∈ nbs, nb < n)
    {s : HNSWIndex} (hs : s.Bounded n) (hM : nbs ≠ [] → 0 < s.cfg.M)
    (hroom : ¬ fails → PruneFits cap s.cfg) :
    Returns fails (Holds cap n s.rawVec) (backLinks rt (fun _ => pagedAccess) lc q nbs s)
      (backLinks (m := Id) rt rawAccess lc q nbs s) := by
  induction nbs generalizing s with
  | nil => exact returns_pure s
  | cons nb nbs ih =>
    have hnb := hnbs nb List.mem_cons_self
    have hback := regraphed_backLink rt s lc q nb
    have hpos : 0 < s.cfg.M := hM (List.cons_ne_nil nb nbs)
    refine (returns_backLink rt hs hpos hroom lc hq hnb).bind ?_
    rw [← hback.rawVec_eq]
    exact ih (fun x hx => hnbs x (List.mem_cons_of_mem nb hx)) (hs.backLink rt lc hq hnb)
      (fun _ => hback.cfg_eq ▸ hpos) (hback.cfg_eq ▸ hroom)

theorem returns_linkLayers {q : Nat} (hq : q < n) (vec : Vec) (k : Nat) {s : HNSWIndex}
    (hs : s.Bounded n) {ep : Nat} (hep : ep < n) (hroom : ¬ fails → PruneFits cap s.cfg) :
    Returns fails (Holds cap n s.rawVec) (linkLayers rt (fun _ => pagedAccess) q vec k ep s)
      (linkLayers (m := Id) rt rawAccess q vec k ep s) := by
  induction k generalizing s ep with
  | zero => exact returns_pure s
  | succ lc ih =>
    let ef := max s.cfg.efConstruction s.cfg.M
    let cands : List (σ × Nat) := searchLayer (m := Id) rt s.rawAccess s vec ep ef lc
    let nbs := selectNeighbours rt cands s.cfg.M
    have hres : LayerResult (s.simRaw rt vec) (· < n) ef cands := hs.layerResult rt vec hep ef lc
    have hnbs : ∀ nb ∈ nbs, nb < n := by
      intro nb hnb
      obtain ⟨c, hc, rfl⟩ := List.mem_map.mp ((selectNeighbours_subperm rt _ _).subset hnb)
      exact hres.mem c hc
    have hset : (s.setLinks lc q nbs).Bounded n :=
      hs.setLinks q hnbs ((selectNeighbours_length rt _ _).trans (maxLinks_ge s lc))
    have hback := regraphed_backLinks rt lc q nbs (s.setLinks lc q nbs)
    refine (returns_searchLayer rt hs vec hep ef lc).bind ?_
    refine (returns_backLinks rt lc hq nbs hnbs hset (selectNeighbours_pos rt) hroom).bind ?_
    have hrest := ih (hset.backLinks rt lc hq nbs hnbs) (hres.front_mem ep) (hback.cfg_eq ▸ hroom)
    rwa [hback.rawVec_eq] at hrest

end Operations

end HNSWIndex

end NeuralDb
