import NeuralDb.Hnsw.Slots

/-! The representation invariant of the graph and the half-linked states inside one `insert`. -/

namespace NeuralDb

open Library

namespace HNSWIndex

section LayerSearch

variable {σ : Type} [LinearOrder σ] (rt : Runtime σ)

/-- What a search on one layer returns, for a set `P` of nodes closed under the links. -/
structure LayerResult (sim : Nat → σ) (P : Nat → Prop) (ef : Int) (r : List (σ × Nat)) : Prop where
  ne : r ≠ []
  length_le : (r.length : Int) ≤ max ef 1
  nodup : (r.map Prod.snd).Nodup
  ordered : r.Pairwise fun a b => b.1 ≤ a.1
  mem : ∀ c ∈ r, P c.2
  scored : ∀ c ∈ r, c.1 = sim c.2

/-- The similarity of a query to a slot of an index without a custom accessor. -/
def simRaw (rt : Runtime σ) (s : HNSWIndex) (query : Vec) (x : Nat) : σ :=
  rt.cosineSimilarity query (s.rawVec x)

theorem searchLayer_beam (s : HNSWIndex) (query : Vec) {ep : Nat} (ef : Int) (layer : Nat) {P : Nat → Prop}
    (he : P ep) (hP : ∀ x, P x → ∀ y ∈ s.links layer x, P y) :
    ∃ b : Beam σ Nat, b.Inv (s.simRaw rt query) P ef ∧ ep ∈ b.visited ∧
      searchLayer (m := Id) rt s.rawAccess s query ep ef layer = rt.sort b.results := by
  obtain ⟨b, hb, hep, hres⟩ :=
    Beam.search_beam (s.simRaw rt query) ef s.graph.length he hP
  exact ⟨b, hb, hep, congrArg rt.sort hres⟩

theorem layerResult_sort {sim : Nat → σ} {P : Nat → Prop} {ef : Int} {b : Beam σ Nat} (hb : b.Inv sim P ef) :
    LayerResult sim P ef (rt.sort b.results) := by
  have hperm := rt.sort_perm b.results
  exact {
    ne := fun h => hb.results_ne (List.perm_nil.mp (hperm.symm.trans (h ▸ List.Perm.refl _)))
    length_le := by rw [hperm.length_eq]; exact hb.results_le
    nodup := (hperm.map Prod.snd).nodup_iff.mpr hb.results_nodup
    ordered := rt.sort_ordered _
    mem := fun c hc => hb.result_in (hperm.mem_iff.mp hc)
    scored := fun c hc => hb.results_scored c (hperm.mem_iff.mp hc) }

theorem searchLayer_result (s : HNSWIndex) (query : Vec) {ep : Nat} (ef : Int) (layer : Nat)
    {P : Nat → Prop} (he : P ep) (hP : ∀ x, P x → ∀ y ∈ s.links layer x, P y) :
    LayerResult (s.simRaw rt query) P ef (searchLayer (m := Id) rt s.rawAccess s query ep ef layer) := by
  obtain ⟨b, hb, -, hres⟩ := searchLayer_beam rt s query ef layer he hP
  rw [hres]
  exact layerResult_sort rt hb

theorem LayerResult.front_mem {sim : Nat → σ} {P : Nat → Prop} {ef : Int} {r : List (σ × Nat)}
    (h : LayerResult sim P ef r) (ep : Nat) : P (front r ep) := by
  cases r with
  | nil => exact absurd rfl h.ne
  | cons c cs => exact h.mem c List.mem_cons_self

theorem nodup_of_subperm {α : Type} {as bs : List α} (h : as.Subperm bs) (hbs : bs.Nodup) : as.Nodup := by
  obtain ⟨cs, hperm, hsub⟩ := h
  exact hperm.nodup_iff.mp (hbs.sublist hsub)

theorem selectNeighbours_subperm (cands : List (σ × Nat)) (M : Int) :
    (selectNeighbours rt cands M).Subperm (cands.map Prod.snd) := by
  have hperm := (rt.sort_perm cands).map Prod.snd
  exact (((List.take_sublist _ _).map Prod.snd).subperm).trans hperm.subperm

theorem selectNeighbours_length (cands : List (σ × Nat)) (M : Int) :
    (selectNeighbours rt cands M).length ≤ M.toNat := by
  rw [selectNeighbours, List.length_map, List.length_take]
  exact min_le_left _ _

theorem scoreLinks_raw (s : HNSWIndex) (nb : Nat) (xs : List Nat) :
    scoreLinks (m := Id) rt s.rawAccess nb xs = xs.map fun x => (s.simRaw rt (s.rawVec nb) x, x) := by
  induction xs with
  | nil => rfl
  | cons x xs ih => exact congrArg ((s.simRaw rt (s.rawVec nb) x, x) :: ·) ih

end LayerSearch

section Links

variable {s : HNSWIndex} {l x : Nat}

@[simp] theorem setLinks_cfg (s : HNSWIndex) (l x : Nat) (ls : List Nat) :
    (s.setLinks l x ls).cfg = s.cfg := rfl

@[simp] theorem setLinks_maxLinks (s : HNSWIndex) (l x : Nat) (ls : List Nat) (k : Nat) :
    (s.setLinks l x ls).maxLinks k = s.maxLinks k := rfl

@[simp] theorem setLinks_maxLayer (s : HNSWIndex) (l x : Nat) (ls : List Nat) :
    (s.setLinks l x ls).maxLayer = s.maxLayer := rfl

@[simp] theorem setLinks_entryPoint (s : HNSWIndex) (l x : Nat) (ls : List Nat) :
    (s.setLinks l x ls).entryPoint = s.entryPoint := rfl

theorem links_setLinks_of_lt (h : l < s.layers x) (ls : List Nat) (k y : Nat) :
    (s.setLinks l x ls).links k y = if x = y ∧ l = k then ls else s.links k y := by
  rw [links_setLinks]
  by_cases hc : x = y ∧ l = k
  · obtain ⟨rfl, rfl⟩ := hc
    rw [if_pos ⟨rfl, rfl, h⟩, if_pos ⟨rfl, rfl⟩]
  · rw [if_neg fun hk => hc ⟨hk.1, hk.2.1⟩, if_neg hc]

theorem links_setLinks_self (h : l < s.layers x) (ls : List Nat) :
    (s.setLinks l x ls).links l x = ls := by
  rw [links_setLinks_of_lt h, if_pos ⟨rfl, rfl⟩]

theorem setLinks_setLinks (s : HNSWIndex) (l x : Nat) (as bs : List Nat) :
    (s.setLinks l x as).setLinks l x bs = s.setLinks l x bs := by
  simp only [setLinks, List.modify_modify_eq, Function.comp_def, List.set_set]

theorem lt_graph_length (h : l < s.layers x) : x < s.graph.length := by
  by_contra hge
  rw [layers_eq_zero (not_lt.mp hge)] at h
  exact absurd h (Nat.not_lt_zero l)

/-- What holds of every link list: no self link, no repeated link, every link leads to a node of
that layer, and the lists are bounded. -/
structure LinksOk (s : HNSWIndex) : Prop where
  self_free : ∀ l x, x ∉ s.links l x
  nodup : ∀ l x, (s.links l x).Nodup
  in_layer : ∀ l x, ∀ y ∈ s.links l x, l < s.layers y
  degree : ∀ l x, (s.links l x).length ≤ (s.maxLinks l).toNat

theorem LinksOk.setLinks (h : s.LinksOk) {ls : List Nat} (hself : x ∉ ls) (hnodup : ls.Nodup)
    (hlayer : ∀ y ∈ ls, l < s.layers y) (hdeg : ls.length ≤ (s.maxLinks l).toNat) :
    (s.setLinks l x ls).LinksOk where
  self_free := forall_links_setLinks (P := fun _ y ls => y ∉ ls) h.self_free hself
  nodup := forall_links_setLinks (P := fun _ _ ls => ls.Nodup) h.nodup hnodup
  in_layer k y z hz := by
    rw [layers_setLinks]
    exact forall_links_setLinks (P := fun k _ ls => ∀ y ∈ ls, k < s.layers y) h.in_layer hlayer k y z hz
  degree := forall_links_setLinks (P := fun k _ ls => ls.length ≤ (s.maxLinks k).toNat) h.degree hdeg

/-- What the back-link region does: it replaces one list, by one drawn from the old list and `q`. -/
theorem backLink_raw {σ : Type} [LinearOrder σ] (rt : Runtime σ) {q nb : Nat} (h : l < s.layers nb) :
    ∃ ls, backLink (m := Id) rt s.rawAccess s l q nb = s.setLinks l nb ls ∧
      ls.Subperm (s.links l nb ++ [q]) ∧ ls.length ≤ (s.maxLinks l).toNat ∧
      (((s.links l nb ++ [q]).length : Int) ≤ s.maxLinks l → ls = s.links l nb ++ [q]) := by
  have hpush : s.pushLink l nb q = s.setLinks l nb (s.links l nb ++ [q]) := pushLink_of_lt h
  have hlinks := links_setLinks_self h (s.links l nb ++ [q])
  by_cases hfull : s.maxLinks l < ((s.links l nb ++ [q]).length : Int)
  · let cands := (s.links l nb ++ [q]).map fun x => (s.simRaw rt (s.rawVec nb) x, x)
    have hsub : (selectNeighbours rt cands (s.maxLinks l)).Subperm (s.links l nb ++ [q]) := by
      have hmap : cands.map Prod.snd = s.links l nb ++ [q] := by
        simp only [cands, List.map_map, Function.comp_def, List.map_id']
      exact hmap ▸ selectNeighbours_subperm rt cands _
    refine ⟨selectNeighbours rt cands (s.maxLinks l), ?_, hsub, selectNeighbours_length rt _ _,
      fun hle => absurd hfull (not_lt.mpr hle)⟩
    simp only [backLink, hpush, setLinks_maxLinks, hlinks]
    rw [if_pos hfull]
    change (s.setLinks l nb _).setLinks l nb
      (selectNeighbours rt (scoreLinks (m := Id) rt s.rawAccess nb _) _) = _
    rw [scoreLinks_raw, setLinks_setLinks]
  · have hle : (s.links l nb ++ [q]).length ≤ (s.maxLinks l).toNat := by
      have := not_lt.mp hfull
      omega
    refine ⟨s.links l nb ++ [q], ?_, List.Subperm.refl _, hle, fun _ => rfl⟩
    simp only [backLink, hpush, setLinks_maxLinks, hlinks]
    rw [if_neg hfull]
    rfl

theorem LinksOk.lt_length (h : s.LinksOk) {y : Nat} (hy : y ∈ s.links l x) : y < s.graph.length :=
  lt_graph_length (h.in_layer l x y hy)

theorem length_le_of_lt {n : Nat} {l : List Nat} (hnodup : l.Nodup) (hlt : ∀ x ∈ l, x < n) : l.length ≤ n := by
  have hsub : l ⊆ List.range n := fun x hx => List.mem_range.mpr (hlt x hx)
  simpa using (List.subperm_of_subset hnodup hsub).length_le

/-- `t` is `s` with some link lists of the layers in `L` replaced. -/
structure Relinked (L : Nat → Prop) (s t : HNSWIndex) : Prop extends Regraphed s t where
  layers_eq : ∀ x, t.layers x = s.layers x
  links_eq : ∀ k, ¬ L k → ∀ x, t.links k x = s.links k x

theorem relinked_refl (L : Nat → Prop) (s : HNSWIndex) : Relinked L s s :=
  ⟨regraphed_refl s, fun _ => rfl, fun _ _ _ => rfl⟩

theorem Relinked.trans {L : Nat → Prop} {t u : HNSWIndex} (hst : Relinked L s t)
    (htu : Relinked L t u) : Relinked L s u where
  toRegraphed := hst.toRegraphed.trans htu.toRegraphed
  layers_eq x := (htu.layers_eq x).trans (hst.layers_eq x)
  links_eq k hk x := (htu.links_eq k hk x).trans (hst.links_eq k hk x)

theorem Relinked.mono {L K : Nat → Prop} {t : HNSWIndex} (h : Relinked L s t) (hLK : ∀ k, L k → K k) :
    Relinked K s t :=
  { h with links_eq := fun k hk => h.links_eq k fun hl => hk (hLK k hl) }

theorem relinked_setLinks (s : HNSWIndex) (l x : Nat) (ls : List Nat) :
    Relinked (· = l) s (s.setLinks l x ls) where
  toRegraphed := regraphed_setLinks s l x ls
  layers_eq := layers_setLinks s l x ls
  links_eq k hk y := by rw [links_setLinks, if_neg fun h => hk h.2.1.symm]

theorem Relinked.maxLinks_eq {L : Nat → Prop} {t : HNSWIndex} (h : Relinked L s t) (k : Nat) :
    t.maxLinks k = s.maxLinks k := by rw [h.frame]; rfl

/-- The node `q` takes no part in layer `l` yet. -/
def Unlinked (s : HNSWIndex) (q l : Nat) : Prop := s.links l q = [] ∧ ∀ x, q ∉ s.links l x

theorem Unlinked.relinked {L : Nat → Prop} {t : HNSWIndex} {q : Nat} (h : s.Unlinked q l)
    (hst : Relinked L s t) (hl : ¬ L l) : t.Unlinked q l := by
  refine ⟨(hst.links_eq l hl q).trans h.1, fun x => ?_⟩
  rw [hst.links_eq l hl x]
  exact h.2 x

theorem maxLinks_ge (s : HNSWIndex) (l : Nat) : s.cfg.M.toNat ≤ (s.maxLinks l).toNat := by
  unfold maxLinks
  split_ifs <;> omega

theorem maxLinks_lt (s : HNSWIndex) (l : Nat) : (s.maxLinks l).toNat < 2 ^ 32 := by
  have hM := s.cfg.M_lt
  unfold maxLinks
  split_ifs <;> omega

end Links

section Linking

variable {σ : Type} [LinearOrder σ] (rt : Runtime σ) {lc q : Nat}

/-- One back link keeps the graph in order, for a neighbour that does not link to `q` yet. -/
theorem LinksOk.backLink {s : HNSWIndex} (h : s.LinksOk) {nb : Nat}
    (hq : lc < s.layers q) (hnb : lc < s.layers nb) (hne : nb ≠ q) (hnew : q ∉ s.links lc nb) :
    ∃ ls, HNSWIndex.backLink (m := Id) rt s.rawAccess s lc q nb = s.setLinks lc nb ls ∧
      (s.setLinks lc nb ls).LinksOk ∧ ∀ y ∈ ls, y ∈ s.links lc nb ∨ y = q := by
  obtain ⟨ls, heq, hsub, hlen, -⟩ := backLink_raw rt (q := q) hnb
  have hmem : ∀ y ∈ ls, y ∈ s.links lc nb ∨ y = q := by
    intro y hy
    simpa using hsub.subset hy
  have hnodup : (s.links lc nb ++ [q]).Nodup :=
    List.nodup_append'.mpr ⟨h.nodup lc nb, List.nodup_singleton q, by simpa using hnew⟩
  refine ⟨ls, heq, h.setLinks ?_ (nodup_of_subperm hsub hnodup) ?_ hlen, hmem⟩
  · intro hself
    rcases hmem nb hself with h' | h'
    · exact h.self_free lc nb h'
    · exact hne h'
  · intro y hy
    rcases hmem y hy with h' | rfl
    · exact h.in_layer lc nb y h'
    · exact hq

theorem LinksOk.backLinks (nbs : List Nat) {s : HNSWIndex} (h : s.LinksOk)
    (hq : lc < s.layers q) (hnodup : nbs.Nodup) (hnbs : ∀ nb ∈ nbs, lc < s.layers nb ∧ nb ≠ q)
    (hnew : ∀ nb ∈ nbs, q ∉ s.links lc nb) :
    LinksOk (HNSWIndex.backLinks (m := Id) rt rawAccess lc q nbs s) ∧
      Relinked (· = lc) s (HNSWIndex.backLinks (m := Id) rt rawAccess lc q nbs s) := by
  induction nbs generalizing s with
  | nil => exact ⟨h, relinked_refl _ s⟩
  | cons nb nbs ih =>
    obtain ⟨hnot, htail⟩ := List.nodup_cons.mp hnodup
    obtain ⟨hnb, hne⟩ := hnbs nb List.mem_cons_self
    obtain ⟨ls, heq, hok, -⟩ := h.backLink rt hq hnb hne (hnew nb List.mem_cons_self)
    have hstep := relinked_setLinks s lc nb ls
    have hrest := ih hok (by rwa [layers_setLinks]) htail
      (fun x hx => by rw [layers_setLinks]; exact hnbs x (List.mem_cons_of_mem nb hx))
      (fun x hx => by
        -- the lists of the neighbours still to come are untouched
        have hxne : nb ≠ x := fun he => hnot (he ▸ hx)
        rw [links_setLinks, if_neg fun hc => hxne hc.1]
        exact hnew x (List.mem_cons_of_mem nb hx))
    have hcons : HNSWIndex.backLinks (m := Id) rt rawAccess lc q (nb :: nbs) s =
        HNSWIndex.backLinks (m := Id) rt rawAccess lc q nbs (s.setLinks lc nb ls) :=
      congrArg (HNSWIndex.backLinks (m := Id) rt rawAccess lc q nbs) heq
    rw [hcons]
    exact ⟨hrest.1, hstep.trans hrest.2⟩

/-- The candidates and the neighbours that a round of the linking loop finds on layer `lc`. -/
structure RoundOk (s : HNSWIndex) (lc q : Nat) (nbs : List Nat) (front : Nat) : Prop where
  nodup : nbs.Nodup
  mem : ∀ nb ∈ nbs, lc < s.layers nb ∧ nb ≠ q
  front : lc < s.layers front ∧ front ≠ q

/-- One round of the linking loop, for a node that takes no part in the layer yet. -/
theorem LinksOk.linkRound (vec : Vec) {s : HNSWIndex} {ep : Nat} (h : s.LinksOk) (hq : lc < s.layers q)
    (hfree : s.Unlinked q lc) (hep : lc < s.layers ep) (hne : ep ≠ q) :
    let cands : List (σ × Nat) :=
      searchLayer (m := Id) rt s.rawAccess s vec ep (max s.cfg.efConstruction s.cfg.M) lc
    let nbs := selectNeighbours rt cands s.cfg.M
    let t : HNSWIndex := HNSWIndex.backLinks (m := Id) rt rawAccess lc q nbs (s.setLinks lc q nbs)
    cands ≠ [] ∧ s.RoundOk lc q nbs (front cands ep) ∧ (s.setLinks lc q nbs).LinksOk ∧ t.LinksOk ∧
      Relinked (· = lc) s t := by
  intro cands nbs t
  let P : Nat → Prop := fun x => lc < s.layers x ∧ x ≠ q
  obtain ⟨hempty, hin⟩ := hfree
  have hclosed : ∀ x, P x → ∀ y ∈ s.links lc x, P y :=
    fun x _ y hy => ⟨h.in_layer lc x y hy, fun he => hin x (he ▸ hy)⟩
  have hres := searchLayer_result rt s vec (max s.cfg.efConstruction s.cfg.M) lc (P := P) ⟨hep, hne⟩ hclosed
  have hsub : nbs.Subperm (cands.map Prod.snd) := selectNeighbours_subperm rt _ _
  have hnbs : ∀ nb ∈ nbs, P nb := by
    intro nb hnb
    obtain ⟨c, hc, rfl⟩ := List.mem_map.mp (hsub.subset hnb)
    exact hres.mem c hc
  have hnodup : nbs.Nodup := nodup_of_subperm hsub hres.nodup
  have hlen : nbs.length ≤ (s.maxLinks lc).toNat :=
    (selectNeighbours_length rt _ _).trans (maxLinks_ge s lc)
  have hset : (s.setLinks lc q nbs).LinksOk :=
    h.setLinks (fun hmem => (hnbs q hmem).2 rfl) hnodup (fun y hy => (hnbs y hy).1) hlen
  obtain ⟨hok, hback⟩ := hset.backLinks rt nbs (by rw [layers_setLinks]; exact hq) hnodup
    (fun nb hnb => by rw [layers_setLinks]; exact hnbs nb hnb)
    (fun nb hnb => by
      rw [links_setLinks, if_neg fun hc => (hnbs nb hnb).2 hc.1.symm]
      exact hin nb)
  exact ⟨hres.ne, ⟨hnodup, hnbs, hres.front_mem ep⟩, hset, hok, (relinked_setLinks s lc q nbs).trans hback⟩

/-- The linking loop: the layers still to come are untouched by `q` until their turn. -/
theorem LinksOk.linkLayers (vec : Vec) (n : Nat) {s : HNSWIndex} {ep : Nat} (h : s.LinksOk)
    (hq : n ≤ s.layers q) (hfree : ∀ l < n, s.Unlinked q l)
    (hep : n ≤ s.layers ep) (hne : ep ≠ q) :
    LinksOk (HNSWIndex.linkLayers (m := Id) rt rawAccess q vec n ep s) ∧
      Relinked (· < n) s (HNSWIndex.linkLayers (m := Id) rt rawAccess q vec n ep s) := by
  induction n generalizing s ep with
  | zero => exact ⟨h, relinked_refl _ s⟩
  | succ lc ih =>
    obtain ⟨-, hround, -, hok, hst⟩ := h.linkRound rt vec hq (hfree lc (Nat.lt_succ_self lc)) hep hne
    have hrest := ih hok (by rw [hst.layers_eq]; omega)
      (fun l hl => (hfree l (by omega)).relinked hst (by omega))
      (by rw [hst.layers_eq]; exact hround.front.1.le) hround.front.2
    exact ⟨hrest.1, (hst.mono fun k hk => by omega).trans (hrest.2.mono fun k hk => by omega)⟩

theorem selectNeighbours_ne_nil {cands : List (σ × Nat)} {M : Int} (h : cands ≠ []) (hM : 0 < M) :
    selectNeighbours rt cands M ≠ [] := by
  have hlen := List.length_pos_iff.mpr h
  apply List.ne_nil_of_length_pos
  rw [selectNeighbours, List.length_map, List.length_take, (rt.sort_perm cands).length_eq]
  omega

/-- The last round of the linking loop works on the bottom layer, which the rounds before it leave alone. -/
theorem LinksOk.linkLayers_last (vec : Vec) (n : Nat) {s : HNSWIndex} {ep : Nat} (h : s.LinksOk)
    (hq : n + 1 ≤ s.layers q) (hfree : ∀ l < n + 1, s.Unlinked q l) (hep : n + 1 ≤ s.layers ep) (hne : ep ≠ q) :
    ∃ (u : HNSWIndex) (nbs : List Nat), Relinked (· ≠ 0) s u ∧ (0 < s.cfg.M → nbs ≠ []) ∧ nbs.Nodup ∧
      (∀ nb ∈ nbs, 0 < s.layers nb ∧ nb ≠ q) ∧ (u.setLinks 0 q nbs).LinksOk ∧
      HNSWIndex.linkLayers (m := Id) rt rawAccess q vec (n + 1) ep s =
        HNSWIndex.backLinks (m := Id) rt rawAccess 0 q nbs (u.setLinks 0 q nbs) := by
  induction n generalizing s ep with
  | zero =>
    obtain ⟨hcands, hround, hset, -, -⟩ := h.linkRound rt vec hq (hfree 0 Nat.one_pos) hep hne
    exact ⟨s, _, relinked_refl _ s, selectNeighbours_ne_nil rt hcands, hround.nodup, hround.mem, hset, rfl⟩
  | succ n ih =>
    obtain ⟨-, hround, -, hok, hst⟩ := h.linkRound rt vec hq (hfree (n + 1) (Nat.lt_succ_self _)) hep hne
    obtain ⟨u, nbs, hu, hnbs, hnodup, hmem, hset, heq⟩ := ih hok (by rw [hst.layers_eq]; omega)
      (fun l hl => (hfree l (by omega)).relinked hst (by omega))
      (by rw [hst.layers_eq]; exact hround.front.1.le) hround.front.2
    refine ⟨u, nbs, (hst.mono fun k hk => by omega).trans hu, fun hM => hnbs ?_, hnodup, ?_, hset, heq⟩
    · rwa [hst.table.cfg_eq]
    · intro nb hnb
      rw [← hst.layers_eq nb]
      exact hmem nb hnb

end Linking

section Descent

variable {s : HNSWIndex}

/-- The descent ends on its floor, for a family of node sets closed under the links of each layer. -/
theorem descend_mem {σ : Type} [LinearOrder σ] (rt : Runtime σ) (s : HNSWIndex) (query : Vec)
    (floor : Nat) {P : Nat → Nat → Prop} (hlinks : ∀ l x, P l x → ∀ y ∈ s.links l x, P l y)
    (hdown : ∀ l x, P (l + 1) x → P l x) (n : Nat) {ep : Nat} (hep : P (floor + n) ep) :
    P floor (descend (m := Id) rt s.rawAccess s query floor n ep) := by
  induction n generalizing ep with
  | zero => exact hep
  | succ n ih =>
    have hres := searchLayer_result rt s query 1 (floor + (n + 1)) hep (hlinks _)
    exact ih (hdown _ _ (hres.front_mem ep))

theorem LinksOk.append (h : s.LinksOk) (id : UInt64) (vec : Vec) (metadata : Bytes) (level : Nat) :
    (s.append id vec metadata level).LinksOk where
  self_free l x := by
    rw [links_append]
    exact h.self_free l x
  nodup l x := by
    rw [links_append]
    exact h.nodup l x
  in_layer l x y hy := by
    rw [links_append] at hy
    rw [layers_append, if_neg (h.lt_length hy).ne]
    exact h.in_layer l x y hy
  degree l x := by
    rw [links_append]
    exact h.degree l x

theorem LinksOk.unlinked_append (h : s.LinksOk) (id : UInt64) (vec : Vec) (metadata : Bytes)
    (level l : Nat) : (s.append id vec metadata level).Unlinked s.graph.length l := by
  constructor
  · rw [links_append]
    exact links_of_length_le le_rfl l
  · intro x hx
    rw [links_append] at hx
    exact lt_irrefl _ (h.lt_length hx)

end Descent

end HNSWIndex

end NeuralDb
