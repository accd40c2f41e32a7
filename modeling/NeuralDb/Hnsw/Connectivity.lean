import NeuralDb.Hnsw.Bounded
import NeuralDb.Hnsw.Invariant
import NeuralDb.Hnsw.LayerSearch

/-! When the bottom layer stays connected: as long as no call drops one of its links. -/

namespace NeuralDb

namespace HNSWIndex

/-- From `s` to `t` no link of the bottom layer is dropped: the old lists keep their entries, and the
nodes that the new node links to link back. -/
structure KeepsLinks (s t : HNSWIndex) : Prop where
  old : ∀ x, ∀ y ∈ s.links 0 x, y ∈ t.links 0 x
  back : ∀ y ∈ t.links 0 s.numVectors, s.numVectors ∈ t.links 0 y

/-- Every node reaches every other one along the links of the bottom layer. -/
def Connected (s : HNSWIndex) : Prop := ∀ x < s.numVectors, ∀ y < s.numVectors, s.Reaches 0 x y

section Insert

variable {σ : Type} [LinearOrder σ] (rt : Runtime σ) {s : HNSWIndex}

theorem links_backLinks_room (lc q : Nat) {x : Nat} (nbs : List Nat) {s : HNSWIndex} (hnodup : nbs.Nodup)
    (hnbs : ∀ nb ∈ nbs, nb < s.graph.length) (hx : x ∈ nbs)
    (hroom : ((s.links lc x).length + 1 : Int) ≤ s.maxLinks lc) :
    links (HNSWIndex.backLinks (m := Id) rt rawAccess lc q nbs s) lc x = s.links lc x ++ [q] := by
  induction nbs generalizing s with
  | nil => exact absurd hx List.not_mem_nil
  | cons nb nbs ih =>
    obtain ⟨hnot, htail⟩ := List.nodup_cons.mp hnodup
    have hnb := hnbs nb List.mem_cons_self
    let t := HNSWIndex.backLink (m := Id) rt s.rawAccess s lc q nb
    have hgraph : Regraphed s t := regraphed_backLink rt s lc q nb
    have hrest : ∀ y ∈ nbs, y < t.graph.length :=
      fun y hy => hgraph.graph_length ▸ hnbs y (List.mem_cons_of_mem nb hy)
    change links (HNSWIndex.backLinks (m := Id) rt rawAccess lc q nbs t) lc x = _
    rcases List.mem_cons.mp hx with rfl | hx
    · -- the calls that follow leave the list of this neighbour alone
      rw [links_backLinks_of_notMem rt lc q lc nbs hrest hnot]
      exact links_backLink_room rt lc q hnb hroom
    · have hne : nb ≠ x := fun he => hnot (he ▸ hx)
      have hsame : t.links lc x = s.links lc x := links_backLink_of_ne rt lc q hnb lc hne
      have hmax : t.maxLinks lc = s.maxLinks lc := by
        rw [hgraph.frame]
        rfl
      rw [ih htail hrest hx (by rwa [hsame, hmax]), hsame]

/-- The bottom layer after a later insert: the new node `q` got a list of old nodes, only the lists of
these changed, and those with room took `q`. -/
theorem Inv.insertRaw_bottom (h : s.Inv) (h0 : s.numVectors ≠ 0) (id : UInt64) (vec : Vec) (metadata : Bytes)
    (level : Nat) :
    let t := s.insertRaw rt id vec metadata level
    let nbs := t.links 0 s.numVectors
    (0 < s.cfg.M → nbs ≠ []) ∧ (∀ nb ∈ nbs, nb < s.numVectors) ∧
      (∀ x < s.numVectors, x ∉ nbs → t.links 0 x = s.links 0 x) ∧
      ∀ x ∈ nbs, ((s.links 0 x).length + 1 : Int) ≤ s.maxLinks 0 →
        t.links 0 x = s.links 0 x ++ [s.numVectors] := by
  intro t nbs
  obtain ⟨n, ep, hstart, heq⟩ := h.linkStart rt h0 id vec metadata level
  obtain ⟨n, rfl⟩ := Nat.exists_eq_succ_of_ne_zero hstart.pos.ne'
  let a := s.append id vec metadata level
  let q := s.numVectors
  have hq : n + 1 ≤ a.layers q := hstart.layers_new ▸ hstart.le
  -- layer 0 is linked last: `u` is the index before it, and `ls` the list that `q` gets there
  obtain ⟨u, ls, hu, hls, hnodup, hmem, hset, hlast⟩ :=
    hstart.ok.linkLayers_last rt vec n hq (fun l _ => hstart.free l) hstart.layers_ep hstart.ep_ne
  have hgraph : u.graph.length = s.numVectors + 1 := by
    rw [hu.graph_length]
    simp [HNSWIndex.append, h.graph_length]
  have hlt : ∀ nb ∈ ls, nb < s.numVectors := by
    intro nb hnb
    have hlayer := lt_graph_length (hmem nb hnb).1
    have hne := (hmem nb hnb).2
    rw [← hu.graph_length, hgraph] at hlayer
    omega
  have hlen : ∀ nb ∈ ls, nb < (u.setLinks 0 q ls).graph.length := by
    intro nb hnb
    rw [setLinks_graph_length, hgraph]
    exact Nat.lt_succ_of_lt (hlt nb hnb)
  have hqs : q ∉ ls := fun hmem => lt_irrefl q (hlt q hmem)
  have ht : t.links = links (HNSWIndex.backLinks (m := Id) rt rawAccess 0 q ls (u.setLinks 0 q ls)) := by
    rw [← hlast, show t = _ from heq, raise_links]
  have hlinks : ∀ x, x ≠ q → (u.setLinks 0 q ls).links 0 x = s.links 0 x := by
    intro x hx
    rw [links_setLinks, if_neg fun hc => hx hc.1.symm, hu.links_eq 0 (fun hc => hc rfl), links_append]
  have hnbs : nbs = ls := by
    change t.links 0 q = ls
    rw [ht, links_backLinks_of_notMem rt 0 q 0 ls hlen hqs]
    refine links_setLinks_self ?_ ls
    rw [hu.layers_eq]
    exact Nat.lt_of_lt_of_le (Nat.succ_pos n) hq
  rw [hnbs]
  refine ⟨hls, hlt, fun x hx hxs => ?_, fun x hx hroom => ?_⟩
  · rw [ht, links_backLinks_of_notMem rt 0 q 0 ls hlen hxs]
    exact hlinks x hx.ne
  · have hsame := hlinks x (hlt x hx).ne
    have hmax : (u.setLinks 0 q ls).maxLinks 0 = s.maxLinks 0 := hu.maxLinks_eq 0
    rw [ht, links_backLinks_room rt 0 q ls hnodup hlen hx (by rwa [hsame, hmax]), hsame]

theorem Inv.insertRaw_keepsLinks (h : s.Inv) (id : UInt64) (vec : Vec) (metadata : Bytes) (level : Nat)
    (hroom : (s.numVectors : Int) ≤ s.maxLinks 0) : KeepsLinks s (s.insertRaw rt id vec metadata level) := by
  by_cases h0 : s.numVectors = 0
  · have hgraph : s.graph.length = 0 := h.graph_length.trans h0
    rw [insertRaw_first rt h0]
    constructor
    · intro x y hy
      rwa [links_append]
    · intro y hy
      rw [links_append] at hy
      exact absurd (lt_length_of_mem_links hy) (hgraph ▸ Nat.not_lt_zero _)
  · obtain ⟨-, hlt, hold, hnew⟩ := h.insertRaw_bottom rt h0 id vec metadata level
    -- a list without its own node and without repetition leaves room in a small graph
    have hfits : ∀ x < s.numVectors, ((s.links 0 x).length + 1 : Int) ≤ s.maxLinks 0 := by
      intro x hx
      have hnodup : (x :: s.links 0 x).Nodup := List.nodup_cons.mpr ⟨h.self_free 0 x, h.nodup 0 x⟩
      have hlen := length_le_of_lt hnodup (n := s.numVectors) fun y hy => by
        rcases List.mem_cons.mp hy with rfl | hy
        · exact hx
        · exact h.lt_numVectors (h.in_layer 0 x y hy)
      rw [List.length_cons] at hlen
      omega
    constructor
    · intro x y hy
      have hx : x < s.numVectors := h.graph_length ▸ lt_length_of_mem_links hy
      by_cases hmem : x ∈ (s.insertRaw rt id vec metadata level).links 0 s.numVectors
      · rw [hnew x hmem (hfits x hx)]
        exact List.mem_append_left _ hy
      · rwa [hold x hx hmem]
    · intro y hy
      rw [hnew y hy (hfits y (hlt y hy))]
      exact List.mem_append_right _ (List.mem_singleton.mpr rfl)

/-- An insert that drops no link hangs its node onto a connected graph in both directions. -/
theorem Inv.insertRaw_connected (h : s.Inv) (hM : 0 < s.cfg.M) (hconn : s.Connected) (id : UInt64) (vec : Vec)
    (metadata : Bytes) (level : Nat) (hkeep : KeepsLinks s (s.insertRaw rt id vec metadata level)) :
    (s.insertRaw rt id vec metadata level).Connected := by
  let t := s.insertRaw rt id vec metadata level
  have hnum : t.numVectors = s.numVectors + 1 := (insertRaw_table rt s id vec metadata level).numVectors_eq
  have hold : ∀ x < s.numVectors, ∀ y < s.numVectors, t.Reaches 0 x y :=
    fun x hx y hy => Relation.ReflTransGen.mono hkeep.old _ _ (hconn x hx y hy)
  by_cases h0 : s.numVectors = 0
  · intro x hx y hy
    have hx : x < s.numVectors + 1 := hnum ▸ hx
    have hy : y < s.numVectors + 1 := hnum ▸ hy
    obtain rfl : x = y := by omega
    exact .refl
  · obtain ⟨hne, hlt, -, -⟩ := h.insertRaw_bottom rt h0 id vec metadata level
    obtain ⟨nb, hnb⟩ := List.exists_mem_of_ne_nil _ (hne hM)
    have hto : t.Reaches 0 s.numVectors nb := .single hnb
    have hfrom : t.Reaches 0 nb s.numVectors := .single (hkeep.back nb hnb)
    have hnew : ∀ x < t.numVectors, t.Reaches 0 x nb ∧ t.Reaches 0 nb x := by
      intro x hx
      rcases Nat.lt_succ_iff_lt_or_eq.mp (hnum ▸ hx) with hx | rfl
      · exact ⟨hold x hx nb (hlt nb hnb), hold nb (hlt nb hnb) x hx⟩
      · exact ⟨hto, hfrom⟩
    exact fun x hx y hy => (hnew x hx).1.trans (hnew y hy).2

end Insert

section Runs

variable {σ : Type} [LinearOrder σ] (rt : Runtime σ) {dim : Nat}

/-- No call of the history drops a link of the bottom layer. -/
def Unpruned (cfg : HNSWConfig) (ops : List (Op dim)) : Prop :=
  ∀ pre op, pre ++ [op] <+: ops → KeepsLinks (run rt cfg pre) (run rt cfg (pre ++ [op]))

variable {rt} {cfg : HNSWConfig} {ops : List (Op dim)}

theorem deleteVector_frame (s : HNSWIndex) (id : UInt64) :
    s.deleteVector id = { s with tombstone := (s.deleteVector id).tombstone } := by
  unfold HNSWIndex.deleteVector
  split <;> rfl

theorem Unpruned.connected (hM : 0 < cfg.M) (h : Unpruned rt cfg ops) : (run rt cfg ops).Connected := by
  induction ops using List.reverseRecOn with
  | nil => exact fun x hx => absurd hx (Nat.not_lt_zero x)
  | append_singleton ops op ih =>
    have hconn := ih fun pre op' hpre => h pre op' (hpre.trans (List.prefix_append ops [op]))
    have hkeep := h ops op (List.prefix_refl _)
    rw [run_concat] at hkeep ⊢
    cases op with
    | insert id vec metadata level =>
      exact (inv_run rt cfg ops).insertRaw_connected rt (by rwa [run_cfg]) hconn id vec metadata level hkeep
    | delete id =>
      rw [HNSWIndex.step, deleteVector_frame]
      exact hconn

theorem run_numVectors (rt : Runtime σ) (cfg : HNSWConfig) (ops : List (Op dim)) :
    (run rt cfg ops).numVectors = (runSlots ops).length := by
  rw [← slots_length, (aligned_run rt cfg ops).2]

theorem runSlots_length_le {pre : List (Op dim)} (h : pre <+: ops) : (runSlots pre).length ≤ (runSlots ops).length := by
  obtain ⟨post, rfl⟩ := h
  induction post using List.reverseRecOn with
  | nil => rw [List.append_nil]
  | append_singleton post op ih =>
    refine ih.trans ?_
    rw [← List.append_assoc, runSlots_concat]
    cases op with
    | insert id vec metadata level => simp [stepSlots]
    | delete id => exact (markFirst_length id _).ge

/-- Up to `2 * M + 1` slots no list of the bottom layer overflows. -/
theorem unpruned_small (h : ((run rt cfg ops).numVectors : Int) ≤ 2 * cfg.M + 1) : Unpruned rt cfg ops := by
  intro pre op hpre
  have hs := inv_run rt cfg pre
  have hle := runSlots_length_le hpre
  rw [← run_numVectors rt cfg, ← run_numVectors rt cfg] at hle
  rw [run_concat] at hle ⊢
  cases op with
  | insert id vec metadata level =>
    have hnum : ((run rt cfg pre).insertRaw rt id vec metadata level).numVectors = (run rt cfg pre).numVectors + 1 :=
      (insertRaw_table rt _ id vec metadata level).numVectors_eq
    apply hs.insertRaw_keepsLinks rt
    rw [maxLinks, if_pos rfl, run_cfg]
    simp only [HNSWIndex.step, hnum] at hle
    omega
  | delete id =>
    rw [HNSWIndex.step, deleteVector_frame]
    refine ⟨fun _ _ hy => hy, fun y hy => ?_⟩
    have hlt : (run rt cfg pre).numVectors < (run rt cfg pre).graph.length := lt_length_of_mem_links hy
    exact absurd hlt (hs.graph_length ▸ lt_irrefl _)

end Runs

end HNSWIndex

end NeuralDb
