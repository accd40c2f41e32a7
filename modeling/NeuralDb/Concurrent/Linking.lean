import NeuralDb.Concurrent.Steps
import NeuralDb.Library.Groups
import NeuralDb.Hnsw.Bounded
import NeuralDb.Hnsw.Invariant

/-! The link lists under concurrent inserts. An insert can meet nodes whose own inserts have not reached
the layer yet, and can itself be met there before it links. The nodes that link to such a node form a group
apart, which its insert does not see when it searches the layer. -/

namespace NeuralDb

open Library HNSWIndex

namespace Concurrent

variable {σ : Type} [LinearOrder σ]

def onLayer (s : HNSWIndex) (l x : Nat) : Prop := l < s.layers x

theorem onLayer_setLinks (s : HNSWIndex) (l x : Nat) (ls : List Nat) :
    onLayer (s.setLinks l x ls) = onLayer s := by
  funext k y
  rw [onLayer, layers_setLinks, onLayer]

/-- The entry point waits nowhere, and from its own layer up it is the head of its group. -/
structure EntryOk (γ : Groups Nat) (s : HNSWIndex) : Prop where
  maxLayer_ge : 0 ≤ s.maxLayer
  layers : s.maxLayer < s.layers s.entryPoint
  settled : ∀ l, ¬ γ.pending l s.entryPoint
  head : ∀ l : Nat, s.maxLayer ≤ l → γ.group l s.entryPoint = s.entryPoint

/-- Links stay inside the groups. -/
structure Grouped (γ : Groups Nat) (s : HNSWIndex) : Prop extends s.LinksOk, γ.Coherent (onLayer s) where
  graph_length : s.graph.length = s.numVectors
  same : ∀ l x, ∀ y ∈ s.links l x, γ.group l y = γ.group l x
  pending_lt : ∀ l q, γ.pending l q → q < s.numVectors
  unused : ∀ n, s.numVectors ≤ n → ∀ l x, γ.group l x = n ↔ x = n
  entry : 0 < s.numVectors → EntryOk γ s

/-- A node that a search of layer `lc` from `ep` can meet. -/
def Near (γ : Groups Nat) (s : HNSWIndex) (lc ep y : Nat) : Prop :=
  lc < s.layers y ∧ γ.group lc y = γ.group lc ep

/-- The node `q` searches layer `lc` from `ep`. -/
structure Searching (γ : Groups Nat) (s : HNSWIndex) (lc q ep : Nat) : Prop where
  entry_layer : lc < s.layers ep
  join : γ.CanJoin (onLayer s) lc q ep

/-- The linking loop of `q` is at layer `lc`: below, and above the top layer it found, it has no links. -/
structure Round (γ : Groups Nat) (level : Nat) (curMax : Int) (lc q : Nat) : Prop where
  le_level : lc ≤ level
  le_curMax : (lc : Int) ≤ curMax
  waiting : ∀ l : Nat, l < lc ∨ curMax < l → γ.pending l q

/-- The back-link loop of layer `lc`, with the neighbours still to come. -/
structure LinkingBack (γ : Groups Nat) (s : HNSWIndex) (lc q ep : Nat) (cands : List (σ × Nat))
    (nbs : List Nat) : Prop where
  met : ∀ x, x = ep ∨ x ∈ cands.map Prod.snd →
    ¬ γ.Hidden x ∧ lc < s.layers x ∧ ∀ l, l + 1 = lc → γ.Behind l q x
  nodup : nbs.Nodup
  nbs : ∀ nb ∈ nbs, lc < s.layers nb ∧ nb ≠ q ∧ γ.group lc nb = γ.group lc q ∧ q ∉ s.links lc nb

def InsertPc.Ok (γ : Groups Nat) (s : HNSWIndex) (f : InsertFrame σ) : InsertPc σ → Prop
  | .append => False
  | .entry => γ.Hidden f.q
  | .descend lc pc => f.level < lc ∧ (lc : Int) ≤ f.curMax ∧ γ.Hidden f.q ∧ Searching γ s lc f.q f.ep ∧
      pc.Within (Near γ s lc f.ep)
  | .link lc pc => Round γ f.level f.curMax lc f.q ∧ Searching γ s lc f.q f.ep ∧
      pc.Within (Near γ s lc f.ep)
  | .assign lc cands => Round γ f.level f.curMax lc f.q ∧ Searching γ s lc f.q f.ep ∧
      (cands.map Prod.snd).Nodup ∧ ∀ c ∈ cands, Near γ s lc f.ep c.2
  | .back lc cands nbs => Round γ f.level f.curMax lc f.q ∧ LinkingBack γ s lc f.q f.ep cands nbs
  | .raise => ∀ l : Nat, f.curMax < l → γ.pending l f.q

/-- An insert that has appended its vector. -/
structure InsertFrame.Ok (γ : Groups Nat) (s : HNSWIndex) (f : InsertFrame σ) : Prop where
  layers : s.layers f.q = f.level + 1
  curMax : f.pc = .entry ∨ 0 ≤ f.curMax ∧ f.curMax ≤ s.maxLayer
  pc : f.pc.Ok γ s f

section Carry

variable {γ γ' : Groups Nat} {s s' : HNSWIndex} {q : Nat}

/-- What a step of others leaves to the insert of `q`. -/
structure Carries (γ γ' : Groups Nat) (s s' : HNSWIndex) (q : Nat) : Prop where
  layers : ∀ l x, l < s.layers x → s'.layers x = s.layers x
  maxLayer : s.maxLayer ≤ s'.maxLayer
  pending : ∀ l, γ.pending l q → γ'.pending l q
  seen : ∀ l x, l < s.layers x → ¬ γ.Hidden x → ¬ γ'.Hidden x
  group : ∀ l x y, γ.group l x = γ.group l y → γ'.group l x = γ'.group l y
  join : ∀ l x, l < s.layers x → γ.CanJoin (onLayer s) l q x → γ'.CanJoin (onLayer s') l q x
  behind : ∀ l x, l < s.layers x → ¬ γ.Hidden x → γ.Behind l q x → γ'.Behind l q x
  links : ∀ l x, γ.group l x = γ.group l q → q ∉ s.links l x → q ∉ s'.links l x

theorem carries_refl (γ : Groups Nat) (s : HNSWIndex) (q : Nat) : Carries γ γ s s q :=
  ⟨fun _ _ _ => rfl, le_rfl, fun _ hl => hl, fun _ _ _ hx => hx, fun _ _ _ hxy => hxy, fun _ _ _ hj => hj,
    fun _ _ _ _ hb => hb, fun _ _ _ hnew => hnew⟩

omit [LinearOrder σ] in
theorem Carries.near (h : Carries γ γ' s s' q) {lc ep y : Nat} (hy : Near γ s lc ep y) :
    Near γ' s' lc ep y :=
  ⟨(h.layers lc y hy.1).symm ▸ hy.1, h.group lc y ep hy.2⟩

theorem Carries.round (h : Carries γ γ' s s' q) {level : Nat} {curMax : Int} {lc : Nat}
    (hr : Round γ level curMax lc q) : Round γ' level curMax lc q :=
  ⟨hr.le_level, hr.le_curMax, fun l hl => h.pending l (hr.waiting l hl)⟩

theorem Carries.frame {f : InsertFrame σ} (h : Carries γ γ' s s' f.q) (hf : f.Ok γ s) : f.Ok γ' s' := by
  have hlayer : ∀ {l x}, l < s.layers x → l < s'.layers x := fun hx => (h.layers _ _ hx).symm ▸ hx
  have hsearching : ∀ {lc}, Searching γ s lc f.q f.ep → Searching γ' s' lc f.q f.ep := fun hs =>
    ⟨hlayer hs.entry_layer, h.join _ _ hs.entry_layer hs.join⟩
  refine ⟨?_, hf.curMax.imp_right fun hc => ⟨hc.1, hc.2.trans h.maxLayer⟩, ?_⟩
  · rw [h.layers f.level f.q (hf.layers.symm ▸ Nat.lt_succ_self _), hf.layers]
  have hpc := hf.pc
  cases hpc' : f.pc with rw [hpc'] at hpc
  | append => exact hpc
  | entry => exact fun l => h.pending l (hpc l)
  | descend lc pc =>
    obtain ⟨hlevel, hmax, hhidden, hsearch, hwithin⟩ := hpc
    exact ⟨hlevel, hmax, fun l => h.pending l (hhidden l), hsearching hsearch, hwithin.mono fun _ => h.near⟩
  | link lc pc =>
    obtain ⟨hround, hsearch, hwithin⟩ := hpc
    exact ⟨h.round hround, hsearching hsearch, hwithin.mono fun _ => h.near⟩
  | assign lc cands =>
    obtain ⟨hround, hsearch, hnodup, hcands⟩ := hpc
    exact ⟨h.round hround, hsearching hsearch, hnodup, fun c hc => h.near (hcands c hc)⟩
  | back lc cands nbs =>
    obtain ⟨hround, hback⟩ := hpc
    refine ⟨h.round hround, fun x hx => ?_, hback.nodup, fun nb hnb => ?_⟩
    · obtain ⟨hseen, hx, hbehind⟩ := hback.met x hx
      refine ⟨h.seen lc x hx hseen, hlayer hx, fun l hl => ?_⟩
      exact h.behind l x (lt_of_le_of_lt (hl ▸ Nat.le_succ l) hx) hseen (hbehind l hl)
    · obtain ⟨hlt, hne, hgroup, hnew⟩ := hback.nbs nb hnb
      exact ⟨hlayer hlt, hne, h.group lc nb f.q hgroup, h.links lc nb hgroup hnew⟩
  | raise => exact fun l hl => h.pending l (hpc l hl)

end Carry

section Index

variable {γ : Groups Nat} {s : HNSWIndex}

theorem Grouped.lt (h : Grouped γ s) {l x : Nat} (hx : l < s.layers x) : x < s.numVectors :=
  h.graph_length ▸ lt_graph_length hx

theorem grouped_new (dim : Nat) (cfg : HNSWConfig) :
    Grouped ⟨fun _ x => x, fun _ _ => 0, fun _ _ => False⟩ (new dim cfg) where
  toLinksOk := (inv_new dim cfg).toLinksOk
  own _ _ hq := hq.elim
  alone _ hq _ _ _ := (hq 0).elim
  nested _ _ _ hp := hp.elim
  bounded _ := ⟨1, fun _ => Nat.one_pos⟩
  graph_length := rfl
  same _ _ _ hy := absurd hy List.not_mem_nil
  pending_lt _ _ hq := hq.elim
  unused _ _ _ _ := Iff.rfl
  entry hpos := absurd hpos (lt_irrefl 0)

theorem Grouped.layers_append (h : Grouped γ s) (id : UInt64) (vec : Vec) (metadata : Bytes) (level : Nat)
    {x : Nat} (hx : x ≠ s.numVectors) : (s.append id vec metadata level).layers x = s.layers x := by
  rw [HNSWIndex.layers_append, h.graph_length, if_neg hx]

theorem Grouped.append_first (h : Grouped γ s) (h0 : s.numVectors = 0) (id : UInt64) (vec : Vec)
    (metadata : Bytes) (level : Nat) : Grouped γ (s.append id vec metadata level) := by
  have hnone : ∀ l q, ¬ γ.pending l q := fun l q hq => absurd (h.pending_lt l q hq) (h0 ▸ Nat.not_lt_zero q)
  exact {
    toLinksOk := h.toLinksOk.append id vec metadata level
    own := h.own
    alone := h.alone
    nested := fun l x _ hp => absurd hp (hnone _ _)
    bounded := h.bounded
    graph_length := by simp [HNSWIndex.append, h.graph_length]
    same := fun l x y hy => h.same l x y (links_append s id vec metadata level l x ▸ hy)
    pending_lt := fun l q hq => absurd hq (hnone l q)
    unused := fun n hn => h.unused n (Nat.le_of_succ_le hn)
    entry := fun _ => {
      maxLayer_ge := by
        change 0 ≤ if s.numVectors = 0 then (level : Int) else s.maxLayer
        rw [if_pos h0]
        exact Int.natCast_nonneg level
      layers := by
        change (if s.numVectors = 0 then (level : Int) else s.maxLayer) <
          ((s.append id vec metadata level).layers (if s.numVectors = 0 then 0 else s.entryPoint) : Int)
        rw [if_pos h0, if_pos h0, HNSWIndex.layers_append, h.graph_length, if_pos h0.symm]
        exact_mod_cast Nat.lt_succ_self level
      settled := fun l => hnone l _
      head := fun l _ => by
        change γ.group l (if s.numVectors = 0 then 0 else s.entryPoint) = if s.numVectors = 0 then 0 else s.entryPoint
        rw [if_pos h0]
        exact (h.unused 0 h0.le l 0).mpr rfl } }

/-- A later vector is a newcomer. -/
theorem Grouped.append (h : Grouped γ s) (h0 : s.numVectors ≠ 0) (id : UInt64) (vec : Vec) (metadata : Bytes)
    (level : Nat) : Grouped (γ.enter s.numVectors) (s.append id vec metadata level) := by
  have hentry := h.entry (Nat.pos_of_ne_zero h0)
  have hlt : s.entryPoint < s.numVectors := by
    have hlayers := hentry.layers
    have hge := hentry.maxLayer_ge
    exact h.lt (l := 0) (by omega)
  have hpoint : (s.append id vec metadata level).entryPoint = s.entryPoint := if_neg h0
  have hmax : (s.append id vec metadata level).maxLayer = s.maxLayer := if_neg h0
  exact {
    toLinksOk := h.toLinksOk.append id vec metadata level
    toCoherent := h.toCoherent.enter (h.unused _ le_rfl) fun l x hx hon => by
      rwa [onLayer, h.layers_append id vec metadata level hx] at hon
    graph_length := by simp [HNSWIndex.append, h.graph_length]
    same := fun l x y hy => h.same l x y (links_append s id vec metadata level l x ▸ hy)
    pending_lt := fun l q hq => by
      rcases hq with hq | rfl
      · exact Nat.lt_succ_of_lt (h.pending_lt l q hq)
      · exact Nat.lt_succ_self _
    unused := fun n hn => h.unused n (Nat.le_of_succ_le hn)
    entry := fun _ => {
      maxLayer_ge := hmax ▸ hentry.maxLayer_ge
      layers := by
        rw [hmax, hpoint, h.layers_append id vec metadata level hlt.ne]
        exact hentry.layers
      settled := fun l hl => by
        rw [hpoint] at hl
        exact hl.elim (hentry.settled l) hlt.ne
      head := fun l hl => by
        rw [hmax] at hl
        rw [hpoint]
        exact hentry.head l hl } }

theorem Grouped.carries_append (h : Grouped γ s) (h0 : s.numVectors ≠ 0) (id : UInt64) (vec : Vec)
    (metadata : Bytes) (level : Nat) {q : Nat} (hq : q < s.numVectors) :
    Carries γ (γ.enter s.numVectors) s (s.append id vec metadata level) q where
  layers l x hx := h.layers_append id vec metadata level (h.lt hx).ne
  maxLayer := (if_neg h0 : (if s.numVectors = 0 then (level : Int) else s.maxLayer) = s.maxLayer).ge
  pending l hl := .inl hl
  seen l x hx hseen hc := hseen (hc.of_enter (h.lt hx).ne)
  group l x y hxy := hxy
  join l x hx hj := hj.enter (h.unused _ le_rfl) (h.lt hx).ne
    (by rw [onLayer, h.layers_append id vec metadata level hq.ne, onLayer])
  behind l x hx _ hb := hb.enter (h.unused _ le_rfl) (h.lt hx).ne
  links l x _ hnew := by rwa [links_append]

theorem Grouped.setLinks (h : Grouped γ s) {l x : Nat} {ls : List Nat} (hok : (s.setLinks l x ls).LinksOk)
    (hsame : ∀ y ∈ ls, γ.group l y = γ.group l x) : Grouped γ (s.setLinks l x ls) where
  toLinksOk := hok
  toCoherent := (onLayer_setLinks s l x ls).symm ▸ h.toCoherent
  graph_length := (setLinks_graph_length s l x ls).trans h.graph_length
  same := forall_links_setLinks (P := fun k y ls => ∀ z ∈ ls, γ.group k z = γ.group k y) h.same hsame
  pending_lt := h.pending_lt
  unused := h.unused
  entry hpos := by
    have hentry := h.entry hpos
    refine ⟨hentry.maxLayer_ge, ?_, hentry.settled, hentry.head⟩
    rw [layers_setLinks]
    exact hentry.layers

theorem Grouped.join (h : Grouped γ s) {lc q ep : Nat} (hj : γ.CanJoin (onLayer s) lc q ep)
    (hep : lc < s.layers ep) (b : Nat) : Grouped (γ.join lc q ep b) s where
  toLinksOk := h.toLinksOk
  toCoherent := h.toCoherent.join hj b
  graph_length := h.graph_length
  same l x y hy := Groups.join_group_congr (h.same l x y hy)
  pending_lt l p hp := h.pending_lt l p hp.1
  unused n hn l x := by
    by_cases hc : l = lc ∧ γ.group l x = q
    · obtain ⟨rfl, hx⟩ := hc
      have hq : q < s.numVectors := h.pending_lt l q hj.pending
      rw [Groups.join_group_self hx, h.unused n hn]
      refine ⟨fun he => absurd (h.lt hep) (he ▸ not_lt.mpr hn), fun hxn => ?_⟩
      have hqn : q = n := hx.symm.trans ((h.unused n hn l x).mpr hxn)
      exact absurd hq (hqn ▸ not_lt.mpr hn)
    · rw [Groups.join_group_of_not hc]
      exact h.unused n hn l x
  entry hpos := by
    have hentry := h.entry hpos
    refine ⟨hentry.maxLayer_ge, hentry.layers, fun l hl => hentry.settled l hl.1, fun l hl => ?_⟩
    have hhead := hentry.head l hl
    rw [Groups.join_group_of_not fun hc => ?_, hhead]
    have hq : s.entryPoint = q := hhead.symm.trans hc.2
    exact hentry.settled lc (hq ▸ hj.pending)

/-- The assignment of a list to a node that joins: what its search has met is all outside of its group. -/
theorem Grouped.assign (h : Grouped γ s) {lc q ep : Nat} (hj : γ.CanJoin (onLayer s) lc q ep)
    (hep : lc < s.layers ep) {ls : List Nat} (hnodup : ls.Nodup) (hls : ∀ y ∈ ls, Near γ s lc ep y)
    (hlen : ls.length ≤ (s.maxLinks lc).toNat) (b : Nat) :
    Grouped (γ.join lc q ep b) (s.setLinks lc q ls) ∧
      ∀ p, p ≠ q → Carries γ (γ.join lc q ep b) s (s.setLinks lc q ls) p := by
  have hown := h.own lc q hj.pending
  have hapart : ∀ y ∈ ls, γ.group lc y ≠ q := fun y hy hc => hj.apart ((hls y hy).2.symm.trans hc)
  have hself : q ∉ ls := fun hq => hapart q hq hown
  refine ⟨(h.join hj hep b).setLinks ?_ fun y hy => ?_, fun p hp => ?_⟩
  · exact h.toLinksOk.setLinks hself hnodup (fun y hy => (hls y hy).1) hlen
  · rw [Groups.join_group_of_not fun hc => hapart y hy hc.2, Groups.join_group_self hown]
    exact (hls y hy).2
  · exact {
      layers := fun l x _ => layers_setLinks s lc q ls x
      maxLayer := le_rfl
      pending := fun l hl => (Groups.join_pending_other hp).mpr hl
      seen := fun l x _ hseen hc => hseen hc.of_join.2
      group := fun l x y hxy => Groups.join_group_congr hxy
      join := fun l x _ hjoin => by
        rw [onLayer_setLinks]
        exact hj.other h.toCoherent hjoin hp b
      behind := fun l x _ hseen hb => hb.join h.toCoherent hj hseen b
      links := fun l x hgroup hnew => by
        rw [links_setLinks]
        split_ifs with hc
        · -- `p` shares the group of `q`, and the list leads out of it
          obtain ⟨rfl, rfl, -⟩ := hc
          exact fun hpls => hapart p hpls (hgroup.symm.trans hown)
        · exact hnew }

theorem Grouped.backLink {σ : Type} [LinearOrder σ] (rt : Runtime σ) (h : Grouped γ s) {lc q nb : Nat}
    (hq : lc < s.layers q) (hnb : lc < s.layers nb) (hne : nb ≠ q) (hgroup : γ.group lc nb = γ.group lc q)
    (hnew : q ∉ s.links lc nb) :
    Grouped γ (HNSWIndex.backLink (m := Id) rt s.rawAccess s lc q nb) ∧
      ∀ p, p ≠ q → Carries γ γ s (HNSWIndex.backLink (m := Id) rt s.rawAccess s lc q nb) p := by
  obtain ⟨ls, heq, hok, hmem⟩ := h.toLinksOk.backLink rt hq hnb hne hnew
  rw [heq]
  refine ⟨h.setLinks hok fun y hy => ?_, fun p hp => ?_⟩
  · rcases hmem y hy with hy | rfl
    · exact h.same lc nb y hy
    · exact hgroup.symm
  · exact {
      layers := fun l x _ => layers_setLinks s lc nb ls x
      maxLayer := le_rfl
      pending := fun l hl => hl
      seen := fun l x _ hseen => hseen
      group := fun l x y hxy => hxy
      join := fun l x _ hjoin => by rwa [onLayer_setLinks]
      behind := fun l x _ _ hb => hb
      links := fun l x _ hnew => by
        rw [links_setLinks]
        split_ifs with hc
        · obtain ⟨rfl, rfl, -⟩ := hc
          exact fun hpls => (hmem p hpls).elim hnew hp
        · exact hnew }

theorem Grouped.raise (h : Grouped γ s) {q level : Nat} {curMax : Int} (hlayers : s.layers q = level + 1)
    (hcurMax : curMax ≤ s.maxLayer) (hq : ∀ l : Nat, curMax < l → γ.pending l q) :
    Grouped (γ.leave q) (s.raise q level) ∧
      ∀ p, p ≠ q → Carries γ (γ.leave q) s (s.raise q level) p := by
  have hlt : q < s.numVectors := h.lt (l := 0) (hlayers ▸ Nat.succ_pos level)
  have hnum : (s.raise q level).numVectors = s.numVectors := (sameTable_raise s q level).numVectors_eq
  have hon : onLayer (s.raise q level) = onLayer s := by
    funext k y
    rw [onLayer, raise_layers, onLayer]
  refine ⟨?_, fun p hp => ?_⟩
  · exact {
      toLinksOk := h.toLinksOk.raise q level
      toCoherent := hon ▸ h.toCoherent.leave q
      graph_length := ((sameTable_raise s q level).graph_length.trans h.graph_length).trans hnum.symm
      same := by
        rw [raise_links]
        exact h.same
      pending_lt := fun l p hp => hnum ▸ h.pending_lt l p hp.1
      unused := hnum ▸ h.unused
      entry := fun _ => by
        have hentry := h.entry (Nat.zero_lt_of_lt hlt)
        unfold HNSWIndex.raise
        split_ifs with hmax
        · -- above the layer at which its insert began, `q` has stayed alone
          refine ⟨Int.natCast_nonneg level, ?_, fun l hl => hl.2 rfl, fun l hl => ?_⟩
          · change (level : Int) < (s.layers q : Int)
            rw [hlayers]
            exact_mod_cast Nat.lt_succ_self level
          · have hl : (level : Int) ≤ l := hl
            exact h.own l q (hq l (by omega))
        · exact ⟨hentry.maxLayer_ge, hentry.layers, fun l hl => hentry.settled l hl.1, hentry.head⟩ }
  · exact {
      layers := fun l x _ => by rw [raise_layers]
      maxLayer := by
        rw [raise_maxLayer]
        exact le_max_left _ _
      pending := fun l hl => ⟨hl, hp⟩
      seen := fun l x _ hseen hc => hseen fun k => (hc k).1
      group := fun l x y hxy => hxy
      join := fun l x _ hjoin => hon ▸ hjoin.leave hp
      behind := fun l x _ _ hb => hb.leave
      links := fun l x _ hnew => by rwa [raise_links] }

theorem Grouped.deleteVector (h : Grouped γ s) (id : UInt64) : Grouped γ (s.deleteVector id) ∧
    ∀ p, Carries γ γ s (s.deleteVector id) p := by
  unfold HNSWIndex.deleteVector
  split
  · refine ⟨{ h with entry := fun hpos => ?_ }, fun p => ?_⟩
    · exact { h.entry hpos with }
    · exact { carries_refl γ s p with }
  · exact ⟨h, carries_refl γ s⟩

end Index

section Step

variable (rt : Runtime σ) {γ γ' : Groups Nat} {s s' : HNSWIndex} {f : InsertFrame σ} {lc q ep : Nat}

/-- What a step of an insert makes of the index, of the insert itself and of the others. -/
structure StepOk (γ γ' : Groups Nat) (s s' : HNSWIndex) (f : InsertFrame σ)
    (next : Option (InsertFrame σ)) : Prop where
  index : Grouped γ' s'
  frame : ∀ f', next = some f' → f'.Ok γ' s'
  fresh : f.pc = .append → ∀ f', next = some f' → f'.q = s.numVectors
  kept : f.pc ≠ .append → ∀ f', next = some f' → f'.q = f.q
  others : ∀ p, p < s.numVectors → (f.pc ≠ .append → p ≠ f.q) → Carries γ γ' s s' p

/-- A step that only the insert itself takes notice of. -/
theorem StepOk.quiet (hs : Grouped γ s) (hpc : f.pc ≠ .append) {f' : InsertFrame σ} (hf' : f'.Ok γ s)
    (hq : f'.q = f.q) : StepOk γ γ s s f (some f') where
  index := hs
  frame _ h := Option.some.inj h ▸ hf'
  fresh h := absurd h hpc
  kept _ _ h := Option.some.inj h ▸ hq
  others p _ _ := carries_refl γ s p

/-- A step within the loops, which changes the entry point at most. -/
theorem StepOk.moves (hs : Grouped γ s) (hf : f.Ok γ s) (hap : f.pc ≠ .append) (hen : f.pc ≠ .entry) {ep : Nat}
    {pc : InsertPc σ} (hpc : pc.Ok γ s { f with ep, pc }) : StepOk γ γ s s f (some { f with ep, pc }) :=
  .quiet hs hap ⟨hf.layers, .inr (hf.curMax.resolve_left hen), hpc⟩ rfl

theorem Grouped.near_closed (hs : Grouped γ s) :
    ∀ x, Near γ s lc ep x → ∀ y ∈ s.links lc x, Near γ s lc ep y :=
  fun x hx y hy => ⟨hs.in_layer lc x y hy, (hs.same lc x y hy).trans hx.2⟩

theorem Grouped.searching_entry (hs : Grouped γ s) (hq : q < s.numVectors) (hhidden : γ.Hidden q) :
    Searching γ s s.maxLayer.toNat q s.entryPoint := by
  have hentry := hs.entry (Nat.zero_lt_of_lt hq)
  have hge := hentry.maxLayer_ge
  have hhead : ∀ l, s.maxLayer.toNat ≤ l → γ.group l s.entryPoint = s.entryPoint :=
    fun l hl => hentry.head l (by omega)
  have hne : s.entryPoint ≠ q := fun he => hentry.settled 0 (he ▸ hhidden 0)
  refine ⟨?_, hhidden _, fun hc => hentry.settled 0 (hc 0), ?_, fun _ hp => ?_, fun hc => absurd hhidden hc⟩
  · have hlayers := hentry.layers
    omega
  · rwa [hhead _ le_rfl]
  · rw [hhead _ le_rfl, hhead _ (Nat.le_succ _)] at hp
    exact absurd hp (hentry.settled _)

/-- On its way down a newcomer never meets itself. -/
theorem Searching.down (h : Searching γ s lc q ep) (hs : Grouped γ s) (hhidden : γ.Hidden q) {y k : Nat}
    (hy : Near γ s lc ep y) (hk : k ≤ lc) (htop : s.layers q ≤ k + 1) : Searching γ s k q y where
  entry_layer := hk.trans_lt hy.1
  join := {
    pending := hhidden k
    seen := hs.seen h.join.seen hy.2
    apart := fun hc => by
      have hyq : y = q := hs.alone q hhidden k y hc
      exact h.join.apart (hy.2.symm.trans (hyq ▸ hs.own lc q (hhidden lc)))
    follows := fun hon => absurd hon (not_lt.mpr htop)
    behind := fun hc => absurd hhidden hc }

theorem linkPc_ok (h0 : 0 ≤ f.curMax) (hhidden : γ.Hidden f.q)
    (hsearch : Searching γ s (min (f.level : Int) f.curMax).toNat f.q f.ep) : f.linkPc.Ok γ s f := by
  have htop : (min (f.level : Int) f.curMax + 1).toNat = (min (f.level : Int) f.curMax).toNat + 1 := by omega
  rw [InsertFrame.linkPc, htop]
  exact ⟨⟨by omega, by omega, fun l _ => hhidden l⟩, hsearch, trivial⟩

theorem LinkingBack.down {cands : List (σ × Nat)} (h : LinkingBack γ s lc f.q f.ep cands [])
    (hround : Round γ f.level f.curMax lc f.q) (hlayers : s.layers f.q = f.level + 1) :
    (linkFrom lc).Ok γ s { f with ep := front cands f.ep } := by
  have hfront : front cands f.ep = f.ep ∨ front cands f.ep ∈ cands.map Prod.snd :=
    front_mem (P := fun x => x = f.ep ∨ x ∈ cands.map Prod.snd) (.inl rfl)
      fun c hc => .inr (List.mem_map_of_mem hc)
  obtain ⟨hseen, hlt, hbehind⟩ := h.met _ hfront
  cases lc with
  | zero => exact fun l hl => hround.waiting l (.inr hl)
  | succ k =>
    have hlevel := hround.le_level
    refine ⟨⟨Nat.le_of_succ_le hlevel, ?_, fun l hl => hround.waiting l ?_⟩, ⟨Nat.lt_of_succ_lt hlt, ?_⟩, trivial⟩
    · exact le_trans (by exact_mod_cast Nat.le_succ k) hround.le_curMax
    · exact hl.imp_left Nat.lt_succ_of_lt
    · apply (hbehind k rfl).canJoin (hround.waiting k (.inl (Nat.lt_succ_self k))) hseen
      show k + 1 < s.layers f.q
      rw [hlayers]
      exact Nat.lt_succ_of_le hlevel

/-- The region that assigns the list of `q`, and the back-link loop that it leaves to be run. -/
theorem assign_ok (hs : Grouped γ s) (hf : f.Ok γ s) {cands : List (σ × Nat)}
    (hpc : f.pc = .assign lc cands) :
    ∃ γ', StepOk γ γ' s (s.setLinks lc f.q (selectNeighbours rt cands s.cfg.M)) f
      (some { f with pc := .back lc cands (selectNeighbours rt cands s.cfg.M) }) := by
  have hok := hf.pc
  rw [hpc] at hok
  obtain ⟨hround, ⟨hep, hjoin⟩, hnodup, hcands⟩ := hok
  obtain ⟨hnbs, hnear⟩ := select_within rt s.cfg.M hnodup hcands
  -- the joined group ranks above all groups of the layer below
  obtain ⟨b, hb⟩ : ∃ b, ∀ l, l + 1 = lc → ∀ x, γ.rank l x < b := by
    cases lc with
    | zero => exact ⟨0, nofun⟩
    | succ k =>
      obtain ⟨b, hb⟩ := hs.bounded k
      exact ⟨b, fun l hl => Nat.succ_injective hl ▸ hb⟩
  have hlen := (selectNeighbours_length rt cands s.cfg.M).trans (maxLinks_ge s lc)
  obtain ⟨hs', hothers⟩ := hs.assign hjoin hep hnbs hnear hlen b
  have hown := hs.own lc f.q hjoin.pending
  -- all that the search met is in the group of `ep`, and `q` is still in its own
  have hapart : ∀ x, Near γ s lc f.ep x → γ.group lc x ≠ f.q :=
    fun x hx hc => hjoin.apart (hx.2.symm.trans hc)
  refine ⟨γ.join lc f.q f.ep b, hs', fun f' hf' => ?_, fun hc => ?_, ?_, ?_⟩
  · obtain rfl := Option.some.inj hf'
    refine ⟨(layers_setLinks _ _ _ _ _).trans hf.layers, .inr (hf.curMax.resolve_left (by simp [hpc])), ?_, ?_,
      hnbs, ?_⟩
    · refine ⟨hround.le_level, hround.le_curMax, fun l hl => ⟨hround.waiting l hl, fun hc => ?_⟩⟩
      have hl : l < lc ∨ f.curMax < l := hl
      have hlc := hc.1
      have hmax := hround.le_curMax
      omega
    · intro x hx
      have hx : Near γ s lc f.ep x := by
        rcases hx with rfl | hx
        · exact ⟨hep, rfl⟩
        · obtain ⟨c, hc, rfl⟩ := List.mem_map.mp hx
          exact hcands c hc
      refine ⟨fun hc => hs.seen hjoin.seen hx.2 hc.of_join.2, ?_, fun l hl => ?_⟩
      · exact (layers_setLinks s lc f.q _ x).symm ▸ hx.1
      · exact hjoin.joined hs.toCoherent hl (hb l hl) hx.1 hx.2
    · intro nb hnb
      have hx := hnear nb hnb
      have hne : nb ≠ f.q := fun he => hapart nb hx (he ▸ hown)
      refine ⟨(layers_setLinks s lc f.q _ nb).symm ▸ hx.1, hne, ?_, ?_⟩
      · rw [Groups.join_group_of_not fun hc => hapart nb hx hc.2, Groups.join_group_self hown, hx.2]
      · rw [links_setLinks, if_neg fun hc => hne hc.1.symm]
        exact fun hmem => hapart nb hx ((hs.same lc nb f.q hmem).symm.trans hown)
  · rw [hpc] at hc
    contradiction
  · intro _ f' hf'
    exact Option.some.inj hf' ▸ rfl
  · intro p _ hne
    exact hothers p (hne (by simp [hpc]))

theorem back_ok (hs : Grouped γ s) (hf : f.Ok γ s) {cands : List (σ × Nat)} {nb : Nat} {nbs : List Nat}
    (hpc : f.pc = .back lc cands (nb :: nbs)) :
    StepOk γ γ s (HNSWIndex.backLink (m := Id) rt s.rawAccess s lc f.q nb) f
      (some { f with pc := .back lc cands nbs }) := by
  have hok := hf.pc
  rw [hpc] at hok
  obtain ⟨hround, hback⟩ := hok
  obtain ⟨hlt, hne, hgroup, hnew⟩ := hback.nbs nb List.mem_cons_self
  obtain ⟨hnot, htail⟩ := List.nodup_cons.mp hback.nodup
  have hq : lc < s.layers f.q := hf.layers.symm ▸ Nat.lt_succ_of_le hround.le_level
  obtain ⟨hs', hothers⟩ := hs.backLink rt hq hlt hne hgroup hnew
  obtain ⟨ls, heq, -, -⟩ := hs.toLinksOk.backLink rt hq hlt hne hnew
  have hlayers : ∀ x, (HNSWIndex.backLink (m := Id) rt s.rawAccess s lc f.q nb).layers x = s.layers x := by
    intro x
    rw [heq, layers_setLinks]
  refine ⟨hs', fun f' hf' => ?_, fun hc => ?_, ?_, ?_⟩
  · obtain rfl := Option.some.inj hf'
    refine ⟨(hlayers _).trans hf.layers, .inr ?_, hround, fun x hx => ?_, htail, ?_⟩
    · rw [heq]
      exact hf.curMax.resolve_left (by simp [hpc])
    · rw [hlayers]
      exact hback.met x hx
    · intro x hx
      have hxne : nb ≠ x := fun he => hnot (he ▸ hx)
      rw [hlayers, links_backLink_of_ne rt lc f.q (lt_graph_length hlt) lc hxne]
      exact hback.nbs x (List.mem_cons_of_mem nb hx)
  · rw [hpc] at hc
    contradiction
  · intro _ f' hf'
    exact Option.some.inj hf' ▸ rfl
  · intro p _ hp
    exact hothers p (hp (by simp [hpc]))

theorem append_ok (hs : Grouped γ s) (hap : f.pc = .append) :
    ∃ γ', StepOk γ γ' s (f.step rt s).1 f (f.step rt s).2 := by
  unfold InsertFrame.step
  rw [hap]
  by_cases h0 : s.numVectors = 0
  · refine ⟨γ, hs.append_first h0 f.id f.vec f.metadata f.level, fun f' hf' => ?_, fun _ f' hf' => ?_,
      fun hc => absurd hap hc, fun p hp => absurd hp (h0 ▸ Nat.not_lt_zero p)⟩
    all_goals simp [h0] at hf'
  · refine ⟨γ.enter s.numVectors, hs.append h0 f.id f.vec f.metadata f.level, fun f' hf' => ?_,
      fun _ f' hf' => ?_, fun hc => absurd hap hc,
      fun p hp _ => hs.carries_append h0 f.id f.vec f.metadata f.level hp⟩
    all_goals
      simp only [if_neg h0, Option.some.injEq] at hf'
      subst hf'
    · refine ⟨?_, .inl rfl, Groups.hidden_enter s.numVectors⟩
      rw [HNSWIndex.layers_append, if_pos hs.graph_length.symm]
    · rfl

theorem entry_ok (hs : Grouped γ s) (hf : f.Ok γ s) (hen : f.pc = .entry) :
    StepOk γ γ s s f (some { f with
      ep := s.entryPoint, curMax := s.maxLayer
      pc := if (f.level : Int) < s.maxLayer then .descend s.maxLayer.toNat .load
        else InsertFrame.linkPc { f with ep := s.entryPoint, curMax := s.maxLayer } }) := by
  have hhidden := hf.pc
  rw [hen] at hhidden
  have hlt : f.q < s.numVectors := hs.lt (l := 0) (hf.layers ▸ Nat.succ_pos f.level)
  have hentry := hs.entry (Nat.zero_lt_of_lt hlt)
  have hsearch := hs.searching_entry hlt hhidden
  have hge := hentry.maxLayer_ge
  refine .quiet hs (by simp [hen]) ⟨hf.layers, .inr ⟨hge, le_rfl⟩, ?_⟩ rfl
  dsimp only
  split_ifs with hdown
  · have hlevel : f.level < s.maxLayer.toNat := by omega
    exact ⟨hlevel, (Int.toNat_of_nonneg hge).le, hhidden, hsearch, trivial⟩
  · have htop : (min (f.level : Int) s.maxLayer).toNat = s.maxLayer.toNat := by omega
    exact linkPc_ok (f := { f with ep := s.entryPoint, curMax := s.maxLayer }) hge hhidden (htop ▸ hsearch)

theorem descended_ok (hs : Grouped γ s) (hf : f.Ok γ s) {out : List (σ × Nat)}
    (hd : f.pc = .descend lc (.done out)) :
    StepOk γ γ s s f (some { f with
      ep := front out f.ep
      pc := if f.level < lc - 1 then .descend (lc - 1) .load
        else InsertFrame.linkPc { f with ep := front out f.ep } }) := by
  have hok := hf.pc
  rw [hd] at hok
  obtain ⟨hlevel, hmax, hhidden, hsearch, hwithin⟩ := hok
  have hcur := hf.curMax.resolve_left (by simp [hd])
  have hnear : Near γ s lc f.ep (front out f.ep) := by
    apply front_mem (P := Near γ s lc f.ep) _ hwithin.2
    exact ⟨hsearch.entry_layer, rfl⟩
  have hdown : ∀ k, k ≤ lc → f.level ≤ k → Searching γ s k f.q (front out f.ep) := fun k hk hlevel =>
    hsearch.down hs hhidden hnear hk (hf.layers.trans_le (Nat.succ_le_succ hlevel))
  apply StepOk.moves hs hf (by simp [hd]) (by simp [hd])
  split_ifs with hnext
  · have hle : ((lc - 1 : Nat) : Int) ≤ f.curMax := by omega
    exact ⟨hnext, hle, hhidden, hdown (lc - 1) (Nat.sub_le lc 1) hnext.le, trivial⟩
  · have htop : (min (f.level : Int) f.curMax).toNat = f.level := by omega
    exact linkPc_ok (f := { f with ep := front out f.ep }) hcur.1 hhidden
      (htop.symm ▸ hdown f.level hlevel.le le_rfl)

/-- A step of an insert, with the groups that fit the graph behind it. -/
theorem InsertFrame.step_ok (hs : Grouped γ s) (hf : f.pc = .append ∨ f.Ok γ s) :
    ∃ γ', StepOk γ γ' s (f.step rt s).1 f (f.step rt s).2 := by
  by_cases hap : f.pc = .append
  · exact append_ok rt hs hap
  have hf := hf.resolve_left hap
  have hok := hf.pc
  unfold InsertFrame.step
  split
  · next hc => exact absurd hc hap
  · next hen => exact ⟨γ, entry_ok hs hf hen⟩
  · next lc out hd => exact ⟨γ, descended_ok hs hf hd⟩
  · next lc pc _ hd =>
    rw [hd] at hok
    obtain ⟨hlevel, hmax, hhidden, hsearch, hwithin⟩ := hok
    refine ⟨γ, .moves hs hf hap (by simp [hd]) ⟨hlevel, hmax, hhidden, hsearch, ?_⟩⟩
    exact hwithin.step rt ⟨hsearch.entry_layer, rfl⟩ hs.near_closed
  · next lc out hd =>
    rw [hd] at hok
    exact ⟨γ, .moves hs hf hap (by simp [hd]) hok⟩
  · next lc pc _ hd =>
    rw [hd] at hok
    obtain ⟨hround, hsearch, hwithin⟩ := hok
    refine ⟨γ, .moves hs hf hap (by simp [hd]) ⟨hround, hsearch, ?_⟩⟩
    exact hwithin.step rt ⟨hsearch.entry_layer, rfl⟩ hs.near_closed
  · next lc cands hd => exact assign_ok rt hs hf hd
  · next lc cands nb nbs hd => exact ⟨γ, back_ok rt hs hf hd⟩
  · next lc cands hd =>
    rw [hd] at hok
    exact ⟨γ, .moves hs hf hap (by simp [hd]) (hok.2.down hok.1 hf.layers)⟩
  · next hr =>
    rw [hr] at hok
    obtain ⟨hs', hothers⟩ := hs.raise hf.layers (hf.curMax.resolve_left (by simp [hr])).2 hok
    exact ⟨γ.leave f.q, hs', nofun, nofun, nofun, fun p _ hp => hothers p (hp hap)⟩

end Step

section Run

variable (rt : Runtime σ) {dim : Nat} {m : Machine σ}

/-- The groups fit the graph, and every insert past its append fits the groups, with a node of its own. -/
structure Linked (γ : Groups Nat) (m : Machine σ) : Prop where
  index : Grouped γ m.index
  frames : ∀ t f, (m.threads t).call = some (.insert f) → f.pc = .append ∨ f.Ok γ m.index
  distinct : ∀ t u f g, (m.threads t).call = some (.insert f) → (m.threads u).call = some (.insert g) →
    f.pc ≠ .append → g.pc ≠ .append → f.q = g.q → t = u

theorem linked_new (dim : Nat) (cfg : HNSWConfig) :
    Linked ⟨fun _ x => x, fun _ _ => 0, fun _ _ => False⟩ (Machine.new dim cfg : Machine σ) :=
  ⟨grouped_new dim cfg, nofun, (fun _ _ _ _ hf => nomatch hf)⟩

omit [LinearOrder σ] in
theorem pc_of_call {a : Action dim} {f : InsertFrame σ} (h : a.call? = some (.insert f)) : f.pc = .append := by
  cases a with
  | insert id vec metadata level =>
    obtain rfl := Call.insert.inj (Option.some.inj h)
    rfl
  | search query k => exact nomatch Option.some.inj h
  | delete id => exact nomatch Option.some.inj h
  | step => contradiction

theorem Linked.step {γ γ' : Groups Nat} (h : Linked γ m) {t : Nat} {s' : HNSWIndex} {th : Thread σ}
    (hindex : Grouped γ' s')
    (hframe : ∀ f', th.call = some (.insert f') → f'.pc ≠ .append → f'.Ok γ' s' ∧
      ((∃ f, (m.threads t).call = some (.insert f) ∧ f.pc ≠ .append ∧ f'.q = f.q) ∨
        f'.q = m.index.numVectors))
    (hothers : ∀ p, p < m.index.numVectors →
      (∀ f, (m.threads t).call = some (.insert f) → f.pc ≠ .append → p ≠ f.q) → Carries γ γ' m.index s' p) :
    Linked γ' ({ m with index := s' }.setThread t th) := by
  have hlt : ∀ u f, (m.threads u).call = some (.insert f) → f.pc ≠ .append → f.q < m.index.numVectors := by
    intro u f hf hpc
    have hok := (h.frames u f hf).resolve_left hpc
    exact h.index.lt (l := 0) (hok.layers ▸ Nat.succ_pos f.level)
  have hother : ∀ u g, u ≠ t →
      (({ m with index := s' } : Machine σ).setThread t th |>.threads u).call = some (.insert g) →
      (m.threads u).call = some (.insert g) := by
    intro u g hu hg
    rwa [Machine.setThread_other _ hu] at hg
  have hnew : ∀ u f' g, u ≠ t → th.call = some (.insert f') → (m.threads u).call = some (.insert g) →
      f'.pc ≠ .append → g.pc ≠ .append → f'.q ≠ g.q := by
    intro u f' g hu hf' hg hpc hpg hq
    rcases (hframe f' hf' hpc).2 with ⟨f, hf, hpf, hqf⟩ | hqf
    · exact hu (h.distinct t u f g hf hg hpf hpg (hqf.symm.trans hq)).symm
    · exact absurd (hlt u g hg hpg) (by omega)
  refine ⟨hindex, fun u g hg => ?_, fun u v f g hf hg hpf hpg hq => ?_⟩
  · by_cases hu : u = t
    · subst hu
      rw [Machine.setThread_self] at hg
      by_cases hpc : g.pc = .append
      · exact .inl hpc
      · exact .inr (hframe g hg hpc).1
    · have hg := hother u g hu hg
      refine (h.frames u g hg).imp_right fun hok => ?_
      have hpc : g.pc ≠ .append := fun hpc => by
        have hbad := hok.pc
        rwa [hpc] at hbad
      refine (hothers g.q (hlt u g hg hpc) fun f hf hpf hq => hu ?_).frame hok
      exact h.distinct u t g f hg hf hpc hpf hq
  · by_cases hu : u = t <;> by_cases hv : v = t
    · rw [hu, hv]
    · subst hu
      rw [Machine.setThread_self] at hf
      exact absurd hq (hnew v f g hv hf (hother v g hv hg) hpf hpg)
    · subst hv
      rw [Machine.setThread_self] at hg
      exact absurd hq.symm (hnew u g f hu hg (hother u f hu hf) hpg hpf)
    · exact h.distinct u v f g (hother u f hu hf) (hother v g hv hg) hpf hpg hq

theorem Linked.next {γ : Groups Nat} (h : Linked γ m) (e : Nat × Action dim) : ∃ γ', Linked γ' (m.next rt e) := by
  rcases m.next_cases rt e with ⟨hsame, -⟩ | ⟨c, hidle, hc, hnext⟩ | ⟨c, hcall, -, hnext⟩
  · rw [hsame]
    exact ⟨γ, h⟩
  · rw [hnext]
    show ∃ γ', Linked γ' (({ m with index := m.index } : Machine σ).setThread e.1 _)
    refine ⟨γ, h.step h.index (fun f' hf' hpc => ?_) fun p _ _ => carries_refl γ m.index p⟩
    obtain rfl := Option.some.inj hf'
    exact absurd (pc_of_call hc) hpc
  · rw [hnext]
    cases c with
    | insert f =>
      obtain ⟨γ', hstep⟩ := InsertFrame.step_ok rt h.index (h.frames e.1 f hcall)
      refine ⟨γ', h.step hstep.index (fun f' hf' hpc => ?_) fun p hp hne => ?_⟩
      · obtain ⟨g, hg, heq⟩ := Option.map_eq_some_iff.mp hf'
        obtain rfl := Call.insert.inj heq
        refine ⟨hstep.frame g hg, ?_⟩
        by_cases hap : f.pc = .append
        · exact .inr (hstep.fresh hap g hg)
        · exact .inl ⟨f, hcall, hap, hstep.kept hap g hg⟩
      · exact hstep.others p hp (hne f hcall)
    | search f =>
      unfold Machine.callStep
      dsimp only
      split
      · exact ⟨γ, h.step h.index (fun f' hf' => by simp at hf') fun p _ _ => carries_refl γ m.index p⟩
      · exact ⟨γ, h.step h.index (fun f' hf' => by simp at hf') fun p _ _ => carries_refl γ m.index p⟩
    | delete id =>
      obtain ⟨hindex, hothers⟩ := h.index.deleteVector id
      exact ⟨γ, h.step hindex (fun f' hf' => by simp [Machine.callStep] at hf') fun p _ _ => hothers p⟩

theorem linked_run (cfg : HNSWConfig) (es : List (Nat × Action dim)) : ∃ γ, Linked γ (Machine.run rt cfg es) :=
  invariant_run (I := fun m => ∃ γ, Linked γ m) (fun _ e ⟨_, h⟩ _ => h.next rt e) 
    ⟨_, linked_new dim cfg⟩ (along_true _ es)

end Run

end Concurrent

end NeuralDb
