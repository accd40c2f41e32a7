import NeuralDb.Concurrent.Hits
import Mathlib.Tactic.Ring

/-! How long a call can take. Other threads may change the links between two steps of a call, but a node is
stamped once only, so the slots and the layers bound the number of its steps. -/

namespace NeuralDb

open Library HNSWIndex

namespace Concurrent

variable {σ : Type}

section Rank

variable (N D : Nat)

/-- The steps of `search_layer_` on at most `N` nodes with at most `D` links each. -/
def layerRank : Nat := (D + 2) * N + 3

/-- The steps that a `search_layer_` call has left at most. -/
def LayerPc.rank : LayerPc σ → Nat
  | .load => layerRank N D
  | .score => (D + 2) * N + 2
  | .loop b => (D + 2) * b.pending N + 1
  | .expand xs b => xs.length + (D + 2) * b.pending N + 2
  | .done _ => 0

/-- The steps of the linking loop with `n` layers to go, and of the last region. -/
def linkRank : Nat → Nat
  | 0 => 1
  | n + 1 => linkRank n + (layerRank N D + D + 3)

/-- The steps of a descent from layer `lc`, before what comes after it. -/
def descendRank (lc : Nat) (pc : LayerPc σ) : Nat := lc * (layerRank N D + 1) + pc.rank N D

def InsertFrame.rank (L : Nat) (f : InsertFrame σ) : Nat :=
  match f.pc with
  | .append => L * (layerRank N D + 1) + layerRank N D + linkRank N D (L + 1) + 3
  | .entry => L * (layerRank N D + 1) + layerRank N D + linkRank N D (L + 1) + 2
  | .descend lc pc => descendRank N D lc pc + linkRank N D (min (f.level : Int) f.curMax + 1).toNat + 1
  | .link lc pc => pc.rank N D + (D + 3) + linkRank N D lc
  | .assign lc _ => D + 2 + linkRank N D lc
  | .back lc _ nbs => nbs.length + 1 + linkRank N D lc
  | .raise => 1

def SearchFrame.rank (L : Nat) (f : SearchFrame σ) : Nat :=
  match f.pc with
  | .load => L * (layerRank N D + 1) + 2 * layerRank N D + 5
  | .entry => L * (layerRank N D + 1) + 2 * layerRank N D + 4
  | .descend lc pc => descendRank N D lc pc + layerRank N D + 3
  | .bottom pc => pc.rank N D + 2
  | .collect _ => 1

/-- The steps that a call has left at most, in an index of at most `N` slots with at most `D` links on a
layer, whose top layer is at most `L`. -/
def Call.rank (L : Nat) : Call σ → Nat
  | .insert f => f.rank N D L
  | .search f => f.rank N D L
  | .delete _ => 1

/-- The steps of a whole call. -/
def callRank (L : Nat) : Nat := (L + 1) * (2 * layerRank N D + D + 4) + 3

theorem linkRank_eq (n : Nat) : linkRank N D n = n * (layerRank N D + D + 3) + 1 := by
  induction n with
  | zero => simp [linkRank]
  | succ n ih =>
    rw [linkRank, ih, Nat.succ_mul]
    omega

theorem linkRank_mono {n k : Nat} (h : n ≤ k) : linkRank N D n ≤ linkRank N D k := by
  rw [linkRank_eq, linkRank_eq]
  exact Nat.succ_le_succ (Nat.mul_le_mul_right _ h)

theorem rank_linkFrom (L n : Nat) {f : InsertFrame σ} (hpc : f.pc = linkFrom n) :
    f.rank N D L = linkRank N D n := by
  unfold InsertFrame.rank
  rw [hpc]
  cases n with
  | zero => rfl
  | succ n =>
    simp only [linkFrom, linkRank, LayerPc.rank]
    omega

theorem Call.rank_pos (L : Nat) (c : Call σ) : 0 < c.rank N D L := by
  cases c with
  | insert f =>
    unfold Call.rank InsertFrame.rank
    dsimp only
    split <;> omega
  | search f =>
    unfold Call.rank SearchFrame.rank
    dsimp only
    split <;> omega
  | delete id => exact Nat.one_pos

theorem rank_of_call {dim : Nat} (L : Nat) {a : Action dim} {c : Call σ} (hc : a.call? = some c) :
    c.rank N D L ≤ callRank N D L := by
  have hbound : L * (layerRank N D + 1) + layerRank N D + ((L + 1) * (layerRank N D + D + 3) + 1) + 3 =
      callRank N D L := by
    unfold callRank
    ring
  have hlast : layerRank N D + D + 3 ≤ (L + 1) * (layerRank N D + D + 3) := Nat.le_mul_of_pos_left _ (Nat.succ_pos L)
  cases a with
  | insert id vec metadata level =>
    obtain rfl := Option.some.inj hc
    simp only [Call.rank, InsertFrame.rank, linkRank_eq]
    omega
  | search query k =>
    obtain rfl := Option.some.inj hc
    simp only [Call.rank, SearchFrame.rank]
    omega
  | delete id =>
    obtain rfl := Option.some.inj hc
    simp only [Call.rank]
    omega
  | step => contradiction

end Rank

section Step

variable [LinearOrder σ] (rt : Runtime σ) {s : HNSWIndex} {N D L : Nat}

theorem pending_offer (ef : Int) {b : Beam σ Nat} {x : Nat} (v : σ) (hN : b.visited.length < N) :
    ((b.visit x).offer ef (v, x)).pending N ≤ b.pending N := by
  have hcands := Beam.offer_cands_length ef (b.visit x) (v, x)
  have hsame : (b.visit x).cands = b.cands := rfl
  rw [hsame] at hcands
  simp only [Beam.pending, Beam.offer_visited, Beam.visit_visited, List.length_cons]
  omega

/-- Each step of `search_layer_` brings it closer to its end, whatever the links are that it reads. -/
theorem LayerPc.rank_step {a : LayerArgs} {pc : LayerPc σ} (h : pc.Within (· < s.numVectors)) (hep : a.ep < s.numVectors)
    (hN : s.numVectors ≤ N) (hD : ∀ x, (s.links a.layer x).length ≤ D) (hpc : ∀ out, pc ≠ .done out) :
    (pc.step rt s a).rank N D < pc.rank N D := by
  cases pc with
  | load => exact Nat.lt_succ_self _
  | score =>
    have hstart : (Beam.start a.ep (s.simRaw rt a.query a.ep)).pending N = N := by
      simp only [Beam.pending, Beam.start, List.length_singleton]
      omega
    simp only [LayerPc.step, LayerPc.rank, hstart]
    omega
  | loop b =>
    rw [LayerPc.step]
    split
    · exact Nat.succ_pos _
    · next c cs hc =>
      split_ifs
      · exact Nat.succ_pos _
      · have hone : b.pending N = Beam.pending N { b with cands := cs } + 1 := by
          simp only [Beam.pending, hc, List.length_cons]
          omega
        have hlen := hD c.2
        simp only [LayerPc.rank, hone, Nat.mul_succ]
        omega
  | expand xs b =>
    cases xs with
    | nil =>
      simp only [LayerPc.step, LayerPc.rank, List.length_nil]
      omega
    | cons x xs =>
      rw [LayerPc.step]
      split_ifs with hx
      · simp only [LayerPc.rank, List.length_cons]
        omega
      · -- the stamped nodes are distinct slots, and `x` is one more
        obtain ⟨⟨sim, hshape⟩, hxs⟩ := h
        have hroom : (x :: b.visited).length ≤ s.numVectors := by
          refine length_le_of_lt (List.nodup_cons.mpr ⟨hx, hshape.visited_nodup⟩) ?_
          exact List.forall_mem_cons.mpr ⟨hxs x List.mem_cons_self, hshape.visited_in⟩
        have hpending := pending_offer a.ef (x := x) (s.simRaw rt a.query x) (hroom.trans hN)
        have hmul := Nat.mul_le_mul_left (D + 2) hpending
        simp only [LayerPc.rank, List.length_cons]
        omega
  | done out => exact absurd rfl (hpc out)

/-- The bounds that the ranks are about. -/
structure LimitedBy (N D L : Nat) (s : HNSWIndex) : Prop where
  slots : s.numVectors ≤ N
  degree : ∀ l, (s.maxLinks l).toNat ≤ D
  top : s.maxLayer ≤ L

theorem InsertFrame.rank_step {f f' : InsertFrame σ} (hs : Concurrent.InRange s) (hf : f.InRange s.numVectors)
    (hfit : LimitedBy N D L s) (hf' : (f.step rt s).2 = some f') : f'.rank N D L < f.rank N D L := by
  have hpc := hf.pc
  have hdegree : ∀ l x, (s.links l x).length ≤ D := fun l x => (hs.bounded.degree l x).trans (hfit.degree l)
  unfold InsertFrame.step at hf'
  split at hf'
  · next hap =>
    dsimp only at hf'
    split_ifs at hf'
    obtain rfl := Option.some.inj hf'
    simp only [InsertFrame.rank, hap]
    omega
  · next hen =>
    obtain rfl := Option.some.inj hf'
    have htop := hfit.top
    have hrank : f.rank N D L = L * (layerRank N D + 1) + layerRank N D + linkRank N D (L + 1) + 2 := by
      simp only [InsertFrame.rank, hen]
    rw [hrank]
    dsimp only
    have hlayers : (min (f.level : Int) s.maxLayer + 1).toNat ≤ L + 1 := by omega
    have hlink := linkRank_mono N D hlayers
    split_ifs
    · have hmul : s.maxLayer.toNat * (layerRank N D + 1) ≤ L * (layerRank N D + 1) :=
        Nat.mul_le_mul_right _ (by omega)
      simp only [InsertFrame.rank, descendRank, LayerPc.rank]
      omega
    · rw [rank_linkFrom N D L (min (f.level : Int) s.maxLayer + 1).toNat rfl]
      omega
  · next lc out hd =>
    obtain rfl := Option.some.inj hf'
    have hrank : f.rank N D L =
        lc * (layerRank N D + 1) + 0 + linkRank N D (min (f.level : Int) f.curMax + 1).toNat + 1 := by
      simp only [InsertFrame.rank, hd, descendRank, LayerPc.rank]
    rw [hrank]
    dsimp only
    split_ifs with hlevel
    · obtain ⟨n, rfl⟩ : ∃ n, lc = n + 1 := ⟨lc - 1, by omega⟩
      simp only [InsertFrame.rank, descendRank, LayerPc.rank, Nat.add_sub_cancel, Nat.succ_mul]
      omega
    · rw [rank_linkFrom N D L (min (f.level : Int) f.curMax + 1).toNat rfl]
      omega
  · next lc pc hne hd =>
    rw [hd] at hpc
    obtain rfl := Option.some.inj hf'
    have hlt := LayerPc.rank_step rt (a := f.descendArgs lc) hpc (hf.held (by simp [hd])).2
      hfit.slots (hdegree lc) hne
    simp only [InsertFrame.rank, hd, descendRank]
    omega
  · next lc out hd =>
    obtain rfl := Option.some.inj hf'
    simp only [InsertFrame.rank, hd, LayerPc.rank]
    omega
  · next lc pc hne hd =>
    rw [hd] at hpc
    obtain rfl := Option.some.inj hf'
    have hlt := LayerPc.rank_step rt (a := f.linkArgs s lc) hpc (hf.held (by simp [hd])).2
      hfit.slots (hdegree lc) hne
    simp only [InsertFrame.rank, hd]
    omega
  · next lc cands hd =>
    obtain rfl := Option.some.inj hf'
    have hlen := (selectNeighbours_length rt cands s.cfg.M).trans ((maxLinks_ge s lc).trans (hfit.degree lc))
    simp only [InsertFrame.rank, hd]
    omega
  · next lc cands nb nbs hd =>
    obtain rfl := Option.some.inj hf'
    simp only [InsertFrame.rank, hd, List.length_cons]
    omega
  · next lc cands hd =>
    obtain rfl := Option.some.inj hf'
    rw [rank_linkFrom N D L lc rfl]
    simp only [InsertFrame.rank, hd, List.length_nil]
    omega
  · contradiction

theorem SearchFrame.rank_step {f f' : SearchFrame σ} (hs : Concurrent.InRange s) (hf : f.InRange s.numVectors)
    (hfit : LimitedBy N D L s) (hf' : f.step rt s = .inl f') : f'.rank N D L < f.rank N D L := by
  have hpc := hf.pc
  have hdegree : ∀ l x, (s.links l x).length ≤ D := fun l x => (hs.bounded.degree l x).trans (hfit.degree l)
  have hdown : ∀ (g : SearchFrame σ) (n : Nat), g.pc = descendFrom n →
      g.rank N D L ≤ n * (layerRank N D + 1) + 2 * layerRank N D + 3 := by
    intro g n hpc
    unfold SearchFrame.rank
    rw [hpc]
    cases n <;> simp only [descendFrom, descendRank, LayerPc.rank] <;> omega
  unfold SearchFrame.step at hf'
  split at hf'
  · next hd =>
    split_ifs at hf'
    obtain rfl := Sum.inl.inj hf'
    simp only [SearchFrame.rank, hd]
    omega
  · next hd =>
    dsimp only at hf'
    split at hf'
    · contradiction
    · next ep _ =>
      obtain rfl := Sum.inl.inj hf'
      have htop := hfit.top
      have hle := hdown { f with ep, pc := descendFrom s.maxLayer.toNat } _ rfl
      have hmul : s.maxLayer.toNat * (layerRank N D + 1) ≤ L * (layerRank N D + 1) :=
        Nat.mul_le_mul_right _ (by omega)
      have hrank : f.rank N D L = L * (layerRank N D + 1) + 2 * layerRank N D + 4 := by
        simp only [SearchFrame.rank, hd]
      omega
  · next lc out hd =>
    obtain rfl := Sum.inl.inj hf'
    have hrank : f.rank N D L = lc * (layerRank N D + 1) + 0 + layerRank N D + 3 := by
      simp only [SearchFrame.rank, hd, descendRank, LayerPc.rank]
    rw [hrank]
    cases lc with
    | zero =>
      simp only [Nat.zero_sub, descendFrom, SearchFrame.rank, LayerPc.rank]
      omega
    | succ n =>
      have hle := hdown { f with ep := front out f.ep, pc := descendFrom n } n rfl
      rw [Nat.add_sub_cancel, Nat.succ_mul]
      omega
  · next lc pc hne hd =>
    rw [hd] at hpc
    obtain rfl := Sum.inl.inj hf'
    have hlt := LayerPc.rank_step rt (a := ⟨f.query, f.ep, 1, lc⟩) hpc (hf.held (by simp [hd])).2
      hfit.slots (hdegree lc) hne
    simp only [SearchFrame.rank, hd, descendRank]
    omega
  · next out hd =>
    obtain rfl := Sum.inl.inj hf'
    simp only [SearchFrame.rank, hd, LayerPc.rank]
    omega
  · next pc hne hd =>
    rw [hd] at hpc
    obtain rfl := Sum.inl.inj hf'
    have hlt := LayerPc.rank_step rt (a := ⟨f.query, f.ep, s.cfg.efSearch, 0⟩) hpc (hf.held (by simp [hd])).2
      hfit.slots (hdegree 0) hne
    simp only [SearchFrame.rank, hd]
    omega
  · contradiction

theorem Call.rank_step {c c' : Call σ} (hs : Concurrent.InRange s) (hc : c.InRange s.numVectors) (hfit : LimitedBy N D L s)
    {hits : List (σ × UInt64)} (hc' : (Machine.callStep rt s hits c).2.1 = some c') :
    c'.rank N D L < c.rank N D L := by
  cases c with
  | insert f =>
    obtain ⟨f', hf', rfl⟩ := Option.map_eq_some_iff.mp hc'
    exact InsertFrame.rank_step rt hs hc hfit hf'
  | search f =>
    unfold Machine.callStep at hc'
    dsimp only at hc'
    split at hc'
    · next f' hf' =>
      obtain rfl := Option.some.inj hc'
      exact SearchFrame.rank_step rt hs hc hfit hf'
    · contradiction
  | delete id => contradiction

/-- The top layer never comes down. -/
theorem callStep_maxLayer {c : Call σ} (hc : c.InRange s.numVectors) (h0 : s.numVectors = 0 → s.maxLayer = 0)
    (hits : List (σ × UInt64)) :
    let s' := (Machine.callStep rt s hits c).1
    s.maxLayer ≤ s'.maxLayer ∧ (s'.numVectors = 0 → s'.maxLayer = 0) := by
  have hsame : ∀ t : HNSWIndex, t.maxLayer = s.maxLayer → t.numVectors = s.numVectors →
      s.maxLayer ≤ t.maxLayer ∧ (t.numVectors = 0 → t.maxLayer = 0) :=
    fun t hmax hnum => ⟨hmax.ge, fun ht => hmax.trans (h0 (hnum.symm.trans ht))⟩
  cases c with
  | insert f =>
    unfold Machine.callStep InsertFrame.step
    dsimp only
    split
    · refine ⟨?_, fun h => absurd h (Nat.succ_ne_zero _)⟩
      show s.maxLayer ≤ if s.numVectors = 0 then (f.level : Int) else s.maxLayer
      split_ifs with hz
      · rw [h0 hz]
        exact Int.natCast_nonneg _
      · exact le_rfl
    · exact hsame s rfl rfl
    · exact hsame s rfl rfl
    · exact hsame s rfl rfl
    · exact hsame s rfl rfl
    · exact hsame s rfl rfl
    · exact hsame _ rfl rfl
    · next lc cands nb nbs hd =>
      have hframe := (regraphed_backLink rt s lc f.q nb).frame
      exact hsame _ (by rw [hframe]) (by rw [hframe])
    · exact hsame s rfl rfl
    · next hd =>
      have hq : f.q < s.numVectors := (InsertFrame.InRange.held hc (by simp [hd])).1
      have hnum := (sameTable_raise s f.q f.level).numVectors_eq
      refine ⟨?_, fun h => absurd (hnum.symm.trans h) (Nat.zero_lt_of_lt hq).ne'⟩
      rw [raise_maxLayer]
      exact le_max_left _ _
  | search f =>
    unfold Machine.callStep
    dsimp only
    split <;> exact hsame s rfl rfl
  | delete id =>
    unfold Machine.callStep HNSWIndex.deleteVector
    dsimp only
    split <;> exact hsame _ rfl rfl

end Step

/-! ### Whole runs -/

section Run

variable [LinearOrder σ] (rt : Runtime σ) {dim : Nat} {cfg : HNSWConfig} {m : Machine σ} {N D L : Nat}

/-- A sound machine whose top layer is the bottom one as long as it has no slots. -/
structure Grows (dim : Nat) (cfg : HNSWConfig) (m : Machine σ) : Prop where
  sound : Sound rt dim cfg m
  based : m.index.numVectors = 0 → m.index.maxLayer = 0

theorem grows_new (dim : Nat) (cfg : HNSWConfig) : Grows rt dim cfg (Machine.new dim cfg) :=
  ⟨sound_new rt dim cfg, fun _ => rfl⟩

theorem Grows.next (h : Grows rt dim cfg m) (e : Nat × Action dim) :
    Grows rt dim cfg (m.next rt e) ∧ m.index.numVectors ≤ (m.next rt e).index.numVectors ∧
      m.index.maxLayer ≤ (m.next rt e).index.maxLayer := by
  have hsound : Sound rt dim cfg (m.next rt e) := h.sound.next rt e
  rcases m.next_cases rt e with ⟨hsame, -⟩ | ⟨c, -, -, hnext⟩ | ⟨c, hcall, -, hnext⟩
  · rw [hsame]
    exact ⟨h, le_rfl, le_rfl⟩
  · rw [hnext] at hsound ⊢
    exact ⟨⟨hsound, h.based⟩, le_rfl, le_rfl⟩
  · have hc := (h.sound.calls e.1 c hcall).inRange
    obtain ⟨hmax, hbased⟩ := callStep_maxLayer rt hc h.based (m.threads e.1).hits
    have hgrows := (callStep_inRange rt h.sound.index.inRange hc (m.threads e.1).hits).1.grows.1
    rw [hnext] at hsound ⊢
    exact ⟨⟨hsound, hbased⟩, hgrows, hmax⟩

theorem grows_run (cfg : HNSWConfig) (es : List (Nat × Action dim)) : Grows rt dim cfg (Machine.run rt cfg es) :=
  invariant_run (fun _ e h _ => (h.next rt e).1) (grows_new rt dim cfg) (along_true _ es)

/-- What bounds the end of a run bounds every moment of it. -/
theorem fits_prefix (cfg : HNSWConfig) {past es : List (Nat × Action dim)} (h : past <+: es)
    (hfit : LimitedBy N D L (Machine.run rt cfg es).index) : LimitedBy N D L (Machine.run rt cfg past).index := by
  obtain ⟨rest, rfl⟩ := h
  have hrun : Machine.run rt cfg (past ++ rest) = runFrom (Machine.next rt) (Machine.run rt cfg past) rest :=
    runFrom_append _ _ past rest
  have hpast : Grows rt dim cfg (Machine.run rt cfg past) := grows_run rt cfg past
  have hnum := le_runFrom (fun m : Machine σ => m.index.numVectors) (fun _ e h => (h.next rt e).1) (fun _ e h => (h.next rt e).2.1) hpast rest
  have hmax := le_runFrom (fun m : Machine σ => m.index.maxLayer) (fun _ e h => (h.next rt e).1) (fun _ e h => (h.next rt e).2.2) hpast rest
  have hcfg : (Machine.run rt cfg past).index.cfg = (Machine.run rt cfg (past ++ rest)).index.cfg :=
    hpast.sound.index.table.cfg_eq.trans (grows_run rt cfg (past ++ rest)).sound.index.table.cfg_eq.symm
  rw [← hrun] at hnum hmax
  refine ⟨hnum.trans hfit.slots, fun l => ?_, hmax.trans hfit.top⟩
  have hdegree := hfit.degree l
  rwa [maxLinks, ← hcfg] at hdegree

/-- No call ever has more steps left than a whole call has. -/
theorem rank_run (cfg : HNSWConfig) (es : List (Nat × Action dim)) (hfit : LimitedBy N D L (Machine.run rt cfg es).index)
    (t : Nat) (c : Call σ) (hc : ((Machine.run rt cfg es).threads t).call = some c) :
    c.rank N D L ≤ callRank N D L := by
  induction es using List.reverseRecOn generalizing t c with
  | nil => contradiction
  | append_singleton es e ih =>
    have hpast : LimitedBy N D L (Machine.run rt cfg es).index := fits_prefix rt cfg (List.prefix_append es [e]) hfit
    have hrun : Machine.run rt cfg (es ++ [e]) = (Machine.run rt cfg es).next rt e := runFrom_append _ _ es [e]
    have hm : Sound rt dim cfg (Machine.run rt cfg es) := (grows_run rt cfg es).sound
    rw [hrun] at hc
    rcases (Machine.run rt cfg es).next_cases rt e with ⟨hsame, -⟩ | ⟨d, -, hd, hnext⟩ | ⟨d, hcall, -, hnext⟩
    · rw [hsame] at hc
      exact ih hpast t c hc
    · rw [hnext] at hc
      by_cases ht : t = e.1
      · rw [ht, Machine.setThread_self] at hc
        exact Option.some.inj hc ▸ rank_of_call N D L hd
      · rw [Machine.setThread_other _ ht] at hc
        exact ih hpast t c hc
    · rw [hnext] at hc
      by_cases ht : t = e.1
      · rw [ht, Machine.setThread_self] at hc
        have hlt := Call.rank_step rt hm.index.inRange (hm.calls e.1 d hcall).inRange hpast hc
        exact hlt.le.trans (ih hpast e.1 d hcall)
      · rw [Machine.setThread_other _ ht] at hc
        exact ih hpast t c hc

/-- The steps that a thread has left in its call. -/
def Thread.rank (N D L : Nat) (th : Thread σ) : Nat := (th.call.map (Call.rank N D L)).getD 0

/-- No call is held up by the calls of other threads: whatever they do, as long as no append outgrows a buffer in
use, or the ids, it returns without an undefined step, within a number of its own steps that depends on the slots
and the layers of the index alone. -/
theorem call_returns (cfg : HNSWConfig) (past rest : List (Nat × Action dim)) (t : Nat)
    (hroom : Along (Machine.next rt) KeepsRoom (Machine.new dim cfg) (past ++ rest))
    (hids : Along (Machine.next rt) KeepsIds (Machine.new dim cfg) (past ++ rest))
    (hmany :
      let s := (Machine.run rt cfg (past ++ rest)).index
      callRank s.numVectors (cfg.M * 2).toNat s.maxLayer.toNat ≤
        rest.countP fun e => decide (e.1 = t) && e.2.isStep) :
    ∃ mid, mid <+: rest ∧ ∃ m, Machine.checkedRun rt cfg (past ++ mid) = some m ∧ (m.threads t).call = none := by
  let s := (Machine.run rt cfg (past ++ rest)).index
  let N := s.numVectors
  let D := (cfg.M * 2).toNat
  let L := s.maxLayer.toNat
  have hrun : ∀ mid, Machine.run rt cfg (past ++ mid) = runFrom (Machine.next rt) (Machine.run rt cfg past) mid :=
    fun mid => runFrom_append _ _ past mid
  have hfit : LimitedBy N D L s := by
    refine ⟨le_rfl, fun l => ?_, Int.self_le_toNat _⟩
    rw [maxLinks, (grows_run rt cfg (past ++ rest)).sound.index.table.cfg_eq]
    split_ifs <;> omega
  have hI : ∀ mid, mid <+: rest →
      Sound rt dim cfg (runFrom (Machine.next rt) (Machine.run rt cfg past) mid) ∧
        LimitedBy N D L (runFrom (Machine.next rt) (Machine.run rt cfg past) mid).index := by
    intro mid hmid
    rw [← hrun]
    exact ⟨sound_run rt cfg _, fits_prefix rt cfg ((List.prefix_append_right_inj past).mpr hmid) hfit⟩
  have hrank : ((Machine.run rt cfg past).threads t).rank N D L ≤ callRank N D L := by
    unfold Thread.rank
    cases hc : ((Machine.run rt cfg past).threads t).call with
    | none => exact Nat.zero_le _
    | some c =>
      exact rank_run rt cfg past (hI [] List.nil_prefix).2 t c hc
  have hidle : ∃ mid, mid <+: rest ∧
      ¬ ((runFrom (Machine.next rt) (Machine.run rt cfg past) mid).threads t).call ≠ none := by
    refine exists_idle (I := fun m : Machine σ => Sound rt dim cfg m ∧ LimitedBy N D L m.index)
      (fun m => (m.threads t).call ≠ none) (fun m => (m.threads t).rank N D L)
      (fun e : Nat × Action dim => decide (e.1 = t) && e.2.isStep) hI ?_ ?_ ?_ (hrank.trans hmany)
    · intro m _ hbusy
      obtain ⟨c, hc⟩ := Option.ne_none_iff_exists'.mp hbusy
      simpa [Thread.rank, hc] using Call.rank_pos N D L c
    · intro m e hm hbusy he hbusy'
      obtain ⟨c, hc⟩ := Option.ne_none_iff_exists'.mp hbusy
      obtain ⟨c', hc'⟩ := Option.ne_none_iff_exists'.mp hbusy'
      rw [Bool.and_eq_true, decide_eq_true_eq] at he
      obtain ⟨rfl, hstep⟩ := he
      obtain ⟨u, a⟩ := e
      cases a with
      | step =>
        rw [m.next_step rt hc, Machine.setThread_self] at hc'
        have hlt := Call.rank_step rt hm.1.index.inRange (hm.1.calls u c hc).inRange hm.2 hc'
        simp only [Thread.rank, m.next_step rt hc, Machine.setThread_self, hc, hc', Option.map_some, Option.getD_some]
        exact hlt
      | insert id vec metadata level => contradiction
      | search query k => contradiction
      | delete id => contradiction
    · intro m e _ hbusy he
      have hkeep : (m.next rt e).threads t = m.threads t := by
        rcases m.next_cases rt e with ⟨hsame, -⟩ | ⟨c, hnone, -, hnext⟩ | ⟨c, -, hstep, hnext⟩
        · rw [hsame]
        · rw [hnext, Machine.setThread_other]
          rintro rfl
          exact hbusy hnone
        · rw [hnext, Machine.setThread_other]
          rintro rfl
          simp [hstep, Action.isStep] at he
      exact (congrArg (Thread.rank N D L) hkeep).le
  obtain ⟨mid, hmid, hnone⟩ := hidle
  rw [← hrun] at hnone
  obtain ⟨later, rfl⟩ := hmid
  rw [← List.append_assoc] at hroom hids
  exact ⟨mid, List.prefix_append mid later, _,
    checkedRun_eq rt cfg (along_append.mp hroom).1 (along_append.mp hids).1, not_not.mp hnone⟩

/-- A search goes on while another thread deletes the vector that it is about to find. -/
theorem call_returns_one :
    let past : List (Nat × Action 1) :=
      [(0, .insert 7 ⟨[3], rfl⟩ [] 0), (0, .step), (1, .search ⟨[2], rfl⟩ 1), (1, .step)]
    let rest : List (Nat × Action 1) := (0, .delete 7) :: (0, .step) :: List.replicate 23 (1, .step)
    ∃ mid, mid <+: rest ∧ ∃ m : Machine Nat, Machine.checkedRun .sample { M := 1 } (past ++ mid) = some m ∧
      (m.threads 1).call = none := by
  intro past rest
  have hkeeps : Along (Machine.next .sample) KeepsRoom (Machine.new 1 { M := 1 }) (past ++ rest) ∧
      Along (Machine.next .sample) KeepsIds (Machine.new 1 { M := 1 }) (past ++ rest) :=
    along_keeps .sample { M := 1 } (k := 2) (by decide) (by decide +kernel)
  exact call_returns .sample { M := 1 } past rest 1 hkeeps.1 hkeeps.2 (by decide)

end Run

end Concurrent

end NeuralDb
