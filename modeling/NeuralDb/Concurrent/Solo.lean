import NeuralDb.Concurrent.Hits
import Mathlib.Logic.Relation

/-! A call that nothing interferes with. Whatever other threads have left half done, it returns, and it does
to the index what the sequential operation does. -/

namespace NeuralDb

open Library HNSWIndex Relation

namespace Concurrent

variable {σ : Type} [LinearOrder σ] (rt : Runtime σ)

section Layer

variable {s : HNSWIndex} {a : LayerArgs}

/-- The neighbour loop of a `search_layer_` call that nothing interferes with. -/
def expandRaw (s : HNSWIndex) (a : LayerArgs) (xs : List Nat) (b : Beam σ Nat) : Beam σ Nat :=
  Beam.expand (m := Id) (simTo rt s.rawAccess a.query) a.ef xs b

def loopRaw (s : HNSWIndex) (a : LayerArgs) (fuel : Nat) (b : Beam σ Nat) : Beam σ Nat :=
  Beam.loop (m := Id) (s.links a.layer) (simTo rt s.rawAccess a.query) a.ef fuel b

/-- Steps of a `search_layer_` call on an index that stays as it is. -/
def LayerPc.Steps (s : HNSWIndex) (a : LayerArgs) : LayerPc σ → LayerPc σ → Prop :=
  ReflTransGen fun pc pc' => (∀ out, pc ≠ .done out) ∧ pc.step rt s a = pc'

theorem expand_steps (xs : List Nat) (b : Beam σ Nat) :
    LayerPc.Steps rt s a (.expand xs b) (.loop (expandRaw rt s a xs b)) := by
  induction xs generalizing b with
  | nil => exact .single ⟨by simp, rfl⟩
  | cons x xs ih =>
    by_cases hx : x ∈ b.visited
    · have hstep : (LayerPc.expand (x :: xs) b).step rt s a = .expand xs b := if_pos hx
      have hexpand : expandRaw rt s a (x :: xs) b =
          expandRaw rt s a xs b := if_pos hx
      rw [hexpand]
      exact .head ⟨by simp, hstep⟩ (ih b)
    · let b' := (b.visit x).offer a.ef (s.simRaw rt a.query x, x)
      have hstep : (LayerPc.expand (x :: xs) b).step rt s a = .expand xs b' := if_neg hx
      have hexpand : expandRaw rt s a (x :: xs) b =
          expandRaw rt s a xs b' := if_neg hx
      rw [hexpand]
      exact .head ⟨by simp, hstep⟩ (ih b')

/-- The loop ends by itself within as many passes as there are candidates and unstamped nodes. -/
theorem loop_steps {N : Nat} (hlinks : ∀ x, x < N → ∀ y ∈ s.links a.layer x, y < N) (fuel : Nat) {b : Beam σ Nat}
    (hb : b.Inv (s.simRaw rt a.query) (· < N) a.ef) (hfuel : b.pending N ≤ fuel) :
    LayerPc.Steps rt s a (.loop b)
      (.done (rt.sort (loopRaw rt s a fuel b).results)) := by
  induction fuel generalizing b with
  | zero =>
    have hc : b.cands = [] := by
      apply List.eq_nil_of_length_eq_zero
      simp only [Beam.pending] at hfuel
      omega
    refine .single ⟨by simp, ?_⟩
    rw [LayerPc.step, hc]
    rfl
  | succ fuel ih =>
    cases hc : b.cands with
    | nil =>
      refine .single ⟨by simp, ?_⟩
      rw [LayerPc.step, loopRaw, Beam.loop, hc]
      rfl
    | cons c cs =>
      by_cases hstop : b.stops a.ef c
      · refine .single ⟨by simp, ?_⟩
        rw [LayerPc.step, loopRaw, Beam.loop, hc]
        simp only [if_pos hstop]
        rfl
      · let popped : Beam σ Nat := { b with cands := cs }
        let b' : Beam σ Nat := expandRaw rt s a (s.links a.layer c.2) popped
        have hstep : (LayerPc.loop b).step rt s a = .expand (s.links a.layer c.2) popped := by
          rw [LayerPc.step, hc]
          exact if_neg hstop
        have hloop : loopRaw rt s a (fuel + 1) b =
            loopRaw rt s a fuel b' := by
          rw [loopRaw, Beam.loop, hc]
          exact if_neg hstop
        have hpop : popped.Inv (s.simRaw rt a.query) (· < N) a.ef := hb.popCand hc
        have hnbs := hlinks c.2 (hb.cand_in (hc ▸ List.mem_cons_self))
        have hle : b'.pending N ≤ popped.pending N :=
          Beam.pending_expand (fun l => length_le_of_lt) (s.links a.layer c.2) hpop hnbs
        have hone : popped.pending N + 1 = b.pending N := by
          simp only [popped, Beam.pending, hc, List.length_cons]
          omega
        rw [hloop]
        have hrest := ih (b := b') (Beam.inv_expand _ hpop hnbs) (by omega)
        exact .head ⟨by simp, hstep⟩ ((expand_steps rt _ popped).trans hrest)

/-- A whole `search_layer_` call. -/
theorem layer_steps (hs : InRange s) (hep : a.ep < s.numVectors) :
    LayerPc.Steps rt s a .load
      (.done (searchLayer (m := Id) rt s.rawAccess s a.query a.ep a.ef a.layer)) := by
  have hfuel : Beam.pending s.numVectors (Beam.start a.ep (s.simRaw rt a.query a.ep)) ≤ s.graph.length := by
    simp only [Beam.pending, Beam.start, List.length_singleton, hs.bounded.graph_length]
    omega
  have hloop := loop_steps rt (a := a) (hs.closed a.layer) s.graph.length (Beam.inv_start hep) hfuel
  exact .head ⟨by simp, rfl⟩ (.head ⟨by simp [LayerPc.step], rfl⟩ hloop)

end Layer

section Insert

variable {s u : HNSWIndex} {f g : InsertFrame σ}

/-- Steps of an insert that nothing interferes with and that has not returned. -/
def InsertFrame.Steps : HNSWIndex × InsertFrame σ → HNSWIndex × InsertFrame σ → Prop :=
  ReflTransGen fun p q => p.2.step rt p.1 = (q.1, some q.2)

theorem InsertFrame.Steps.inRange (h : InsertFrame.Steps rt (s, f) (u, g)) (hs : Concurrent.InRange s)
    (hf : f.InRange s.numVectors) : Concurrent.InRange u ∧ g.InRange u.numVectors := by
  have hall : ∀ q : HNSWIndex × InsertFrame σ, InsertFrame.Steps rt (s, f) q →
      Concurrent.InRange q.1 ∧ q.2.InRange q.1.numVectors := by
    intro q hq
    induction hq with
    | refl => exact ⟨hs, hf⟩
    | tail _ hstep ih =>
      obtain ⟨hstays, hnext⟩ := InsertFrame.InRange.step rt ih.1 ih.2
      have hframe := hnext _ (congrArg Prod.snd hstep)
      rw [hstep] at hstays hframe
      exact ⟨hstays.inRange, hframe⟩
  exact hall (u, g) h

theorem descend_layer_steps (lc : Nat) (hs : Concurrent.InRange s) (hep : f.ep < s.numVectors) :
    InsertFrame.Steps rt (s, { f with pc := .descend lc .load })
      (s, { f with pc := .descend lc (.done (searchLayer (m := Id) rt s.rawAccess s f.vec f.ep 1 lc)) }) := by
  have h := layer_steps rt (a := f.descendArgs lc) hs hep
  refine h.lift (fun pc => (s, { f with pc := .descend lc pc })) fun pc pc' hpc => ?_
  obtain ⟨hne, rfl⟩ := hpc
  cases pc with
  | done out => exact absurd rfl (hne out)
  | load => rfl
  | score => rfl
  | loop b => rfl
  | expand xs b => rfl

theorem link_layer_steps (lc : Nat) (hs : Concurrent.InRange s) (hep : f.ep < s.numVectors) :
    InsertFrame.Steps rt (s, { f with pc := .link lc .load })
      (s, { f with pc := .link lc (.done (searchLayer (m := Id) rt s.rawAccess s f.vec f.ep
        (max s.cfg.efConstruction s.cfg.M) lc)) }) := by
  have h := layer_steps rt (a := f.linkArgs s lc) hs hep
  refine h.lift (fun pc => (s, { f with pc := .link lc pc })) fun pc pc' hpc => ?_
  obtain ⟨hne, rfl⟩ := hpc
  cases pc with
  | done out => exact absurd rfl (hne out)
  | load => rfl
  | score => rfl
  | loop b => rfl
  | expand xs b => rfl

/-- The node that a layer search hands on is a slot. -/
theorem front_lt (hs : Concurrent.InRange s) (vec : Vec) {ep : Nat} (hep : ep < s.numVectors) (ef : Int) (lc : Nat) :
    front (searchLayer (m := Id) rt s.rawAccess s vec ep ef lc) ep < s.numVectors :=
  (searchLayer_result rt s vec ef lc (P := (· < s.numVectors)) hep (hs.closed lc)).front_mem ep

/-- The greedy descent of an insert, with `n + 1` layers to go. -/
theorem descend_steps (n : Nat) (hs : Concurrent.InRange s) (hep : f.ep < s.numVectors) :
    InsertFrame.Steps rt (s, { f with pc := .descend (f.level + (n + 1)) .load })
      (s, { f with
        ep := descend (m := Id) rt s.rawAccess s f.vec f.level (n + 1) f.ep
        pc := f.linkPc }) := by
  induction n generalizing f with
  | zero =>
    refine (descend_layer_steps rt (f.level + (0 + 1)) hs hep).tail ?_
    simp only [InsertFrame.step, Nat.add_sub_cancel, lt_irrefl, if_false]
    rfl
  | succ n ih =>
    let ep' := front (searchLayer (m := Id) rt s.rawAccess s f.vec f.ep 1 (f.level + (n + 1 + 1))) f.ep
    have hnext : InsertFrame.step rt s { f with
        pc := .descend (f.level + (n + 1 + 1))
          (.done (searchLayer (m := Id) rt s.rawAccess s f.vec f.ep 1 (f.level + (n + 1 + 1)))) } =
        (s, some { f with ep := ep', pc := .descend (f.level + (n + 1)) .load }) := by
      have hlevel : f.level < f.level + (n + 1) := by omega
      simp only [InsertFrame.step, ← Nat.add_assoc, Nat.add_sub_cancel]
      simp only [Nat.add_assoc, if_pos hlevel]
      rfl
    have hrest := ih (f := { f with ep := ep' }) (front_lt rt hs f.vec hep 1 _)
    exact ((descend_layer_steps rt (f.level + (n + 1 + 1)) hs hep).tail hnext).trans hrest

theorem back_steps (lc : Nat) (cands : List (σ × Nat)) (nbs : List Nat) :
    InsertFrame.Steps rt (s, { f with pc := .back lc cands nbs })
      (backLinks (m := Id) rt rawAccess lc f.q nbs s, { f with pc := .back lc cands [] }) := by
  induction nbs generalizing s with
  | nil => exact .refl
  | cons nb nbs ih => exact .head rfl (ih (s := backLink (m := Id) rt s.rawAccess s lc f.q nb))

/-- The linking loop of an insert, with `n` layers to go. -/
theorem link_steps (n : Nat) (hs : Concurrent.InRange s) (hf : f.InRange s.numVectors) (hap : f.pc = linkFrom n) :
    ∃ g, InsertFrame.Steps rt (s, f) (linkLayers (m := Id) rt rawAccess f.q f.vec n f.ep s, g) ∧
      g.pc = .raise ∧ g.q = f.q ∧ g.level = f.level := by
  induction n generalizing s f with
  | zero => exact ⟨f, .refl, hap, rfl, rfl⟩
  | succ lc ih =>
    have hep : f.ep < s.numVectors := (hf.held (by simp [hap, linkFrom])).2
    let out := searchLayer (m := Id) rt s.rawAccess s f.vec f.ep (max s.cfg.efConstruction s.cfg.M) lc
    let nbs := selectNeighbours rt out s.cfg.M
    let u := backLinks (m := Id) rt rawAccess lc f.q nbs (s.setLinks lc f.q nbs)
    have hstart : f = { f with pc := .link lc .load } := by
      cases f
      simp only at hap
      rw [hap]
      rfl
    have hlayer : InsertFrame.Steps rt (s, f) (s, { f with pc := .link lc (.done out) }) := by
      have h := link_layer_steps rt (f := f) lc hs hep
      rwa [← hstart] at h
    have hassign : InsertFrame.Steps rt (s, { f with pc := .link lc (.done out) })
        (s.setLinks lc f.q nbs, { f with pc := .back lc out nbs }) := by
      have hdone : InsertFrame.step rt s { f with pc := .link lc (.done out) } =
          (s, some { f with pc := .assign lc out }) := rfl
      have hlinks : InsertFrame.step rt s { f with pc := .assign lc out } =
          (s.setLinks lc f.q nbs, some { f with pc := .back lc out nbs }) := rfl
      exact .head (b := (s, { f with pc := .assign lc out })) hdone (.single hlinks)
    have hback : InsertFrame.Steps rt (s, f) (u, { f with ep := front out f.ep, pc := linkFrom lc }) :=
      ((hlayer.trans hassign).trans (back_steps rt lc out nbs)).tail rfl
    obtain ⟨hu, hg⟩ := hback.inRange rt hs hf
    obtain ⟨g, hsteps, hpc, hq, hlevel⟩ := ih hu hg rfl
    exact ⟨g, hback.trans hsteps, hpc, hq, hlevel⟩

/-- An insert that nothing interferes with does what `insert` does. -/
theorem insert_steps (hs : Concurrent.InRange s) (hf : f.InRange s.numVectors) (hap : f.pc = .append) :
    ∃ u g, InsertFrame.Steps rt (s, f) (u, g) ∧
      g.step rt u = (s.insertRaw rt f.id f.vec f.metadata f.level, none) := by
  by_cases h0 : s.numVectors = 0
  · refine ⟨s, f, .refl, ?_⟩
    rw [insertRaw_first rt h0]
    simp only [InsertFrame.step, hap, if_pos h0]
  · let t := s.append f.id f.vec f.metadata f.level
    let g₀ : InsertFrame σ := { f with q := s.numVectors, pc := .entry }
    let g₁ : InsertFrame σ := { g₀ with ep := t.entryPoint, curMax := t.maxLayer }
    let ep := descend (m := Id) rt t.rawAccess t f.vec f.level (t.maxLayer - f.level).toNat t.entryPoint
    let g₂ : InsertFrame σ := { g₁ with ep, pc := g₁.linkPc }
    have hfirst : InsertFrame.Steps rt (s, f) (t, g₀) := by
      refine .single ?_
      simp only [InsertFrame.step, hap, if_neg h0]
      rfl
    obtain ⟨ht, hg₀⟩ := hfirst.inRange rt hs hf
    have hentry : t.entryPoint < t.numVectors := ht.entry_lt (Nat.succ_pos _)
    have hdown : InsertFrame.Steps rt (t, g₀) (t, g₂) := by
      by_cases hlevel : (f.level : Int) < t.maxLayer
      · obtain ⟨n, hn⟩ : ∃ n, (t.maxLayer - f.level).toNat = n + 1 := ⟨(t.maxLayer - f.level).toNat - 1, by omega⟩
        have hlc : t.maxLayer.toNat = f.level + (n + 1) := by omega
        have hstep : g₀.step rt t = (t, some { g₁ with pc := .descend (f.level + (n + 1)) .load }) := by
          simp only [InsertFrame.step, g₀, g₁, if_pos hlevel, hlc]
        have hep : ep = descend (m := Id) rt t.rawAccess t f.vec f.level (n + 1) t.entryPoint := by
          simp only [ep, hn]
        have hrest := descend_steps rt (f := g₁) n ht hentry
        simp only [g₂, hep]
        exact .head hstep hrest
      · have hzero : (t.maxLayer - f.level).toNat = 0 := by omega
        have hep : ep = t.entryPoint := by
          simp only [ep, hzero]
          rfl
        refine .single ?_
        simp only [InsertFrame.step, g₀, g₂, g₁, if_neg hlevel, hep]
    obtain ⟨-, hg₂⟩ := hdown.inRange rt ht hg₀
    obtain ⟨g, hlink, hpc, hq, hlevel⟩ := link_steps rt (min (f.level : Int) t.maxLayer + 1).toNat ht hg₂ rfl
    refine ⟨_, g, (hfirst.trans hdown).trans hlink, ?_⟩
    rw [insertRaw_linked rt h0]
    simp only [InsertFrame.step, hpc, hq, hlevel]
    rfl

end Insert

section Search

variable {s : HNSWIndex} {f : SearchFrame σ}

/-- Steps of a search that nothing interferes with and that has not returned. -/
def SearchFrame.Steps (s : HNSWIndex) : SearchFrame σ → SearchFrame σ → Prop :=
  ReflTransGen fun f g => f.step rt s = .inl g

/-- The descent of a search, with `n` layers above the bottom to go. -/
theorem search_descend_steps (n : Nat) (hs : Concurrent.InRange s) (hep : f.ep < s.numVectors) :
    SearchFrame.Steps rt s { f with pc := SearchFrame.descendFrom n }
      { f with ep := descend (m := Id) rt s.rawAccess s f.query 0 n f.ep, pc := .bottom .load } := by
  induction n generalizing f with
  | zero => exact .refl
  | succ n ih =>
    let out := searchLayer (m := Id) rt s.rawAccess s f.query f.ep 1 (n + 1)
    have hlayer : SearchFrame.Steps rt s { f with pc := .descend (n + 1) .load } { f with pc := .descend (n + 1) (.done out) } := by
      have h := layer_steps rt (a := ⟨f.query, f.ep, 1, n + 1⟩) hs hep
      refine h.lift (fun pc => { f with pc := .descend (n + 1) pc }) fun pc pc' hpc => ?_
      obtain ⟨hne, rfl⟩ := hpc
      cases pc with
      | done out => exact absurd rfl (hne out)
      | load => rfl
      | score => rfl
      | loop b => rfl
      | expand xs b => rfl
    have hdescend : descend (m := Id) rt s.rawAccess s f.query 0 (n + 1) f.ep =
        descend (m := Id) rt s.rawAccess s f.query 0 n (front out f.ep) := by
      simp only [out, descend, Nat.zero_add]
      rfl
    rw [hdescend]
    exact (hlayer.tail rfl).trans (ih (f := { f with ep := front out f.ep }) (front_lt rt hs f.query hep 1 (n + 1)))

theorem bottom_steps (hs : Concurrent.InRange s) (hep : f.ep < s.numVectors) :
    SearchFrame.Steps rt s { f with pc := .bottom .load }
      { f with pc := .collect (searchLayer (m := Id) rt s.rawAccess s f.query f.ep s.cfg.efSearch 0) } := by
  have h := layer_steps rt (a := ⟨f.query, f.ep, s.cfg.efSearch, 0⟩) hs hep
  refine ReflTransGen.tail (h.lift (fun pc => { f with pc := .bottom pc }) fun pc pc' hpc => ?_) rfl
  obtain ⟨hne, rfl⟩ := hpc
  cases pc with
  | done out => exact absurd rfl (hne out)
  | load => rfl
  | score => rfl
  | loop b => rfl
  | expand xs b => rfl

/-- A search that nothing interferes with returns what `search` returns. -/
theorem search_steps (hs : Concurrent.InRange s) (hpc : f.pc = .load) :
    ∃ g, SearchFrame.Steps rt s f g ∧ g.step rt s = .inr (s.searchRaw rt f.query f.k) := by
  by_cases h0 : s.numVectors = 0
  · refine ⟨f, .refl, ?_⟩
    have hraw : s.searchRaw rt f.query f.k = [] := if_pos h0
    simp only [SearchFrame.step, hpc, if_pos h0, hraw]
  · let g₀ : SearchFrame σ := { f with nv := s.numVectors, pc := .entry }
    have hfirst : SearchFrame.Steps rt s f g₀ := by
      refine .single ?_
      simp only [SearchFrame.step, hpc, if_neg h0]
      rfl
    have hraw : s.searchRaw rt f.query f.k = search (m := Id) rt s.rawAccess s f.query f.k := rfl
    cases hlive : s.liveEntry with
    | none =>
      refine ⟨g₀, hfirst, ?_⟩
      rw [hraw, search, if_neg h0, hlive]
      unfold liveEntry at hlive
      simp only [SearchFrame.step, g₀, hlive]
      rfl
    | some ep =>
      have hep : ep < s.numVectors := by
        unfold liveEntry at hlive
        split_ifs at hlive
        · exact List.mem_range.mp (List.mem_of_find?_eq_some hlive)
        · exact Option.some.inj hlive ▸ hs.entry_lt (Nat.pos_of_ne_zero h0)
      let g₁ : SearchFrame σ := { g₀ with ep }
      let ep' : Nat := descend (m := Id) rt s.rawAccess s f.query 0 s.maxLayer.toNat ep
      have hentry : g₀.step rt s = .inl { g₁ with pc := SearchFrame.descendFrom s.maxLayer.toNat } := by
        unfold liveEntry at hlive
        simp only [SearchFrame.step, g₀, g₁, hlive]
      have hdown := search_descend_steps rt (f := g₁) s.maxLayer.toNat hs hep
      have hep' : ep' < s.numVectors :=
        descend_mem rt s f.query 0 (P := fun _ x => x < s.numVectors) hs.closed (fun _ _ hx => hx) _ hep
      have hbottom := bottom_steps rt (f := { g₁ with ep := ep' }) hs hep'
      refine ⟨_, ((hfirst.tail hentry).trans hdown).trans hbottom, ?_⟩
      rw [hraw, search, if_neg h0, hlive]
      rfl

end Search

section Machine

variable {dim : Nat} {s : HNSWIndex} {m : Machine σ} {t : Nat}

/-- What the sequential operation of an action does to the index and to the hits of its thread. -/
def Action.effect (s : HNSWIndex) (hits : List (σ × UInt64)) : Action dim → HNSWIndex × List (σ × UInt64)
  | .insert id vec metadata level => (s.insertRaw rt id vec metadata level, hits)
  | .search query k => (s, s.searchRaw rt query k)
  | .delete id => (s.deleteVector id, hits)
  | .step => (s, hits)

def CallSteps : HNSWIndex × Call σ → HNSWIndex × Call σ → Prop :=
  ReflTransGen fun p q => ∀ hits, Machine.callStep rt p.1 hits p.2 = (q.1, some q.2, hits)

/-- A call that nothing interferes with returns, with the effect of the sequential operation. -/
theorem call_steps (hs : InRange s) {a : Action dim} {c : Call σ} (hc : a.call? = some c) :
    ∃ q, CallSteps rt (s, c) q ∧ ∀ hits, Machine.callStep rt q.1 hits q.2 =
      ((a.effect rt s hits).1, none, (a.effect rt s hits).2) := by
  cases a with
  | insert id vec metadata level =>
    obtain rfl := Option.some.inj hc
    obtain ⟨u, g, hsteps, hlast⟩ := insert_steps rt (f := { id, vec, metadata, level }) hs ⟨.inl ⟨rfl, rfl⟩, trivial⟩ rfl
    have hcalls : CallSteps rt (s, .insert { id, vec, metadata, level }) (u, .insert g) := by
      refine hsteps.lift (fun p => (p.1, Call.insert p.2)) fun p q hpq => ?_
      have hpq : InsertFrame.step rt p.1 p.2 = (q.1, some q.2) := hpq
      intro hits
      simp only [Machine.callStep, hpq, Option.map_some]
    refine ⟨_, hcalls, fun hits => ?_⟩
    simp only [Machine.callStep, hlast, Option.map_none, Action.effect]
  | search query k =>
    obtain rfl := Option.some.inj hc
    obtain ⟨g, hsteps, hlast⟩ := search_steps rt (f := { query, k }) hs rfl
    have hcalls : CallSteps rt (s, .search { query, k }) (s, .search g) := by
      refine hsteps.lift (fun f => (s, Call.search f)) fun p q hpq hits => ?_
      have hpq : SearchFrame.step rt s p = .inl q := hpq
      simp only [Machine.callStep, hpq]
    refine ⟨_, hcalls, fun hits => ?_⟩
    simp only [Machine.callStep, hlast, Action.effect]
  | delete id =>
    obtain rfl := Option.some.inj hc
    exact ⟨_, .refl, fun hits => rfl⟩
  | step => contradiction

/-- Steps of one thread in a row. -/
def alone (t k : Nat) : List (Nat × Action dim) := List.replicate k (t, .step)

theorem runFrom_alone (m : Machine σ) (t k : Nat) :
    runFrom (Machine.next rt) m (alone t (k + 1) : List (Nat × Action dim)) =
      runFrom (Machine.next rt) (m.next rt ((t, .step) : Nat × Action dim)) (alone t k : List (Nat × Action dim)) := rfl

variable (dim) in
theorem alone_steps {p q : HNSWIndex × Call σ} (h : CallSteps rt p q) (hindex : m.index = p.1)
    (hcall : (m.threads t).call = some p.2) :
    ∃ k, let m' := runFrom (Machine.next rt) m (alone t k : List (Nat × Action dim))
      m'.index = q.1 ∧ (m'.threads t).call = some q.2 ∧ (m'.threads t).hits = (m.threads t).hits ∧
        ∀ u, u ≠ t → m'.threads u = m.threads u := by
  induction h using ReflTransGen.head_induction_on generalizing m with
  | refl => exact ⟨0, hindex, hcall, rfl, fun _ _ => rfl⟩
  | @head p r hstep _ ih =>
    have hnext : m.next rt ((t, .step) : Nat × Action dim) =
        { m with index := r.1 }.setThread t ⟨Machine.callBuffer m.index (m.threads t).bufSize p.2, some r.2,
          (m.threads t).hits⟩ := by
      rw [m.next_step rt hcall, hindex, hstep]
    obtain ⟨k, hk⟩ := ih (m := m.next rt ((t, .step) : Nat × Action dim)) (by rw [hnext]; rfl)
      (by rw [hnext, Machine.setThread_self])
    refine ⟨k + 1, ?_⟩
    rw [runFrom_alone]
    obtain ⟨hindex', hcall', hhits', hother'⟩ := hk
    refine ⟨hindex', hcall', hhits'.trans ?_, fun u hu => (hother' u hu).trans ?_⟩
    · rw [hnext, Machine.setThread_self]
    · rw [hnext, Machine.setThread_other _ hu]

/-- A call of an idle thread that takes its steps in a row. -/
theorem alone_run (hs : InRange m.index) (hidle : (m.threads t).call = none) {a : Action dim} (ha : a ≠ .step) :
    ∃ k, let m' := runFrom (Machine.next rt) m ((t, a) :: alone t k)
      (m'.threads t).call = none ∧ (m'.index, (m'.threads t).hits) = a.effect rt m.index (m.threads t).hits ∧
        ∀ u, u ≠ t → m'.threads u = m.threads u := by
  obtain ⟨c, hc⟩ : ∃ c : Call σ, a.call? = some c := by
    cases a with
    | step => exact absurd rfl ha
    | insert id vec metadata level => exact ⟨_, rfl⟩
    | search query k => exact ⟨_, rfl⟩
    | delete id => exact ⟨_, rfl⟩
  obtain ⟨⟨u, d⟩, hsteps, hlast⟩ := call_steps rt hs hc
  let m₁ := m.setThread t { m.threads t with call := some c }
  have hbegin : m.next rt (t, a) = m₁ := Machine.next_begin rt hidle hc
  obtain ⟨k, hindex, hcall, hhits, hother⟩ := alone_steps rt dim (m := m₁) (t := t) hsteps rfl
    (by rw [Machine.setThread_self])
  let m₂ := runFrom (Machine.next rt) m₁ (alone t k : List (Nat × Action dim))
  have hrun : runFrom (Machine.next rt) m ((t, a) :: alone t (k + 1)) = m₂.next rt ((t, .step) : Nat × Action dim) := by
    have hsplit : (alone t (k + 1) : List (Nat × Action dim)) = alone t k ++ [(t, .step)] := List.replicate_succ'
    have hfirst : runFrom (Machine.next rt) m ((t, a) :: alone t (k + 1)) =
        runFrom (Machine.next rt) (m.next rt (t, a)) (alone t (k + 1)) := rfl
    rw [hfirst, hbegin, hsplit, runFrom_append]
    rfl
  have heffect : (Machine.callStep rt m₂.index (m₂.threads t).hits d) =
      ((a.effect rt m.index (m.threads t).hits).1, none, (a.effect rt m.index (m.threads t).hits).2) := by
    rw [hindex, hhits, Machine.setThread_self]
    exact hlast _
  refine ⟨k + 1, ?_⟩
  dsimp only
  rw [hrun, Machine.next_step rt hcall, heffect]
  refine ⟨by rw [Machine.setThread_self], ?_, fun v hv => ?_⟩
  · rw [Machine.setThread_self]
    rfl
  · rw [Machine.setThread_other _ hv]
    exact (hother v hv).trans (Machine.setThread_other _ hv _)

/-- Whatever other threads have left half done, a call that is alone from its beginning to its end returns,
and has on the index, and on the hits of its thread, the effect of the sequential operation. -/
theorem solo_atomic (cfg : HNSWConfig) (es : List (Nat × Action dim)) {t : Nat} {a : Action dim}
    (hidle : ((Machine.run rt cfg es).threads t).call = none) (ha : a ≠ .step) :
    ∃ k, let m := Machine.run rt cfg es
      let m' := Machine.run rt cfg (es ++ (t, a) :: alone t k)
      (m'.threads t).call = none ∧ (m'.index, (m'.threads t).hits) = a.effect rt m.index (m.threads t).hits ∧
        ∀ u, u ≠ t → m'.threads u = m.threads u := by
  obtain ⟨k, hk⟩ := alone_run rt (sound_run rt cfg es).index.inRange hidle ha
  refine ⟨k, ?_⟩
  have hrun : Machine.run rt cfg (es ++ (t, a) :: alone t k) =
      runFrom (Machine.next rt) (Machine.run rt cfg es) ((t, a) :: alone t k) := runFrom_append _ _ es _
  dsimp only
  rw [hrun]
  exact hk

/-- A search alone while an insert of another thread has appended its vector and not linked it. -/
theorem solo_atomic_two :
    let es : List (Nat × Action 1) :=
      [(0, .insert 7 ⟨[3], rfl⟩ [] 0), (0, .step), (0, .insert 8 ⟨[5], rfl⟩ [] 0), (0, .step)]
    let m : Machine Nat := Machine.run .sample {} es
    m.index.searchRaw .sample [2] 2 = [(6, 7)] ∧
      ∃ k, ((Machine.run .sample {} (es ++ (1, .search ⟨[2], rfl⟩ 2) :: alone 1 k)).threads 1).hits = [(6, 7)] := by
  intro es m
  have hraw : m.index.searchRaw .sample [2] 2 = [(6, 7)] := by decide
  obtain ⟨k, -, heffect, -⟩ := solo_atomic .sample {} es (t := 1) (a := .search ⟨[2], rfl⟩ 2) rfl nofun
  exact ⟨hraw, k, (congrArg Prod.snd heffect).trans hraw⟩

/-- Every sequential history is a run in which no two calls overlap. -/
theorem history_run (cfg : HNSWConfig) (ops : List (Op dim)) :
    ∃ es : List (Nat × Action dim), (Machine.run rt cfg es).index = HNSWIndex.run rt cfg ops ∧
      ∀ t, ((Machine.run rt cfg es).threads t).call = none := by
  induction ops using List.reverseRecOn with
  | nil => exact ⟨[], rfl, fun _ => rfl⟩
  | append_singleton ops op ih =>
    obtain ⟨es, hindex, hidle⟩ := ih
    obtain ⟨a, ha, heffect⟩ : ∃ a : Action dim, a ≠ .step ∧
        ∀ s hits, (a.effect rt s hits).1 = s.step rt op := by
      cases op with
      | insert id vec metadata level => exact ⟨.insert id vec metadata level, by simp, fun _ _ => rfl⟩
      | delete id => exact ⟨.delete id, by simp, fun _ _ => rfl⟩
    obtain ⟨k, hcall, hpair, hother⟩ := alone_run rt (sound_run rt cfg es).index.inRange (hidle 0) ha
    have hrun : Machine.run rt cfg (es ++ (0, a) :: alone 0 k) =
        runFrom (Machine.next rt) (Machine.run rt cfg es) ((0, a) :: alone 0 k) := runFrom_append _ _ es _
    refine ⟨es ++ (0, a) :: alone 0 k, ?_, fun t => ?_⟩
    · rw [hrun, run_concat, ← hindex, ← heffect]
      exact congrArg Prod.fst hpair
    · rw [hrun]
      by_cases ht : t = 0
      · exact ht ▸ hcall
      · rw [hother t ht]
        exact hidle t

end Machine

end Concurrent

end NeuralDb
