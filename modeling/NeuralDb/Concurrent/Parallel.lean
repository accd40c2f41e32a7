import NeuralDb.Concurrent.LostLinks
import NeuralDb.Concurrent.Table

/-! An index that is built by several threads. At every moment its links and its entry point are in
order, and once all inserts have returned it is as well formed as one that was built in order. -/

namespace NeuralDb

open Library HNSWIndex

namespace Concurrent

variable {σ : Type} [LinearOrder σ] {dim : Nat} {m : Machine σ}

/-- The node `x` belongs to an insert that has not returned. -/
def Inserting (m : Machine σ) (x : Nat) : Prop :=
  ∃ t f, (m.threads t).call = some (.insert f) ∧ f.pc ≠ .append ∧ f.q = x

/-- The entry point reaches the top layer, and only nodes whose inserts have not returned go beyond it. -/
structure Topped (m : Machine σ) : Prop where
  maxLayer_nonneg : 0 ≤ m.index.maxLayer
  entry : 0 < m.index.numVectors → (m.index.layers m.index.entryPoint : Int) = m.index.maxLayer + 1
  below : ∀ x, (m.index.layers x : Int) ≤ m.index.maxLayer + 1 ∨ Inserting m x

section Index

variable {s s' : HNSWIndex} {t : Nat} {th : Thread σ}

/-- A region that leaves the layers and the entry point alone. -/
structure Levelled (s s' : HNSWIndex) : Prop where
  layers : ∀ x, s'.layers x = s.layers x
  entryPoint : s'.entryPoint = s.entryPoint
  maxLayer : s'.maxLayer = s.maxLayer
  numVectors : s'.numVectors = s.numVectors

theorem levelled_refl (s : HNSWIndex) : Levelled s s := ⟨fun _ => rfl, rfl, rfl, rfl⟩

theorem levelled_deleteVector (s : HNSWIndex) (id : UInt64) : Levelled s (s.deleteVector id) := by
  unfold HNSWIndex.deleteVector
  split
  · exact ⟨fun _ => rfl, rfl, rfl, rfl⟩
  · exact levelled_refl s

omit [LinearOrder σ]

/-- An insert that has not returned goes on after a step of thread `t`, its own or another's. -/
theorem Inserting.setThread {x : Nat} (h : Inserting m x)
    (hown : ∀ f, (m.threads t).call = some (.insert f) → f.pc ≠ .append →
      ∃ f', th.call = some (.insert f') ∧ f'.pc ≠ .append ∧ f'.q = f.q) :
    Inserting (({ m with index := s' } : Machine σ).setThread t th) x := by
  obtain ⟨u, f, hf, hpc, rfl⟩ := h
  by_cases hu : u = t
  · subst hu
    obtain ⟨f', hf', hpc', hq⟩ := hown f hf hpc
    exact ⟨u, f', by rwa [Machine.setThread_self], hpc', hq⟩
  · exact ⟨u, f, by rwa [Machine.setThread_other _ hu], hpc, rfl⟩

theorem topped_new (dim : Nat) (cfg : HNSWConfig) : Topped (Machine.new dim cfg : Machine σ) where
  maxLayer_nonneg := le_rfl
  entry hpos := absurd hpos (lt_irrefl 0)
  below _ := .inl (Int.ofNat_le.mpr (Nat.zero_le 1))

theorem Topped.levelled (h : Topped m) (hs : Levelled m.index s')
    (hown : ∀ f, (m.threads t).call = some (.insert f) → f.pc ≠ .append →
      ∃ f', th.call = some (.insert f') ∧ f'.pc ≠ .append ∧ f'.q = f.q) :
    Topped (({ m with index := s' } : Machine σ).setThread t th) where
  maxLayer_nonneg := hs.maxLayer.symm ▸ h.maxLayer_nonneg
  entry hpos := by
    show (s'.layers s'.entryPoint : Int) = s'.maxLayer + 1
    rw [hs.entryPoint, hs.layers, hs.maxLayer]
    exact h.entry (hs.numVectors ▸ hpos)
  below x := by
    show (s'.layers x : Int) ≤ s'.maxLayer + 1 ∨ _
    rw [hs.layers, hs.maxLayer]
    exact (h.below x).imp_right fun hx => hx.setThread hown

/-- The first vector is the entry point, and a later one belongs to an insert in progress. -/
theorem Topped.append (h : Topped m) (hlen : m.index.graph.length = m.index.numVectors)
    (hentry : 0 < m.index.numVectors → m.index.entryPoint < m.index.numVectors) (id : UInt64) (vec : Vec)
    (metadata : Bytes) (level : Nat)
    (hown : ∀ f, (m.threads t).call = some (.insert f) → f.pc = .append)
    (hnew : m.index.numVectors ≠ 0 →
      ∃ f', th.call = some (.insert f') ∧ f'.pc ≠ .append ∧ f'.q = m.index.numVectors) :
    Topped (({ m with index := m.index.append id vec metadata level } : Machine σ).setThread t th) where
  maxLayer_nonneg := by
    show 0 ≤ if m.index.numVectors = 0 then (level : Int) else m.index.maxLayer
    split_ifs
    · exact Int.natCast_nonneg level
    · exact h.maxLayer_nonneg
  entry _ := by
    show ((m.index.append id vec metadata level).layers (if m.index.numVectors = 0 then 0 else _) : Int) =
      (if m.index.numVectors = 0 then (level : Int) else m.index.maxLayer) + 1
    rw [layers_append, hlen]
    split_ifs with h0 hx hx
    · norm_cast
    · exact absurd h0.symm hx
    · exact absurd hx (hentry (Nat.pos_of_ne_zero h0)).ne
    · exact h.entry (Nat.pos_of_ne_zero h0)
  below x := by
    show ((m.index.append id vec metadata level).layers x : Int) ≤
      (if m.index.numVectors = 0 then (level : Int) else m.index.maxLayer) + 1 ∨ _
    have hkeep : Inserting m x → Inserting (({ m with index := m.index.append id vec metadata level } :
        Machine σ).setThread t th) x := fun hx => hx.setThread fun f hf hpc => absurd (hown f hf) hpc
    rw [layers_append, hlen]
    split_ifs with hx h0 h0
    · exact .inl (by norm_cast)
    · obtain ⟨f', hf', hpc, hq⟩ := hnew h0
      exact .inr ⟨t, f', by rwa [Machine.setThread_self], hpc, hq.trans hx.symm⟩
    · -- without a slot there is no other node
      have hzero : m.index.layers x = 0 := layers_eq_zero (by omega)
      rw [hzero]
      exact .inl (by omega)
    · exact (h.below x).imp_right hkeep

/-- The last region of an insert lifts the top layer to its node. -/
theorem Topped.raise (h : Topped m) {f : InsertFrame σ} (hf : (m.threads t).call = some (.insert f))
    (hlayers : m.index.layers f.q = f.level + 1) :
    Topped (({ m with index := m.index.raise f.q f.level } : Machine σ).setThread t th) where
  maxLayer_nonneg := by
    show 0 ≤ (m.index.raise f.q f.level).maxLayer
    rw [raise_maxLayer]
    exact h.maxLayer_nonneg.trans (le_max_left _ _)
  entry hpos := by
    have hnum : 0 < m.index.numVectors := by
      have heq := (sameTable_raise m.index f.q f.level).numVectors_eq
      exact heq ▸ hpos
    show ((m.index.raise f.q f.level).layers (m.index.raise f.q f.level).entryPoint : Int) = _
    rw [raise_layers]
    show _ = (m.index.raise f.q f.level).maxLayer + 1
    unfold HNSWIndex.raise
    split_ifs with hmax
    · show (m.index.layers f.q : Int) = (f.level : Int) + 1
      rw [hlayers]
      norm_cast
    · exact h.entry hnum
  below x := by
    show ((m.index.raise f.q f.level).layers x : Int) ≤ (m.index.raise f.q f.level).maxLayer + 1 ∨ _
    rw [raise_layers, raise_maxLayer]
    rcases h.below x with hle | ⟨u, g, hg, hpc, rfl⟩
    · exact .inl (hle.trans (by omega))
    · by_cases hu : u = t
      · subst hu
        obtain rfl := frame_unique hf hg
        rw [hlayers]
        left
        push_cast
        omega
      · exact .inr ⟨u, g, by rwa [Machine.setThread_other _ hu], hpc, rfl⟩

end Index

section Run

variable (rt : Runtime σ) {γ : Groups Nat} {s : HNSWIndex} {f : InsertFrame σ}

/-- A step of an insert past its append lifts the top layer and returns, or leaves the layers alone. -/
theorem InsertFrame.step_levels (hs : Grouped γ s) (hf : f.Ok γ s) (hap : f.pc ≠ .append) :
    (Levelled s (f.step rt s).1 ∧ ∃ f', (f.step rt s).2 = some f' ∧ f'.q = f.q) ∨
      f.step rt s = (s.raise f.q f.level, none) := by
  unfold InsertFrame.step
  split
  · next hc => exact absurd hc hap
  · exact .inl ⟨levelled_refl s, _, rfl, rfl⟩
  · exact .inl ⟨levelled_refl s, _, rfl, rfl⟩
  · exact .inl ⟨levelled_refl s, _, rfl, rfl⟩
  · exact .inl ⟨levelled_refl s, _, rfl, rfl⟩
  · exact .inl ⟨levelled_refl s, _, rfl, rfl⟩
  · next lc cands hd => exact .inl ⟨⟨layers_setLinks s lc f.q _, rfl, rfl, rfl⟩, _, rfl, rfl⟩
  · next lc cands nb nbs hd =>
    have hpc := hf.pc
    rw [hd] at hpc
    obtain ⟨hlt, hne, -, hnew⟩ := hpc.2.nbs nb List.mem_cons_self
    have hq : lc < s.layers f.q := hf.layers.symm ▸ Nat.lt_succ_of_le hpc.1.le_level
    obtain ⟨ls, heq, -⟩ := hs.toLinksOk.backLink rt hq hlt hne hnew
    rw [heq]
    exact .inl ⟨⟨layers_setLinks s lc nb ls, rfl, rfl, rfl⟩, _, rfl, rfl⟩
  · exact .inl ⟨levelled_refl s, _, rfl, rfl⟩
  · exact .inr rfl

theorem Topped.next (h : Topped m) (hm : Linked γ m) (e : Nat × Action dim) : Topped (m.next rt e) := by
  rcases m.next_cases rt e with ⟨hsame, -⟩ | ⟨c, hnone, hc, hnext⟩ | ⟨c, hcall, -, hnext⟩
  · rwa [hsame]
  · rw [hnext]
    exact h.levelled (levelled_refl m.index) fun f hf => by cases hnone.symm.trans hf
  · rw [hnext]
    cases c with
    | insert f =>
      by_cases hap : f.pc = .append
      · have hentry : 0 < m.index.numVectors → m.index.entryPoint < m.index.numVectors := by
          intro hpos
          obtain ⟨hge, hlayers, -⟩ := hm.index.entry hpos
          exact hm.index.lt (l := 0) (by omega)
        have hstep : f.step rt m.index = (m.index.append f.id f.vec f.metadata f.level,
            if m.index.numVectors = 0 then none else some { f with q := m.index.numVectors, pc := .entry }) := by
          simp only [InsertFrame.step, hap]
        simp only [Machine.callStep, hstep]
        refine h.append hm.index.graph_length hentry f.id f.vec f.metadata f.level (fun g hg => ?_) fun h0 => ?_
        · exact frame_unique hcall hg ▸ hap
        · refine ⟨{ f with q := m.index.numVectors, pc := .entry }, ?_, by simp, rfl⟩
          rw [if_neg h0]
          rfl
      · have hok := (hm.frames e.1 f hcall).resolve_left hap
        rcases InsertFrame.step_levels rt hm.index hok hap with ⟨hlev, f', hf', hq⟩ | hraise
        · refine h.levelled hlev fun g hg _ => ?_
          refine ⟨f', congrArg (Option.map Call.insert) hf', (InsertFrame.step_args rt hf').2, ?_⟩
          exact hq.trans (congrArg InsertFrame.q (frame_unique hcall hg))
        · simp only [Machine.callStep, hraise]
          exact h.raise hcall hok.layers
    | search f =>
      have hother : ∀ g, (m.threads e.1).call ≠ some (.insert g) := fun g hg => by cases hcall.symm.trans hg
      unfold Machine.callStep
      dsimp only
      split
      · exact h.levelled (levelled_refl m.index) fun g hg => absurd hg (hother g)
      · exact h.levelled (levelled_refl m.index) fun g hg => absurd hg (hother g)
    | delete id =>
      have hother : ∀ g, (m.threads e.1).call ≠ some (.insert g) := fun g hg => by cases hcall.symm.trans hg
      exact h.levelled (levelled_deleteVector m.index id) fun g hg => absurd hg (hother g)

theorem topped_run (cfg : HNSWConfig) (es : List (Nat × Action dim)) : Topped (Machine.run rt cfg es) := by
  have hrun : (∃ γ, Linked γ (Machine.run rt cfg es)) ∧ Topped (Machine.run rt cfg es) :=
    invariant_run (I := fun m => (∃ γ, Linked γ m) ∧ Topped m) (fun _ e ⟨⟨_, hm⟩, h⟩ _ => ⟨hm.next rt e, h.next rt hm e⟩)
      ⟨⟨_, linked_new dim cfg⟩, topped_new dim cfg⟩ (along_true _ es)
  exact hrun.2

theorem Topped.entry_lt (htop : Topped m) {γ : Groups Nat} (hm : Linked γ m) (hpos : 0 < m.index.numVectors) :
    m.index.entryPoint < m.index.numVectors := by
  have hlayers := htop.entry hpos
  have hge := htop.maxLayer_nonneg
  exact hm.index.lt (l := 0) (by omega)

/-- Once all inserts have returned the index is in the state that the sequential operations keep. -/
theorem inv_of_returned (cfg : HNSWConfig) (es : List (Nat × Action dim))
    (hdone : AllReturned (Machine.run rt cfg es)) : (Machine.run rt cfg es).index.Inv := by
  obtain ⟨γ, hm⟩ := linked_run rt cfg es
  have htop : Topped (Machine.run rt cfg es) := topped_run rt cfg es
  exact {
    toAligned := (tabled_run rt cfg es).index.toAligned
    toLinksOk := hm.index.toLinksOk
    maxLayer_nonneg := htop.maxLayer_nonneg
    entry_lt := htop.entry_lt hm
    entry_layers := htop.entry
    layers_le := fun x => (htop.below x).resolve_right fun ⟨t, f, hf, _⟩ => hdone t f hf }

/-- The representation invariant under any interleaving of inserts, searches and deletions in which no append
outgrows a buffer in use, or the ids. No step is undefined, and at every moment every array has an entry for each slot, the entry point is a slot of the top layer, the links are in
order, and a node above the top layer belongs to an insert in progress. Once all inserts have returned the
index is in the state that the sequential operations keep. -/
theorem parallel_invariant (cfg : HNSWConfig) (es : List (Nat × Action dim))
    (hroom : Along (Machine.next rt) KeepsRoom (Machine.new dim cfg) es)
    (hids : Along (Machine.next rt) KeepsIds (Machine.new dim cfg) es) :
    let m := Machine.run rt cfg es
    let s := m.index
    Machine.checkedRun rt cfg es = some m ∧
    (s.idMap.length = s.numVectors ∧ s.metadata.length = s.numVectors ∧ s.tombstone.length = s.numVectors ∧
      s.graph.length = s.numVectors ∧ s.rawVectors.length = s.numVectors * dim) ∧
    (0 < s.numVectors → s.entryPoint < s.numVectors ∧ (s.layers s.entryPoint : Int) = s.maxLayer + 1) ∧
    (∀ x l, x ∉ s.links l x ∧ (s.links l x).Nodup ∧ (∀ y ∈ s.links l x, y < s.numVectors ∧ l < s.layers y) ∧
      (s.links l x).length ≤ (if l = 0 then cfg.M * 2 else cfg.M).toNat) ∧
    (∀ x, (s.layers x : Int) ≤ s.maxLayer + 1 ∨ Inserting m x) ∧
    (AllReturned m → s.Inv) := by
  intro m s
  obtain ⟨γ, hm⟩ := linked_run rt cfg es
  have htop : Topped m := topped_run rt cfg es
  have htable : TableOk dim cfg s := (tabled_run rt cfg es).index
  have hmax : ∀ l, s.maxLinks l = if l = 0 then cfg.M * 2 else cfg.M := by
    intro l
    rw [maxLinks, htable.cfg_eq]
  refine ⟨checkedRun_eq rt cfg hroom hids, ⟨htable.idMap_length, htable.metadata_length, htable.tombstone_length, htable.graph_length,
    htable.dim_eq ▸ htable.rawVectors_length⟩, fun hpos => ⟨htop.entry_lt hm hpos, htop.entry hpos⟩, fun x l => ?_,
    htop.below, inv_of_returned rt cfg es⟩
  refine ⟨hm.index.self_free l x, hm.index.nodup l x, fun y hy => ?_, hmax l ▸ hm.index.degree l x⟩
  have hlayer := hm.index.in_layer l x y hy
  exact ⟨hm.index.lt hlayer, hlayer⟩

/-- Node 1 is above the top layer while its insert goes on. -/
theorem parallel_invariant_two :
    let es : List (Nat × Action 1) :=
      [(0, .insert 7 ⟨[3], rfl⟩ [] 0), (1, .insert 8 ⟨[5], rfl⟩ [] 1), (0, .step), (1, .step)]
    let m := Machine.run .sample {} es
    Machine.checkedRun .sample {} es = some m ∧ Inserting m 1 := by
  intro es m
  have hkeeps : Along (Machine.next .sample) KeepsRoom (Machine.new 1 {}) es ∧
      Along (Machine.next .sample) KeepsIds (Machine.new 1 {}) es :=
    along_keeps .sample {} (k := 2) (by decide) (by decide +kernel)
  obtain ⟨hdefined, -, -, -, hbelow, -⟩ := parallel_invariant .sample {} es hkeeps.1 hkeeps.2
  exact ⟨hdefined, (hbelow 1).resolve_left (by decide +kernel)⟩

end Run

end Concurrent

end NeuralDb
