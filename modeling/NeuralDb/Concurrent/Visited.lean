import NeuralDb.Concurrent.Steps
import NeuralDb.Hnsw.Bounded

/-! The indices that `search_layer_` uses into `visited_buf`. The buffer is sized once for each call, so
what matters is whether the index outgrows it while the call goes on. -/

namespace NeuralDb

open Library HNSWIndex

namespace Concurrent

variable {σ : Type} [LinearOrder σ]

/-- The call is past the line that sizes the buffer. -/
def LayerPc.sized : LayerPc σ → Bool
  | .load => false
  | _ => true

def Thread.layerCall (th : Thread σ) : Option (LayerPc σ × Nat) := th.call.bind Call.layerCall

/-- The node that the next step of the thread uses as an index. -/
def Thread.stamp (th : Thread σ) : Option Nat := th.layerCall.bind fun p => p.1.stamp p.2

/-- Every index into the buffer is below its size. -/
def Thread.StampsInBounds (th : Thread σ) : Prop := ∀ x, th.stamp = some x → x < th.bufSize

/-- The thread is in the part of `search_layer_` that uses the buffer. -/
def Thread.usesBuffer (th : Thread σ) : Bool := th.layerCall.any fun p => p.1.sized

/-- The next step of the thread appends a vector. -/
def Thread.appends (th : Thread σ) : Prop :=
  ∃ f : InsertFrame σ, th.call = some (.insert f) ∧ f.pc = .append

/-- No vector is appended while another thread uses a buffer that has room for the present ones only. -/
def KeepsRoom {dim : Nat} (m : Machine σ) (e : Nat × Action dim) : Prop :=
  e.2 = .step → (m.threads e.1).appends →
    ∀ t, t ≠ e.1 → (m.threads t).usesBuffer → m.index.numVectors < (m.threads t).bufSize

/-! ### Node ids in range -/

structure InRange (s : HNSWIndex) : Prop where
  bounded : s.Bounded s.numVectors
  entry_lt : 0 < s.numVectors → s.entryPoint < s.numVectors

def InsertPc.Within (P : Nat → Prop) : InsertPc σ → Prop
  | .descend _ pc => pc.Within P
  | .link _ pc => pc.Within P
  | .assign _ cands => (cands.map Prod.snd).Nodup ∧ ∀ c ∈ cands, P c.2
  | .back _ cands nbs => (∀ c ∈ cands, P c.2) ∧ ∀ nb ∈ nbs, P nb
  | _ => True

def SearchPc.Within (P : Nat → Prop) : SearchPc σ → Prop
  | .descend _ pc => pc.Within P
  | .bottom pc => pc.Within P
  | _ => True

/-- An insert that has appended its vector holds ids of slots only. -/
structure InsertFrame.InRange (n : Nat) (f : InsertFrame σ) : Prop where
  ids : (f.pc = .append ∧ f.ep = 0) ∨ (f.q < n ∧ f.ep < n)
  pc : f.pc.Within (· < n)

structure SearchFrame.InRange (n : Nat) (f : SearchFrame σ) : Prop where
  ids : (f.pc = .load ∧ f.ep = 0) ∨ (f.nv ≤ n ∧ f.ep < n)
  pc : f.pc.Within (· < n)

def Call.InRange (n : Nat) : Call σ → Prop
  | .insert f => f.InRange n
  | .search f => f.InRange n
  | .delete _ => True

theorem Call.InRange.mono {n k : Nat} {c : Call σ} (h : c.InRange n) (hnk : n ≤ k) : c.InRange k := by
  have hlt : ∀ x, x < n → x < k := fun x hx => hx.trans_le hnk
  cases c with
  | insert f =>
    refine ⟨h.ids.imp_right fun hids => ⟨hlt _ hids.1, hlt _ hids.2⟩, ?_⟩
    have hpc := h.pc
    cases hf : f.pc <;> rw [hf] at hpc
    case descend => exact hpc.mono hlt
    case link => exact hpc.mono hlt
    case assign => exact ⟨hpc.1, fun c hc => hlt _ (hpc.2 c hc)⟩
    case back => exact ⟨fun c hc => hlt _ (hpc.1 c hc), fun nb hnb => hlt _ (hpc.2 nb hnb)⟩
    all_goals trivial
  | search f =>
    refine ⟨h.ids.imp_right fun hids => ⟨hids.1.trans hnk, hlt _ hids.2⟩, ?_⟩
    have hpc := h.pc
    cases hf : f.pc <;> rw [hf] at hpc
    case descend => exact hpc.mono hlt
    case bottom => exact hpc.mono hlt
    all_goals trivial
  | delete id => trivial

theorem InsertFrame.InRange.held {n : Nat} {f : InsertFrame σ} (h : f.InRange n) (hpc : f.pc ≠ .append) :
    f.q < n ∧ f.ep < n := h.ids.resolve_left fun hap => hpc hap.1

theorem SearchFrame.InRange.held {n : Nat} {f : SearchFrame σ} (h : f.InRange n) (hpc : f.pc ≠ .load) :
    f.nv ≤ n ∧ f.ep < n := h.ids.resolve_left fun hload => hpc hload.1

omit [LinearOrder σ] in
theorem InsertFrame.layerCall_eq_some {f : InsertFrame σ} {pc : LayerPc σ} {ep : Nat}
    (h : f.layerCall = some (pc, ep)) : ep = f.ep ∧ ∃ lc, f.pc = .descend lc pc ∨ f.pc = .link lc pc := by
  unfold InsertFrame.layerCall at h
  split at h
  · next lc pc' hf =>
    obtain ⟨rfl, rfl⟩ := Prod.mk.inj (Option.some.inj h)
    exact ⟨rfl, lc, .inl hf⟩
  · next lc pc' hf =>
    obtain ⟨rfl, rfl⟩ := Prod.mk.inj (Option.some.inj h)
    exact ⟨rfl, lc, .inr hf⟩
  · contradiction

omit [LinearOrder σ] in
theorem SearchFrame.layerCall_eq_some {f : SearchFrame σ} {pc : LayerPc σ} {ep : Nat}
    (h : f.layerCall = some (pc, ep)) : ep = f.ep ∧ ((∃ lc, f.pc = .descend lc pc) ∨ f.pc = .bottom pc) := by
  unfold SearchFrame.layerCall at h
  split at h
  · next lc pc' hf =>
    obtain ⟨rfl, rfl⟩ := Prod.mk.inj (Option.some.inj h)
    exact ⟨rfl, .inl ⟨lc, hf⟩⟩
  · next pc' hf =>
    obtain ⟨rfl, rfl⟩ := Prod.mk.inj (Option.some.inj h)
    exact ⟨rfl, .inr hf⟩
  · contradiction

/-- The `search_layer_` call that a call is in holds ids in range. -/
theorem Call.InRange.layer {n : Nat} {c : Call σ} (h : c.InRange n) {pc : LayerPc σ} {ep : Nat}
    (hc : c.layerCall = some (pc, ep)) : ep < n ∧ pc.Within (· < n) := by
  cases c with
  | insert f =>
    have hpc := h.pc
    obtain ⟨rfl, lc, hf | hf⟩ := InsertFrame.layerCall_eq_some hc
    all_goals
      rw [hf] at hpc
      exact ⟨(h.held (by simp [hf])).2, hpc⟩
  | search f =>
    have hpc := h.pc
    obtain ⟨rfl, ⟨lc, hf⟩ | hf⟩ := SearchFrame.layerCall_eq_some hc
    all_goals
      rw [hf] at hpc
      exact ⟨(h.held (by simp [hf])).2, hpc⟩
  | delete id => contradiction

section Step

variable (rt : Runtime σ) {s : HNSWIndex}

theorem linkFrom_within (P : Nat → Prop) (n : Nat) : (linkFrom n : InsertPc σ).Within P := by
  cases n <;> trivial

theorem InRange.closed (hs : InRange s) (l : Nat) :
    ∀ x, x < s.numVectors → ∀ y ∈ s.links l x, y < s.numVectors :=
  fun x _ y hy => hs.bounded.lt l x y hy

theorem InRange.append (hs : InRange s) (id : UInt64) (vec : Vec) (metadata : Bytes) (level : Nat) :
    InRange (s.append id vec metadata level) where
  bounded := hs.bounded.append id vec metadata level
  entry_lt _ := by
    change (if s.numVectors = 0 then 0 else s.entryPoint) < s.numVectors + 1
    split_ifs with h0
    · exact Nat.succ_pos _
    · exact Nat.lt_succ_of_lt (hs.entry_lt (Nat.pos_of_ne_zero h0))

theorem InRange.regraph {t : HNSWIndex} (hs : InRange s) (h : Regraphed s t)
    (hb : t.Bounded s.numVectors) : InRange t ∧ t.numVectors = s.numVectors := by
  have hnum : t.numVectors = s.numVectors := h.table.numVectors_eq
  refine ⟨⟨hnum.symm ▸ hb, fun hpos => ?_⟩, hnum⟩
  have hentry : t.entryPoint = s.entryPoint := by rw [h.frame]
  rw [hentry, hnum]
  exact hs.entry_lt (hnum ▸ hpos)

theorem InRange.raise (hs : InRange s) {q : Nat} (hq : q < s.numVectors) (level : Nat) :
    InRange (s.raise q level) ∧ (s.raise q level).numVectors = s.numVectors := by
  unfold HNSWIndex.raise
  split_ifs
  · exact ⟨⟨⟨hs.bounded.graph_length, hs.bounded.lt, hs.bounded.degree⟩, fun _ => hq⟩, rfl⟩
  · exact ⟨hs, rfl⟩

theorem InRange.deleteVector (hs : InRange s) (id : UInt64) :
    InRange (s.deleteVector id) ∧ (s.deleteVector id).numVectors = s.numVectors := by
  unfold HNSWIndex.deleteVector
  split
  · exact ⟨⟨⟨hs.bounded.graph_length, hs.bounded.lt, hs.bounded.degree⟩, hs.entry_lt⟩, rfl⟩
  · exact ⟨hs, rfl⟩

/-- A step from `s` that leaves the number of slots alone, or appends one. -/
structure StaysInRange (s t : HNSWIndex) (appends : Prop) : Prop where
  inRange : InRange t
  count : ¬ appends → t.numVectors = s.numVectors
  grows : s.numVectors ≤ t.numVectors ∧ t.numVectors ≤ s.numVectors + 1

theorem StaysInRange.of_eq {t : HNSWIndex} {appends : Prop} (ht : InRange t)
    (hnum : t.numVectors = s.numVectors) : StaysInRange s t appends :=
  ⟨ht, fun _ => hnum, hnum.ge, hnum.le.trans (Nat.le_succ _)⟩

/-- One step of an insert keeps ids in range; only the append makes the range larger. -/
theorem InsertFrame.InRange.step {f : InsertFrame σ} (hs : Concurrent.InRange s)
    (hf : f.InRange s.numVectors) :
    StaysInRange s (f.step rt s).1 (f.pc = .append) ∧
      ∀ f', (f.step rt s).2 = some f' → f'.InRange (f.step rt s).1.numVectors := by
  have hpc := hf.pc
  -- every region but the append, the two that write links and the raise leaves the index alone
  have hquiet : ∀ g : InsertFrame σ, g.InRange s.numVectors →
      StaysInRange s s (f.pc = .append) ∧ ∀ f', some g = some f' → f'.InRange s.numVectors :=
    fun g hg => ⟨.of_eq hs rfl, fun f' hf' => Option.some.inj hf' ▸ hg⟩
  unfold InsertFrame.step
  split
  · next hap =>
    refine ⟨⟨hs.append _ _ _ _, fun hne => absurd hap hne, Nat.le_succ _, le_rfl⟩, fun f' hf' => ?_⟩
    split_ifs at hf' with h0
    obtain rfl := Option.some.inj hf'
    refine ⟨.inr ⟨Nat.lt_succ_self _, ?_⟩, trivial⟩
    -- `ep` still has its initial value 0, or it is a slot
    rcases hf.ids with ⟨-, hep⟩ | ⟨-, hep⟩
    · exact hep ▸ Nat.succ_pos _
    · exact Nat.lt_succ_of_lt hep
  · next hen =>
    obtain ⟨hq, -⟩ := hf.held (by simp [hen])
    refine hquiet _ ⟨.inr ⟨hq, hs.entry_lt (Nat.zero_lt_of_lt hq)⟩, ?_⟩
    dsimp only
    split_ifs
    · trivial
    · exact linkFrom_within _ _
  · next lc out hd =>
    obtain ⟨hq, hep⟩ := hf.held (by simp [hd])
    rw [hd] at hpc
    refine hquiet _ ⟨.inr ⟨hq, front_mem (P := (· < s.numVectors)) hep hpc.2⟩, ?_⟩
    dsimp only
    split_ifs
    · trivial
    · exact linkFrom_within _ _
  · next lc pc _ hd =>
    obtain ⟨hq, hep⟩ := hf.held (by simp [hd])
    rw [hd] at hpc
    exact hquiet _ ⟨.inr ⟨hq, hep⟩, LayerPc.Within.step rt hpc hep (hs.closed lc)⟩
  · next lc out hd =>
    rw [hd] at hpc
    exact hquiet _ ⟨.inr (hf.held (by simp [hd])), hpc⟩
  · next lc pc _ hd =>
    obtain ⟨hq, hep⟩ := hf.held (by simp [hd])
    rw [hd] at hpc
    exact hquiet _ ⟨.inr ⟨hq, hep⟩, LayerPc.Within.step rt hpc hep (hs.closed lc)⟩
  · next lc cands hd =>
    obtain ⟨hq, hep⟩ := hf.held (by simp [hd])
    rw [hd] at hpc
    obtain ⟨-, hnbs⟩ := select_within (P := (· < s.numVectors)) rt s.cfg.M hpc.1 hpc.2
    have hb := hs.bounded.setLinks (l := lc) f.q hnbs
      ((selectNeighbours_length rt _ _).trans (maxLinks_ge s lc))
    obtain ⟨ht, hnum⟩ := hs.regraph (regraphed_setLinks s lc f.q _) hb
    refine ⟨.of_eq ht hnum, fun f' hf' => ?_⟩
    obtain rfl := Option.some.inj hf'
    exact ⟨.inr ⟨hq, hep⟩, hpc.2, hnbs⟩
  · next lc cands nb nbs hd =>
    obtain ⟨hq, hep⟩ := hf.held (by simp [hd])
    rw [hd] at hpc
    have hb := hs.bounded.backLink rt lc hq (hpc.2 nb List.mem_cons_self)
    obtain ⟨ht, hnum⟩ := hs.regraph (regraphed_backLink rt s lc f.q nb) hb
    refine ⟨.of_eq ht hnum, fun f' hf' => ?_⟩
    obtain rfl := Option.some.inj hf'
    rw [hnum]
    exact ⟨.inr ⟨hq, hep⟩, hpc.1, fun x hx => hpc.2 x (List.mem_cons_of_mem nb hx)⟩
  · next lc cands hd =>
    obtain ⟨hq, hep⟩ := hf.held (by simp [hd])
    rw [hd] at hpc
    exact hquiet _ ⟨.inr ⟨hq, front_mem (P := (· < s.numVectors)) hep hpc.1⟩, linkFrom_within _ _⟩
  · next hr =>
    obtain ⟨ht, hnum⟩ := hs.raise (hf.held (by simp [hr])).1 f.level
    exact ⟨.of_eq ht hnum, fun f' hf' => nomatch hf'⟩

theorem SearchFrame.InRange.step {f : SearchFrame σ} (hs : Concurrent.InRange s)
    (hf : f.InRange s.numVectors) : ∀ f', f.step rt s = .inl f' → f'.InRange s.numVectors := by
  have hpc := hf.pc
  intro f' hf'
  unfold SearchFrame.step at hf'
  have hdown : ∀ n, (SearchFrame.descendFrom n : SearchPc σ).Within (· < s.numVectors) := by
    intro n
    cases n <;> trivial
  split at hf'
  · split_ifs at hf' with h0
    obtain rfl := Sum.inl.inj hf'
    refine ⟨.inr ⟨le_rfl, ?_⟩, trivial⟩
    rcases hf.ids with ⟨-, hep⟩ | ⟨-, hep⟩
    · exact hep ▸ Nat.pos_of_ne_zero h0
    · exact hep
  · next hen =>
    obtain ⟨hnv, hep⟩ := hf.held (by simp [hen])
    dsimp only at hf'
    split at hf'
    · contradiction
    · next ep hlive =>
      obtain rfl := Sum.inl.inj hf'
      refine ⟨.inr ⟨hnv, ?_⟩, hdown _⟩
      -- a deleted entry point is replaced by the first live slot of the `nv` that were counted
      split_ifs at hlive
      · exact (List.mem_range.mp (List.mem_of_find?_eq_some hlive)).trans_le hnv
      · exact Option.some.inj hlive ▸ hs.entry_lt (Nat.zero_lt_of_lt hep)
  · next lc out hd =>
    obtain ⟨hnv, hep⟩ := hf.held (by simp [hd])
    rw [hd] at hpc
    obtain rfl := Sum.inl.inj hf'
    exact ⟨.inr ⟨hnv, front_mem (P := (· < s.numVectors)) hep hpc.2⟩, hdown _⟩
  · next lc pc _ hd =>
    obtain ⟨hnv, hep⟩ := hf.held (by simp [hd])
    rw [hd] at hpc
    obtain rfl := Sum.inl.inj hf'
    exact ⟨.inr ⟨hnv, hep⟩, LayerPc.Within.step rt hpc hep (hs.closed lc)⟩
  · next out hd =>
    obtain rfl := Sum.inl.inj hf'
    exact ⟨.inr (hf.held (by simp [hd])), trivial⟩
  · next pc _ hd =>
    obtain ⟨hnv, hep⟩ := hf.held (by simp [hd])
    rw [hd] at hpc
    obtain rfl := Sum.inl.inj hf'
    exact ⟨.inr ⟨hnv, hep⟩, LayerPc.Within.step rt hpc hep (hs.closed 0)⟩
  · contradiction

omit [LinearOrder σ] in
theorem layerCall_linkFrom {f : InsertFrame σ} {n : Nat} (hpc : f.pc = linkFrom n) {p : LayerPc σ × Nat}
    (h : f.layerCall = some p) : p.1 = .load := by
  rw [InsertFrame.layerCall, hpc] at h
  cases n with
  | zero => contradiction
  | succ n => exact (congrArg Prod.fst (Option.some.inj h)).symm

/-- A call that uses the buffer after a step was in `search_layer_` before it. -/
theorem InsertFrame.layerCall_step {f f' : InsertFrame σ} (hf' : (f.step rt s).2 = some f')
    {p : LayerPc σ × Nat} (hp : f'.layerCall = some p) (hsized : p.1.sized) :
    ∃ p₀, f.layerCall = some p₀ := by
  have hload : p.1 ≠ .load := fun h => by rw [h] at hsized; contradiction
  unfold InsertFrame.step at hf'
  split at hf'
  · dsimp only at hf'
    split_ifs at hf'
    obtain rfl := Option.some.inj hf'
    contradiction
  · obtain rfl := Option.some.inj hf'
    dsimp only at hp
    split_ifs at hp
    · exact absurd (congrArg Prod.fst (Option.some.inj hp)).symm hload
    · exact absurd (layerCall_linkFrom rfl hp) hload
  · next lc out hd => exact ⟨_, by rw [InsertFrame.layerCall, hd]⟩
  · next lc pc _ hd => exact ⟨_, by rw [InsertFrame.layerCall, hd]⟩
  · next lc out hd => exact ⟨_, by rw [InsertFrame.layerCall, hd]⟩
  · next lc pc _ hd => exact ⟨_, by rw [InsertFrame.layerCall, hd]⟩
  · obtain rfl := Option.some.inj hf'
    contradiction
  · obtain rfl := Option.some.inj hf'
    contradiction
  · obtain rfl := Option.some.inj hf'
    exact absurd (layerCall_linkFrom rfl hp) hload
  · contradiction

theorem SearchFrame.layerCall_step {f f' : SearchFrame σ} (hf' : f.step rt s = .inl f')
    {p : LayerPc σ × Nat} (hp : f'.layerCall = some p) (hsized : p.1.sized) :
    ∃ p₀, f.layerCall = some p₀ := by
  have hload : p.1 ≠ .load := fun h => by rw [h] at hsized; contradiction
  have hdown : ∀ (g : SearchFrame σ) (n : Nat), g.pc = descendFrom n → g.layerCall = some p → False := by
    intro g n hpc h
    rw [SearchFrame.layerCall, hpc] at h
    cases n <;> exact hload (congrArg Prod.fst (Option.some.inj h)).symm
  unfold SearchFrame.step at hf'
  split at hf'
  · split_ifs at hf'
    obtain rfl := Sum.inl.inj hf'
    contradiction
  · dsimp only at hf'
    split at hf'
    · contradiction
    · obtain rfl := Sum.inl.inj hf'
      exact (hdown _ _ rfl hp).elim
  · next lc out hd => exact ⟨_, by rw [SearchFrame.layerCall, hd]⟩
  · next lc pc _ hd => exact ⟨_, by rw [SearchFrame.layerCall, hd]⟩
  · next out hd => exact ⟨_, by rw [SearchFrame.layerCall, hd]⟩
  · next pc _ hd => exact ⟨_, by rw [SearchFrame.layerCall, hd]⟩
  · contradiction

omit [LinearOrder σ] in
theorem InsertFrame.layerCall_append {f : InsertFrame σ} (h : f.pc = .append) : f.layerCall = none := by
  rw [InsertFrame.layerCall, h]

theorem callStep_inRange {c : Call σ} (hs : InRange s) (hc : c.InRange s.numVectors)
    (hits : List (σ × UInt64)) :
    StaysInRange s (Machine.callStep rt s hits c).1 (∃ f : InsertFrame σ, c = .insert f ∧ f.pc = .append) ∧
      ∀ c', (Machine.callStep rt s hits c).2.1 = some c' →
        c'.InRange (Machine.callStep rt s hits c).1.numVectors ∧
        ∀ p, c'.layerCall = some p → p.1.sized → ∃ p₀, c.layerCall = some p₀ := by
  cases c with
  | insert f =>
    obtain ⟨hstays, hframe⟩ := InsertFrame.InRange.step rt hs hc
    refine ⟨⟨hstays.inRange, fun hne => hstays.count fun hap => hne ⟨f, rfl, hap⟩, hstays.grows⟩, ?_⟩
    intro c' hc'
    obtain ⟨f', hf', rfl⟩ := Option.map_eq_some_iff.mp hc'
    exact ⟨hframe f' hf', fun p hp hsized => InsertFrame.layerCall_step rt hf' hp hsized⟩
  | search f =>
    unfold Machine.callStep
    dsimp only
    cases hf : f.step rt s with
    | inl f' =>
      refine ⟨.of_eq hs rfl, fun c' hc' => ?_⟩
      obtain rfl := Option.some.inj hc'
      exact ⟨SearchFrame.InRange.step rt hs hc f' hf, fun p hp hsized => SearchFrame.layerCall_step rt hf hp hsized⟩
    | inr out => exact ⟨.of_eq hs rfl, fun c' hc' => nomatch hc'⟩
  | delete id =>
    obtain ⟨ht, hnum⟩ := hs.deleteVector id
    exact ⟨.of_eq ht hnum, fun c' hc' => nomatch hc'⟩

end Step

/-! ### Whole runs -/

/-- Ids are in range, and the buffers in use have room for all of them. -/
structure Bounds (m : Machine σ) : Prop where
  index : InRange m.index
  calls : ∀ t c, (m.threads t).call = some c → c.InRange m.index.numVectors
  room : ∀ t, (m.threads t).usesBuffer → m.index.numVectors ≤ (m.threads t).bufSize

theorem bounds_new (dim : Nat) (cfg : HNSWConfig) : Bounds (Machine.new dim cfg : Machine σ) where
  index := ⟨⟨rfl, fun _ _ _ hy => absurd hy List.not_mem_nil, fun _ _ => Nat.zero_le _⟩,
    fun hpos => absurd hpos (lt_irrefl 0)⟩
  calls _ _ hc := nomatch hc
  room _ h := absurd h (by simp [Machine.new, Thread.usesBuffer, Thread.layerCall])

theorem Bounds.stamps {m : Machine σ} (h : Bounds m) (t : Nat) : (m.threads t).StampsInBounds := by
  intro x hx
  unfold Thread.stamp Thread.layerCall at hx
  cases hcall : (m.threads t).call with
  | none => simp [hcall] at hx
  | some c =>
    cases hlayer : c.layerCall with
    | none => simp [hcall, hlayer] at hx
    | some p =>
      have hstamp : p.1.stamp p.2 = some x := by simpa [hcall, hlayer] using hx
      obtain ⟨hep, hpc⟩ := (h.calls t c hcall).layer hlayer
      have hlt : x < m.index.numVectors := LayerPc.Within.stamp hpc hep hstamp
      have huses : (m.threads t).usesBuffer := by
        have hsized : p.1.sized := by
          cases hp : p.1 <;> rw [hp] at hstamp <;> first | rfl | contradiction
        simp [Thread.usesBuffer, Thread.layerCall, hcall, hlayer, hsized]
      exact hlt.trans_le (h.room t huses)

omit [LinearOrder σ] in
theorem usesBuffer_of_call {th : Thread σ} (h : th.usesBuffer) :
    ∃ c p, th.call = some c ∧ c.layerCall = some p ∧ p.1.sized := by
  unfold Thread.usesBuffer Thread.layerCall at h
  cases hcall : th.call with
  | none => simp [hcall] at h
  | some c =>
    cases hlayer : c.layerCall with
    | none => simp [hcall, hlayer] at h
    | some p => exact ⟨c, p, rfl, hlayer, by simpa [hcall, hlayer] using h⟩

omit [LinearOrder σ] in
theorem le_callBuffer {s : HNSWIndex} {c : Call σ} {p : LayerPc σ × Nat} {size : Nat}
    (hc : c.layerCall = some p) (h : p.1.sized → s.numVectors ≤ size) :
    s.numVectors ≤ Machine.callBuffer s size c := by
  obtain ⟨pc, ep⟩ := p
  unfold Machine.callBuffer
  rw [hc]
  cases pc with
  | load =>
    dsimp only [sizeBuffer]
    split_ifs <;> omega
  | score => exact h rfl
  | loop b => exact h rfl
  | expand xs b => exact h rfl
  | done out => exact h rfl

theorem fresh_of_call {dim : Nat} {a : Action dim} {c : Call σ} (hc : a.call? = some c) :
    (∀ n, c.InRange n) ∧ c.layerCall = none := by
  cases a with
  | insert id vec metadata level =>
    obtain rfl := Option.some.inj hc
    exact ⟨fun n => ⟨.inl ⟨rfl, rfl⟩, trivial⟩, rfl⟩
  | search query k =>
    obtain rfl := Option.some.inj hc
    exact ⟨fun n => ⟨.inl ⟨rfl, rfl⟩, trivial⟩, rfl⟩
  | delete id =>
    obtain rfl := Option.some.inj hc
    exact ⟨fun n => trivial, rfl⟩
  | step => contradiction

theorem Bounds.next {dim : Nat} (rt : Runtime σ) {m : Machine σ} {e : Nat × Action dim} (h : Bounds m)
    (hroom : KeepsRoom m e) : Bounds (m.next rt e) := by
  have hids : InRange (m.next rt e).index ∧ ∀ t c, ((m.next rt e).threads t).call = some c →
      c.InRange (m.next rt e).index.numVectors := by
    apply Machine.next_holds (C := fun s c => c.InRange s.numVectors) rt h.index h.calls
    · exact fun c hc => (fresh_of_call hc).1 _
    · intro c hits hc
      obtain ⟨hstays, hafter⟩ := callStep_inRange rt h.index hc hits
      exact ⟨hstays.inRange, fun c' hc' => (hafter c' hc').1, fun d hd => hd.mono hstays.grows.1⟩
  refine ⟨hids.1, hids.2, fun u hu => ?_⟩
  rcases m.next_cases rt e with ⟨hsame, -⟩ | ⟨c, hidle, hc, hnext⟩ | ⟨c, hcall, hstep, hnext⟩
  · rw [hsame] at hu ⊢
    exact h.room u hu
  · rw [hnext] at hu ⊢
    by_cases hut : u = e.1
    · subst hut
      rw [Machine.setThread_self] at hu
      simp [Thread.usesBuffer, Thread.layerCall, (fresh_of_call hc).2] at hu
    · rw [Machine.setThread_other _ hut] at hu ⊢
      exact h.room u hu
  · obtain ⟨hstays, hafter⟩ := callStep_inRange rt h.index (h.calls _ c hcall) (m.threads e.1).hits
    rw [hnext] at hu ⊢
    by_cases hut : u = e.1
    · subst hut
      rw [Machine.setThread_self] at hu ⊢
      obtain ⟨c', p, hc', hp, hsized⟩ := usesBuffer_of_call hu
      obtain ⟨p₀, hp₀⟩ := (hafter c' hc').2 p hp hsized
      -- a call inside `search_layer_` does not append
      have hcount := hstays.count (by
        rintro ⟨f, rfl, hap⟩
        change f.layerCall = some p₀ at hp₀
        rw [InsertFrame.layerCall_append hap] at hp₀
        contradiction)
      show (Machine.callStep rt m.index (m.threads e.1).hits c).1.numVectors ≤ _
      rw [hcount]
      refine le_callBuffer hp₀ fun hsized₀ => h.room e.1 ?_
      simp [Thread.usesBuffer, Thread.layerCall, hcall, hp₀, hsized₀]
    · rw [Machine.setThread_other _ hut] at hu ⊢
      have hold := h.room u hu
      by_cases hap : ∃ f : InsertFrame σ, c = .insert f ∧ f.pc = .append
      · obtain ⟨f, rfl, hpc⟩ := hap
        have hlt := hroom hstep ⟨f, hcall, hpc⟩ u hut hu
        exact hstays.grows.2.trans hlt
      · exact (hstays.count hap).trans_le hold

/-- In every run in which no append outgrows a buffer in use, all indices are in bounds. -/
theorem visited_in_bounds {dim : Nat} (rt : Runtime σ) (cfg : HNSWConfig) (es : List (Nat × Action dim))
    (hes : Along (Machine.next rt) KeepsRoom (Machine.new dim cfg) es) (t : Nat) :
    ((Machine.run rt cfg es).threads t).StampsInBounds :=
  (invariant_run (fun _ _ h hroom => Bounds.next rt h hroom) (bounds_new dim cfg) hes).stamps t

/-- An insert and then a search up to its first index. -/
theorem visited_in_bounds_two :
    ((Machine.run Runtime.sample {} [((0, .insert 7 ⟨[1], rfl⟩ [] 0) : Nat × Action 1), (0, .step),
      (1, .search ⟨[1], rfl⟩ 1), (1, .step), (1, .step), (1, .step)]).threads 1).StampsInBounds := by
  have hbegin : ∀ (m : Machine Nat) (t : Nat) (a : Action 1), a ≠ .step → KeepsRoom m (t, a) :=
    fun m t a ha h => absurd h ha
  have hsearch : ∀ m : Machine Nat, (∃ f, (m.threads 1).call = some (.search f)) →
      KeepsRoom m ((1, .step) : Nat × Action 1) := by
    rintro m ⟨f, hf⟩ - ⟨g, hg, -⟩
    exact nomatch hf.symm.trans hg
  refine visited_in_bounds Runtime.sample {} _ ?_ 1
  refine .intro (hbegin _ _ _ nofun) (.intro (fun _ _ t ht h => ?_) (.intro (hbegin _ _ _ nofun)
    (.intro (hsearch _ ⟨_, rfl⟩) (.intro (hsearch _ ⟨_, rfl⟩) (.intro (hsearch _ ⟨_, rfl⟩) trivial)))))
  -- no other thread is in a call when the vector is appended
  have hidle : (Machine.next Runtime.sample (Machine.new 1 {})
      ((0, .insert 7 ⟨[1], rfl⟩ [] 0) : Nat × Action 1)).threads t = ({} : Thread Nat) :=
    Machine.setThread_other _ ht _
  rw [hidle] at h
  contradiction

/-! ### A buffer that is outgrown

Inserts that stop behind their append let the index grow without a link to the new nodes; one insert
that completes then links the last of them to the entry point. -/

section Overflow

variable (rt : Runtime σ) {dim : Nat} {s s' : HNSWIndex} {m : Machine σ} {t : Nat} {f f' : InsertFrame σ}

/-- The index, and the frame of an inserting thread. -/
structure AtFrame (t : Nat) (s : HNSWIndex) (f : InsertFrame σ) (m : Machine σ) : Prop where
  index : m.index = s
  call : (m.threads t).call = some (.insert f)

theorem atFrame_begin (hidle : m.threads t = {}) (id : UInt64) (vec : VecOf dim) (metadata : Bytes)
    (level : Nat) : AtFrame t m.index { id, vec := vec.1, metadata, level }
      (Machine.next rt m (t, .insert id vec metadata level)) := by
  have hcall : (m.threads t).call = none := by rw [hidle]
  rw [Machine.next_begin rt hcall rfl]
  exact ⟨rfl, by rw [Machine.setThread_self]⟩

theorem AtFrame.step (h : AtFrame t s f m) (hf : f.step rt s = (s', some f')) :
    AtFrame t s' f' (Machine.next rt m ((t, .step) : Nat × Action dim)) := by
  obtain ⟨rfl, hcall⟩ := h
  rw [Machine.next_step rt hcall]
  refine ⟨congrArg Prod.fst hf, ?_⟩
  rw [Machine.setThread_self]
  show (f.step rt m.index).2.map Call.insert = _
  rw [hf]
  rfl

/-- An index past its first insert, with one layer and no links. -/
structure Unlinked (n : Nat) (s : HNSWIndex) : Prop where
  count : s.numVectors = n
  graph_length : s.graph.length = n
  pos : 0 < n
  entry : s.entryPoint = 0
  maxLayer : s.maxLayer = 0
  links : ∀ l x, s.links l x = []
  cfg : s.cfg = {}

theorem Unlinked.append {n : Nat} (h : Unlinked n s) (vec : Vec) : Unlinked (n + 1) (s.append 0 vec [] 0) := by
  have h0 : s.numVectors ≠ 0 := h.count ▸ h.pos.ne'
  exact {
    count := congrArg (· + 1) h.count
    graph_length := by simp [HNSWIndex.append, h.graph_length]
    pos := Nat.succ_pos n
    entry := (if_neg h0).trans h.entry
    maxLayer := (if_neg h0).trans h.maxLayer
    links := fun l x => (links_append s 0 vec [] 0 l x).trans (h.links l x)
    cfg := h.cfg }

theorem step_append {n : Nat} (h : Unlinked n s) (vec : Vec) :
    InsertFrame.step rt s { id := 0, vec, metadata := [], level := 0 } =
      (s.append 0 vec [] 0, some { id := 0, vec, metadata := [], level := 0, q := n, pc := .entry }) := by
  simp only [InsertFrame.step, h.count, if_neg h.pos.ne']

/-- The first round of the `while` loop never stops: the entry point is not worse than itself. -/
theorem step_loop_start (s : HNSWIndex) (a : LayerArgs) (x : Nat) (v : σ) :
    LayerPc.step rt s a (.loop (Beam.start x v)) =
      .expand (s.links a.layer x) ⟨[], [(v, x)], [x]⟩ := by
  have hstops : ¬ Beam.stops a.ef (Beam.start x v) (v, x) := fun h => lt_irrefl _ h.1
  exact if_neg hstops

/-- A thread that starts an insert and stops behind its append. -/
def stalledInsert (vec : VecOf dim) (t : Nat) : List (Nat × Action dim) := [(t, .insert 0 vec [] 0), (t, .step)]

def stalledInserts (vec : VecOf dim) (t k : Nat) : List (Nat × Action dim) :=
  (List.range' t k).flatMap (stalledInsert vec)

theorem threads_stalled (vec : VecOf dim) (t k : Nat) {u : Nat} (hu : u < t ∨ t + k ≤ u) (m : Machine σ) :
    (runFrom (Machine.next rt) m (stalledInserts vec t k)).threads u = m.threads u := by
  apply Machine.threads_runFrom_other
  intro e he
  obtain ⟨v, hv, he⟩ := List.mem_flatMap.mp he
  have hev : e.1 = v := by
    rcases List.mem_pair.mp he with rfl | rfl <;> rfl
  obtain ⟨hle, hlt⟩ := List.mem_range'_1.mp hv
  omega

theorem unlinked_stalled (vec : VecOf dim) (k : Nat) {n t : Nat} {m : Machine σ} (h : Unlinked n m.index)
    (hidle : ∀ u, t ≤ u → m.threads u = {}) :
    Unlinked (n + k) (runFrom (Machine.next rt) m (stalledInserts vec t k)).index := by
  induction k generalizing n t m with
  | zero => exact h
  | succ k ih =>
    let m₁ := runFrom (Machine.next rt) m (stalledInsert vec t)
    have happend : AtFrame t _ _ m₁ :=
      (atFrame_begin rt (hidle t le_rfl) 0 vec [] 0).step rt (step_append rt h vec.1)
    have hidle₁ : ∀ u, t + 1 ≤ u → m₁.threads u = {} := by
      intro u hu
      have hone : stalledInserts vec t 1 = stalledInsert vec t := List.append_nil _
      exact (hone ▸ threads_stalled rt vec t 1 (.inr hu) m).trans (hidle u (Nat.le_of_succ_le hu))
    have hrest := ih (happend.index ▸ h.append vec.1) hidle₁
    have hrun : runFrom (Machine.next rt) m₁ (stalledInserts vec (t + 1) k) =
        runFrom (Machine.next rt) m (stalledInserts vec t (k + 1)) := (runFrom_append _ _ _ _).symm
    rwa [hrun, Nat.add_right_comm] at hrest

/-- A complete insert on thread `t`: the append and nine more steps, up to its only back link. -/
def linkedInsert (vec : VecOf dim) (t : Nat) : List (Nat × Action dim) :=
  (t, .insert 0 vec [] 0) :: List.replicate 10 (t, .step)

theorem links_linkedInsert (vec : VecOf dim) {n : Nat} (h : Unlinked n m.index) (hidle : m.threads t = {}) :
    (runFrom (Machine.next rt) m (linkedInsert vec t)).index.links 0 0 = [n] := by
  let s₁ := m.index.append 0 vec.1 [] 0
  have h₁ : Unlinked (n + 1) s₁ := h.append vec.1
  let v : σ := s₁.simRaw rt vec.1 0
  let b : Beam σ Nat := ⟨[], [(v, 0)], [0]⟩
  let f : InsertPc σ → InsertFrame σ := fun pc =>
    { id := 0, vec := vec.1, metadata := [], level := 0, q := n, pc := pc }
  have hsort : rt.sort [(v, 0)] = [(v, 0)] := List.perm_singleton.mp (rt.sort_perm _)
  have hselect : selectNeighbours rt [(v, 0)] s₁.cfg.M = [0] := by
    rw [selectNeighbours, hsort, h₁.cfg]
    rfl
  -- the search of layer 0 sees the entry point only
  have happend : AtFrame t s₁ (f .entry) (runFrom (Machine.next rt) m (stalledInsert vec t)) :=
    (atFrame_begin rt hidle 0 vec [] 0).step rt (step_append rt h vec.1)
  have hentry : InsertFrame.step rt s₁ (f .entry) = (s₁, some (f (.link 0 .load))) := by
    simp only [f, InsertFrame.step, h₁.entry, h₁.maxLayer]
    rfl
  have hload : InsertFrame.step rt s₁ (f (.link 0 .load)) = (s₁, some (f (.link 0 .score))) := rfl
  have hscore : InsertFrame.step rt s₁ (f (.link 0 .score)) =
      (s₁, some (f (.link 0 (.loop (Beam.start 0 v))))) := rfl
  have hloop : InsertFrame.step rt s₁ (f (.link 0 (.loop (Beam.start 0 v)))) =
      (s₁, some (f (.link 0 (.expand [] b)))) := by
    show (s₁, some (f (.link 0 (LayerPc.step rt s₁ _ (.loop (Beam.start 0 v)))))) = _
    rw [step_loop_start, h₁.links]
  have hexpand : InsertFrame.step rt s₁ (f (.link 0 (.expand [] b))) = (s₁, some (f (.link 0 (.loop b)))) := rfl
  have hend : InsertFrame.step rt s₁ (f (.link 0 (.loop b))) = (s₁, some (f (.link 0 (.done [(v, 0)])))) := by
    change (s₁, some (f (.link 0 (.done (rt.sort [(v, 0)]))))) = _
    rw [hsort]
  have hdone : InsertFrame.step rt s₁ (f (.link 0 (.done [(v, 0)]))) =
      (s₁, some (f (.assign 0 [(v, 0)]))) := rfl
  have hassign : InsertFrame.step rt s₁ (f (.assign 0 [(v, 0)])) =
      (s₁.setLinks 0 n [0], some (f (.back 0 [(v, 0)] [0]))) := by
    change (s₁.setLinks 0 n (selectNeighbours rt [(v, 0)] s₁.cfg.M),
      some (f (.back 0 [(v, 0)] (selectNeighbours rt [(v, 0)] s₁.cfg.M)))) = _
    rw [hselect]
  let s₂ := s₁.setLinks 0 n [0]
  have hback : InsertFrame.step rt s₂ (f (.back 0 [(v, 0)] [0])) =
      (backLink (m := Id) rt s₂.rawAccess s₂ 0 n 0, some (f (.back 0 [(v, 0)] []))) := rfl
  have hsearched : AtFrame t s₁ (f (.link 0 (.done [(v, 0)])))
      (runFrom (Machine.next rt) m ((t, .insert 0 vec [] 0) :: List.replicate 7 (t, .step))) :=
    (((((happend.step rt hentry).step rt hload).step rt hscore).step rt hloop).step rt hexpand).step rt hend
  have hfinal : AtFrame t (backLink (m := Id) rt s₂.rawAccess s₂ 0 n 0) (f (.back 0 [(v, 0)] []))
      (runFrom (Machine.next rt) m (linkedInsert vec t)) :=
    ((hsearched.step rt hdone).step rt hassign).step rt hback
  -- the entry point has no link yet, so the back link finds room
  have hlinks : s₂.links 0 0 = [] := by
    rw [links_setLinks, if_neg fun hc => absurd hc.1 h.pos.ne', h₁.links]
  have hgraph : 0 < s₂.graph.length := by
    rw [setLinks_graph_length, h₁.graph_length]
    exact Nat.succ_pos n
  have hroom : ((s₂.links 0 0).length + 1 : Int) ≤ s₂.maxLinks 0 := by
    have hcfg : s₂.cfg = {} := h₁.cfg
    rw [hlinks, maxLinks, hcfg]
    decide
  rw [hfinal.index, links_backLink_room rt 0 n hgraph hroom, hlinks]
  rfl

/-- An index of one vector, and a search that has sized its buffer for it. -/
def searchBegun : List (Nat × Action 1) :=
  [(0, .insert 0 ⟨[0], rfl⟩ [] 0), (0, .step), (1, .search ⟨[0], rfl⟩ 1), (1, .step), (1, .step), (1, .step),
    (1, .step)]

/-- `k` stalled inserts and a complete one, whose back link the search then reads. -/
def overflowRun (k : Nat) : List (Nat × Action 1) :=
  searchBegun ++ (stalledInserts ⟨[0], rfl⟩ 2 k ++ (linkedInsert ⟨[0], rfl⟩ (2 + k) ++ [(1, .step)]))

/-- Where the search of `searchBegun` stands, with its buffer. -/
def searchAtLoop (v : Nat) : Thread Nat :=
  { bufSize := 10001,
    call := some (.search { query := [0], k := 1, nv := 1, pc := .bottom (.loop (Beam.start 0 v)) }) }

theorem unlinked_searchBegun : Unlinked 1 (Machine.run Runtime.sample {} searchBegun).index where
  count := rfl
  graph_length := rfl
  pos := Nat.one_pos
  entry := rfl
  maxLayer := rfl
  links l x := by
    cases x with
    | zero => cases l <;> rfl
    | succ x => rfl
  cfg := rfl

/-- The search reads the last node of the run, in a buffer of `10001` elements. -/
theorem stamp_overflowRun (k : Nat) :
    ((Machine.run Runtime.sample {} (overflowRun k)).threads 1).stamp = some (1 + k) ∧
      ((Machine.run Runtime.sample {} (overflowRun k)).threads 1).bufSize = 10001 := by
  let vec : VecOf 1 := ⟨[0], rfl⟩
  let m₀ : Machine Nat := Machine.run Runtime.sample {} searchBegun
  let m₁ := runFrom (Machine.next Runtime.sample) m₀ (stalledInserts vec 2 k)
  let m₂ := runFrom (Machine.next Runtime.sample) m₁ (linkedInsert vec (2 + k))
  obtain ⟨v, hv⟩ : ∃ v, m₀.threads 1 = searchAtLoop v := ⟨_, rfl⟩
  have hidle : ∀ u, 2 ≤ u → m₀.threads u = {} := by
    intro u hu
    have hlow : ∀ e ∈ searchBegun, e.1 < 2 := by decide
    exact Machine.threads_runFrom_other _ (fun e he => ((hlow e he).trans_le hu).ne) _
  -- the inserts run on other threads, and leave the link behind
  have hun : Unlinked (1 + k) m₁.index := unlinked_stalled _ vec k unlinked_searchBegun hidle
  have hlinks : m₂.index.links 0 0 = [1 + k] := by
    apply links_linkedInsert _ vec hun
    exact (threads_stalled _ vec 2 k (.inr le_rfl) m₀).trans (hidle (2 + k) (Nat.le_add_right 2 k))
  have hkept : m₂.threads 1 = searchAtLoop v := by
    have hothers : ∀ e ∈ linkedInsert vec (2 + k), e.1 ≠ 1 := by
      intro e he
      have hthread : e.1 = 2 + k := by
        rcases List.mem_cons.mp he with rfl | he
        · rfl
        · rw [List.eq_of_mem_replicate he]
      omega
    exact (Machine.threads_runFrom_other _ hothers m₁).trans
      ((threads_stalled _ vec 2 k (.inl (by decide)) m₀).trans hv)
  have hcall : (m₂.threads 1).call = (searchAtLoop v).call := congrArg Thread.call hkept
  have hrun : Machine.run Runtime.sample {} (overflowRun k) =
      Machine.next Runtime.sample m₂ ((1, .step) : Nat × Action 1) := by
    rw [Machine.run, overflowRun, runFrom_append, runFrom_append, runFrom_append]
    rfl
  rw [hrun, Machine.next_step _ hcall, Machine.setThread_self]
  refine ⟨?_, congrArg Thread.bufSize hkept⟩
  show (LayerPc.step Runtime.sample m₂.index _ (.loop (Beam.start 0 v))).stamp 0 = some (1 + k)
  rw [step_loop_start, hlinks]
  rfl

theorem visited_out_of_bounds :
    ¬ ((Machine.run Runtime.sample {} (overflowRun 10000)).threads 1).StampsInBounds := by
  obtain ⟨hstamp, hsize⟩ := stamp_overflowRun 10000
  intro h
  exact absurd (h (1 + 10000) hstamp) (hsize ▸ lt_irrefl 10001)

end Overflow

end Concurrent

end NeuralDb
