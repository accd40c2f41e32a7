import NeuralDb.Concurrent.Machine

/-! What one step of a thread can do. -/

namespace NeuralDb

open Library HNSWIndex

namespace Concurrent

variable {σ : Type} [LinearOrder σ] {P Q : Nat → Prop}

/-- A `search_layer_` call that has only met nodes of `P`. -/
def LayerPc.Within (P : Nat → Prop) : LayerPc σ → Prop
  | .load => True
  | .score => True
  | .loop b => b.Tracked P
  | .expand xs b => b.Tracked P ∧ ∀ x ∈ xs, P x
  | .done out => (out.map Prod.snd).Nodup ∧ ∀ c ∈ out, P c.2

theorem LayerPc.Within.mono {pc : LayerPc σ} (h : pc.Within P) (hPQ : ∀ x, P x → Q x) : pc.Within Q := by
  cases pc with
  | load => trivial
  | score => trivial
  | loop b => exact Beam.Tracked.mono h hPQ
  | expand xs b => exact ⟨h.1.mono hPQ, fun x hx => hPQ x (h.2 x hx)⟩
  | done out => exact ⟨h.1, fun c hc => hPQ c.2 (h.2 c hc)⟩

theorem within_sort (rt : Runtime σ) {b : Beam σ Nat} (h : b.Tracked P) :
    (LayerPc.done (rt.sort b.results)).Within P := by
  have hperm := rt.sort_perm b.results
  obtain ⟨hnodup, hmem⟩ := h.results
  exact ⟨(hperm.map Prod.snd).nodup_iff.mpr hnodup, fun c hc => hmem c (hperm.mem_iff.mp hc)⟩

/-- A search stays in a set of nodes that is closed under the links it reads. -/
theorem LayerPc.Within.step (rt : Runtime σ) {s : HNSWIndex} {a : LayerArgs} {pc : LayerPc σ}
    (h : pc.Within P) (hep : P a.ep) (hlinks : ∀ x, P x → ∀ y ∈ s.links a.layer x, P y) :
    (pc.step rt s a).Within P := by
  cases pc with
  | load => trivial
  | score => exact Beam.tracked_start hep _
  | loop b =>
    rw [LayerPc.step]
    split
    · exact within_sort rt h
    · next c cs hc =>
      split_ifs
      · exact within_sort rt h
      · obtain ⟨hc2, hpop⟩ := Beam.Tracked.popCand h hc
        exact ⟨hpop, hlinks c.2 hc2⟩
  | expand xs b =>
    cases xs with
    | nil => exact h.1
    | cons x xs =>
      have htail : ∀ y ∈ xs, P y := fun y hy => h.2 y (List.mem_cons_of_mem x hy)
      rw [LayerPc.step]
      split_ifs with hx
      · exact ⟨h.1, htail⟩
      · exact ⟨h.1.offer a.ef hx (h.2 x List.mem_cons_self) _, htail⟩
  | done out => exact h

omit [LinearOrder σ] in
theorem front_mem {out : List (σ × Nat)} {ep : Nat} (hep : P ep) (hout : ∀ c ∈ out, P c.2) :
    P (front out ep) := by
  cases out with
  | nil => exact hep
  | cons c cs => exact hout c List.mem_cons_self

theorem LayerPc.Within.stamp {pc : LayerPc σ} (h : pc.Within P) {ep x : Nat} (hep : P ep)
    (hx : pc.stamp ep = some x) : P x := by
  unfold LayerPc.stamp at hx
  split at hx
  · exact Option.some.inj hx ▸ hep
  · next y xs b => exact Option.some.inj hx ▸ h.2 y List.mem_cons_self
  · contradiction

theorem select_within (rt : Runtime σ) {cands : List (σ × Nat)} (M : Int)
    (hnodup : (cands.map Prod.snd).Nodup) (hcands : ∀ c ∈ cands, P c.2) :
    (selectNeighbours rt cands M).Nodup ∧ ∀ nb ∈ selectNeighbours rt cands M, P nb := by
  have hsub := selectNeighbours_subperm rt cands M
  refine ⟨nodup_of_subperm hsub hnodup, fun nb hnb => ?_⟩
  obtain ⟨c, hc, rfl⟩ := List.mem_map.mp (hsub.subset hnb)
  exact hcands c hc

namespace Machine

/-- A step of the machine changes nothing, starts a call, or takes one step of a call. -/
theorem next_cases {dim : Nat} (rt : Runtime σ) (m : Machine σ) (e : Nat × Action dim) :
    (next rt m e = m ∧ (e.2 = .step → (m.threads e.1).call = none)) ∨
    (∃ c, (m.threads e.1).call = none ∧ e.2.call? = some c ∧
      next rt m e = m.setThread e.1 { m.threads e.1 with call := some c }) ∨
    ∃ c, (m.threads e.1).call = some c ∧ e.2 = .step ∧
      next rt m e = { m with index := (callStep rt m.index (m.threads e.1).hits c).1 }.setThread e.1
        ⟨callBuffer m.index (m.threads e.1).bufSize c, (callStep rt m.index (m.threads e.1).hits c).2.1,
          (callStep rt m.index (m.threads e.1).hits c).2.2⟩ := by
  obtain ⟨t, a⟩ := e
  unfold next
  dsimp only
  cases hcall : (m.threads t).call with
  | none =>
    cases ha : (a.call? : Option (Call σ)) with
    | none => exact .inl ⟨rfl, fun _ => rfl⟩
    | some c => exact .inr (.inl ⟨c, rfl, rfl, rfl⟩)
  | some c =>
    cases a with
    | step => exact .inr (.inr ⟨c, rfl, rfl, rfl⟩)
    | insert id vec metadata level => exact .inl ⟨rfl, nofun⟩
    | search query k => exact .inl ⟨rfl, nofun⟩
    | delete id => exact .inl ⟨rfl, nofun⟩

omit [LinearOrder σ] in
theorem setThread_self (m : Machine σ) (t : Nat) (th : Thread σ) : (m.setThread t th).threads t = th := by
  unfold setThread
  exact Function.update_self (β := fun _ => Thread σ) t th m.threads

omit [LinearOrder σ] in
theorem setThread_other (m : Machine σ) {t u : Nat} (h : u ≠ t) (th : Thread σ) :
    (m.setThread t th).threads u = m.threads u := by
  unfold setThread
  exact Function.update_of_ne (β := fun _ => Thread σ) h th m.threads

/-- What holds of the index and of each call by itself is kept by a step that keeps it for the call that
takes the step and for the calls that do not. -/
theorem next_holds {dim : Nat} (rt : Runtime σ) {m : Machine σ} {e : Nat × Action dim} {I : HNSWIndex → Prop}
    {C : HNSWIndex → Call σ → Prop} (hI : I m.index)
    (hC : ∀ t c, (m.threads t).call = some c → C m.index c)
    (hbegin : ∀ c, e.2.call? = some c → C m.index c)
    (hstep : ∀ c hits, C m.index c → I (callStep rt m.index hits c).1 ∧
      (∀ c', (callStep rt m.index hits c).2.1 = some c' → C (callStep rt m.index hits c).1 c') ∧
      ∀ d, C m.index d → C (callStep rt m.index hits c).1 d) :
    I (next rt m e).index ∧
      ∀ t c, ((next rt m e).threads t).call = some c → C (next rt m e).index c := by
  rcases m.next_cases rt e with ⟨hsame, -⟩ | ⟨c, -, hc, hnext⟩ | ⟨c, hcall, -, hnext⟩
  · rw [hsame]
    exact ⟨hI, hC⟩
  · rw [hnext]
    refine ⟨hI, fun t c' hc' => ?_⟩
    by_cases ht : t = e.1
    · rw [ht, setThread_self] at hc'
      exact Option.some.inj hc' ▸ hbegin c hc
    · rw [setThread_other _ ht] at hc'
      exact hC t c' hc'
  · obtain ⟨hI', hnew, hothers⟩ := hstep c (m.threads e.1).hits (hC e.1 c hcall)
    rw [hnext]
    refine ⟨hI', fun t c' hc' => ?_⟩
    by_cases ht : t = e.1
    · rw [ht, setThread_self] at hc'
      exact hnew c' hc'
    · rw [setThread_other _ ht] at hc'
      exact hothers c' (hC t c' hc')

theorem next_begin {dim : Nat} (rt : Runtime σ) {m : Machine σ} {t : Nat} {a : Action dim} {c : Call σ}
    (hidle : (m.threads t).call = none) (ha : a.call? = some c) :
    next rt m (t, a) = m.setThread t { m.threads t with call := some c } := by
  unfold next
  dsimp only
  rw [hidle, ha]

theorem next_step {dim : Nat} (rt : Runtime σ) {m : Machine σ} {t : Nat} {c : Call σ}
    (hcall : (m.threads t).call = some c) :
    next rt m ((t, .step) : Nat × Action dim) =
      { m with index := (callStep rt m.index (m.threads t).hits c).1 }.setThread t
        ⟨callBuffer m.index (m.threads t).bufSize c, (callStep rt m.index (m.threads t).hits c).2.1,
          (callStep rt m.index (m.threads t).hits c).2.2⟩ := by
  unfold next
  dsimp only
  rw [hcall]

theorem threads_runFrom_other {dim : Nat} (rt : Runtime σ) {u : Nat} {es : List (Nat × Action dim)}
    (hes : ∀ e ∈ es, e.1 ≠ u) (m : Machine σ) : (runFrom (next rt) m es).threads u = m.threads u := by
  induction es generalizing m with
  | nil => rfl
  | cons e es ih =>
    have hne : u ≠ e.1 := (hes e List.mem_cons_self).symm
    have hstep : (next rt m e).threads u = m.threads u := by
      rcases next_cases rt m e with ⟨h, -⟩ | ⟨c, -, -, h⟩ | ⟨c, -, -, h⟩
      · rw [h]
      · rw [h, setThread_other _ hne]
      · rw [h, setThread_other _ hne]
    exact (ih (fun e' he' => hes e' (List.mem_cons_of_mem e he')) _).trans hstep

end Machine

end Concurrent

end NeuralDb
