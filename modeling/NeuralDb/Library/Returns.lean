import NeuralDb.Library.BeamSearch

/-! A computation on a hidden state against the pure value it is meant to return. -/

namespace NeuralDb.Library

/-- From every state that satisfies `I` the computation returns `a` and keeps `I`. It may be
undefined only when `fails` holds, so `fails` as `False` is total and as `True` partial correctness. -/
def Returns {S α : Type} (fails : Prop) (I : S → Prop) (c : StateT S Option α) (a : α) : Prop :=
  ∀ s, I s → (fails ∧ c s = none) ∨ ∃ s', c s = some (a, s') ∧ I s'

section Rules

variable {S α β : Type} {fails : Prop} {I : S → Prop}

theorem returns_pure (a : α) : Returns fails I (pure a) a := fun s hs => .inr ⟨s, rfl, hs⟩

theorem Returns.bind {c : StateT S Option α} {f : α → StateT S Option β} {a : α} {b : β}
    (hc : Returns fails I c a) (hf : Returns fails I (f a) b) : Returns fails I (c >>= f) b := by
  intro s hs
  have hbind : (c >>= f) s = (c s).bind fun r => f r.1 r.2 := rfl
  rcases hc s hs with ⟨hfail, hnone⟩ | ⟨s', hsome, hs'⟩
  · exact .inl ⟨hfail, by rw [hbind, hnone]; rfl⟩
  · rw [hbind, hsome]
    exact hf s' hs'

theorem Returns.map {c : StateT S Option α} {a : α} (hc : Returns fails I c a) (f : α → β) :
    Returns fails I (c >>= fun x => pure (f x)) (f a) := hc.bind (returns_pure (f a))

theorem Returns.defined {c : StateT S Option α} {a : α} (hc : Returns fails I c a) (hfails : ¬ fails)
    {s : S} (hs : I s) : ∃ s', c s = some (a, s') ∧ I s' :=
  (hc s hs).resolve_left fun h => hfails h.1

end Rules

/-! A postcondition in place of the value. -/

/-- Whenever the computation is defined from a state that satisfies `I`, it keeps `I` and its value
satisfies `P`. -/
def Ensures {S α : Type} (I : S → Prop) (P : α → Prop) (c : StateT S Option α) : Prop :=
  ∀ s, I s → ∀ a s', c s = some (a, s') → I s' ∧ P a

section Ensures

variable {S α β : Type} {I : S → Prop} {P : α → Prop} {Q : β → Prop}

theorem ensures_pure {a : α} (ha : P a) : Ensures I P (pure a) := by
  intro s hs b s' h
  obtain ⟨rfl, rfl⟩ : a = b ∧ s = s' := Prod.mk.inj (Option.some.inj h)
  exact ⟨hs, ha⟩

theorem Ensures.bind {c : StateT S Option α} {f : α → StateT S Option β} (hc : Ensures I P c)
    (hf : ∀ a, P a → Ensures I Q (f a)) : Ensures I Q (c >>= f) := by
  intro s hs b s' h
  obtain ⟨⟨a, t⟩, hrun, hrest⟩ := Option.bind_eq_some_iff.mp (show (c s).bind (fun r => f r.1 r.2) = _ from h)
  obtain ⟨ht, ha⟩ := hc s hs a t hrun
  exact hf a ha t ht b s' hrest

theorem Ensures.mono {c : StateT S Option α} {R : α → Prop} (hc : Ensures I P c) (hPR : ∀ a, P a → R a) :
    Ensures I R c := fun s hs a s' h => (hc s hs a s' h).imp_right (hPR a)

end Ensures

/-! A computation against the one that it observes. -/

/-- From every state that satisfies `I` the computation `c` returns, with `Q` of its value and its last
state. What `view` and `out` show of a state and a value belongs to `d`, and `c` takes the same course as
`d` up to states that are `good`; a bad state stays bad. -/
def Observes {S T α β : Type} (view : S → T) (good I : S → Prop) (out : α → β) (Q : α → S → Prop)
    (c : StateT S Option α) (d : StateT T Option β) : Prop :=
  ∀ s, I s → ∃ a s', c s = some (a, s') ∧ Q a s' ∧ (good s' → good s ∧ d (view s) = some (out a, view s'))

section Observes

variable {S T α β γ δ : Type} {view : S → T} {good I : S → Prop} {out : α → β} {Q : α → S → Prop}
variable {c : StateT S Option α} {d : StateT T Option β}

theorem observes_pure {a : α} (h : ∀ s, I s → Q a s) : Observes view good I out Q (pure a) (pure (out a)) :=
  fun s hs => ⟨a, s, rfl, h s hs, fun hgood => ⟨hgood, rfl⟩⟩

/-- A part of the precondition that does not speak of the state. -/
theorem observes_of_and {p : Prop} (h : p → Observes view good I out Q c d) :
    Observes view good (fun s => I s ∧ p) out Q c d := fun s hs => h hs.2 s hs.1

theorem Observes.bind {out' : γ → δ} {R : γ → S → Prop} {f : α → StateT S Option γ} {g : β → StateT T Option δ}
    (hc : Observes view good I out Q c d) (hf : ∀ a, Observes view good (Q a) out' R (f a) (g (out a))) :
    Observes view good I out' R (c >>= f) (d >>= g) := by
  intro s hs
  obtain ⟨a, t, hrun, hQ, hback⟩ := hc s hs
  obtain ⟨b, u, hrest, hR, hback'⟩ := hf a t hQ
  refine ⟨b, u, ?_, hR, fun hgood => ?_⟩
  · change (c s).bind (fun r => f r.1 r.2) = _
    rw [hrun]
    exact hrest
  · obtain ⟨hgood', hd'⟩ := hback' hgood
    obtain ⟨hgood'', hd⟩ := hback hgood'
    refine ⟨hgood'', ?_⟩
    change (d (view s)).bind (fun r => g r.1 r.2) = _
    rw [hd]
    exact hd'

end Observes

/-! A beam search whose similarities are read through a hidden state takes the same turns as one
that reads them purely, when the reads are right on a set of nodes closed under the links. -/

namespace Beam

variable {S σ ν : Type} [LinearOrder σ] [LinearOrder ν] {fails : Prop} {I : S → Prop}
variable {read : ν → StateT S Option σ} {sim : ν → σ} {P : ν → Prop} {ef : Int}

theorem returns_expand (hread : ∀ x, P x → Returns fails I (read x) (sim x)) (xs : List ν)
    (hxs : ∀ x ∈ xs, P x) (b : Beam σ ν) :
    Returns fails I (expand read ef xs b) (expand (m := Id) sim ef xs b) := by
  induction xs generalizing b with
  | nil => exact returns_pure b
  | cons x xs ih =>
    have htail : ∀ y ∈ xs, P y := fun y hy => hxs y (List.mem_cons_of_mem x hy)
    rw [expand, expand]
    split_ifs
    · exact ih htail b
    · exact (hread x (hxs x List.mem_cons_self)).bind (ih htail _)

theorem returns_loop {links : ν → List ν} (hread : ∀ x, P x → Returns fails I (read x) (sim x))
    (hP : ∀ x, P x → ∀ y ∈ links x, P y) (fuel : Nat) {b : Beam σ ν} (h : b.Inv sim P ef) :
    Returns fails I (loop links read ef fuel b) (loop (m := Id) links sim ef fuel b) := by
  induction fuel generalizing b with
  | zero => exact returns_pure b
  | succ fuel ih =>
    rw [loop, loop]
    split
    · exact returns_pure b
    · next c cs hc =>
      split_ifs
      · exact returns_pure _
      · have hlinks := hP _ (h.cand_in (hc ▸ List.mem_cons_self))
        have hnext := inv_expand _ (h.popCand hc) hlinks
        exact (returns_expand hread _ hlinks _).bind (ih hnext)

theorem returns_search {links : ν → List ν} (hread : ∀ x, P x → Returns fails I (read x) (sim x))
    (hP : ∀ x, P x → ∀ y ∈ links x, P y) (fuel : Nat) {e : ν} (he : P e) :
    Returns fails I (search links read ef fuel e) (search (m := Id) links sim ef fuel e) := by
  refine (hread e he).bind ?_
  exact (returns_loop hread hP fuel (inv_start he)).map Beam.results

/-- A search keeps whatever its reads keep. -/
theorem ensures_expand (hread : ∀ x, Ensures I (fun _ => True) (read x)) (xs : List ν) (b : Beam σ ν) :
    Ensures I (fun _ => True) (expand read ef xs b) := by
  induction xs generalizing b with
  | nil => exact ensures_pure trivial
  | cons x xs ih =>
    rw [expand]
    split_ifs
    · exact ih b
    · exact (hread x).bind fun s _ => ih _

theorem ensures_loop {links : ν → List ν} (hread : ∀ x, Ensures I (fun _ => True) (read x)) (fuel : Nat)
    (b : Beam σ ν) : Ensures I (fun _ => True) (loop links read ef fuel b) := by
  induction fuel generalizing b with
  | zero => exact ensures_pure trivial
  | succ fuel ih =>
    rw [loop]
    split
    · exact ensures_pure trivial
    · split_ifs
      · exact ensures_pure trivial
      · exact (ensures_expand hread _ _).bind fun b' _ => ih b'

theorem ensures_search {links : ν → List ν} (hread : ∀ x, Ensures I (fun _ => True) (read x)) (fuel : Nat)
    (e : ν) : Ensures I (fun _ => True) (search links read ef fuel e) :=
  (hread e).bind fun _ _ => (ensures_loop hread fuel _).bind fun _ _ => ensures_pure trivial

section Observes

variable {T : Type} {view : S → T} {good : S → Prop} {read' : ν → StateT T Option σ}

theorem observes_expand (hread : ∀ x, Observes view good I id (fun _ => I) (read x) (read' x)) (xs : List ν)
    (b : Beam σ ν) : Observes view good I id (fun _ => I) (expand read ef xs b) (expand read' ef xs b) := by
  induction xs generalizing b with
  | nil => exact observes_pure fun _ hs => hs
  | cons x xs ih =>
    rw [expand, expand]
    split_ifs
    · exact ih b
    · exact (hread x).bind fun s => ih _

theorem observes_loop {links : ν → List ν} (hread : ∀ x, Observes view good I id (fun _ => I) (read x) (read' x))
    (fuel : Nat) (b : Beam σ ν) :
    Observes view good I id (fun _ => I) (loop links read ef fuel b) (loop links read' ef fuel b) := by
  induction fuel generalizing b with
  | zero => exact observes_pure fun _ hs => hs
  | succ fuel ih =>
    rw [loop, loop]
    split
    · exact observes_pure fun _ hs => hs
    · split_ifs
      · exact observes_pure fun _ hs => hs
      · exact (observes_expand hread _ _).bind fun b' => ih b'

theorem observes_search {links : ν → List ν} (hread : ∀ x, Observes view good I id (fun _ => I) (read x) (read' x))
    (fuel : Nat) (e : ν) :
    Observes view good I id (fun _ => I) (search links read ef fuel e) (search links read' ef fuel e) :=
  (hread e).bind fun _ => (observes_loop hread fuel _).bind fun _ => observes_pure fun _ hs => hs

end Observes

end Beam

end NeuralDb.Library
