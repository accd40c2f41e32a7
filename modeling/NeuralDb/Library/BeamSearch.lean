import Mathlib.Algebra.Order.Ring.Int
import Mathlib.Data.List.Sort
import Mathlib.Order.WithBot
import Mathlib.Tactic.Common

/-! Best-first beam search over a directed graph. The two binary heaps of the usual
implementation are kept as ordered lists, so that the top of a heap is the head of its list.
The similarity of a node is computed in an arbitrary monad: a pure reading uses `Id`, a reading
that goes through a cache uses a state monad. -/

set_option linter.unusedSectionVars false

namespace NeuralDb.Library

section Order

variable {σ ν : Type} [LinearOrder σ] [LinearOrder ν]

/-- The order of the pairs `(-similarity, node)`: the more similar first, then the smaller node. -/
def nearer (a b : σ × ν) : Prop := b.1 < a.1 ∨ a.1 = b.1 ∧ a.2 ≤ b.2

instance : DecidableRel (nearer (σ := σ) (ν := ν)) :=
  fun a b => inferInstanceAs (Decidable (b.1 < a.1 ∨ a.1 = b.1 ∧ a.2 ≤ b.2))

theorem nearer_total (a b : σ × ν) : nearer a b ∨ nearer b a := by
  unfold nearer
  rcases lt_trichotomy a.1 b.1 with h | h | h
  · exact .inr (.inl h)
  · rcases le_total a.2 b.2 with hab | hba
    · exact .inl (.inr ⟨h, hab⟩)
    · exact .inr (.inr ⟨h.symm, hba⟩)
  · exact .inl (.inl h)

theorem nearer_trans {a b c : σ × ν} (hab : nearer a b) (hbc : nearer b c) : nearer a c := by
  rcases hab with h | ⟨h, h'⟩ <;> rcases hbc with k | ⟨k, k'⟩
  · exact .inl (k.trans h)
  · exact .inl (k ▸ h)
  · exact .inl (h ▸ k)
  · exact .inr ⟨h.trans k, h'.trans k'⟩

theorem nearer_fst {a b : σ × ν} (h : nearer a b) : b.1 ≤ a.1 := by
  rcases h with h | h
  · exact h.le
  · exact h.1.symm.le

/-- The order of the result heap, whose top is the least similar pair. -/
def farther (a b : σ × ν) : Prop := nearer b a

instance : DecidableRel (farther (σ := σ) (ν := ν)) :=
  fun a b => inferInstanceAs (Decidable (nearer b a))

instance : Std.Total (farther (σ := σ) (ν := ν)) := ⟨fun a b => nearer_total b a⟩

instance : IsTrans (σ × ν) farther := ⟨fun _ _ _ hab hbc => nearer_trans hbc hab⟩

instance : Std.Total (nearer (σ := σ) (ν := ν)) := ⟨nearer_total⟩

instance : IsTrans (σ × ν) nearer := ⟨fun _ _ _ => nearer_trans⟩

end Order

/-- The state of a search: the heap of candidates still to be expanded, the heap of results and
the nodes stamped as visited. -/
structure Beam (σ ν : Type) where
  cands : List (σ × ν)
  results : List (σ × ν)
  visited : List ν

namespace Beam

variable {σ ν : Type} [LinearOrder σ] [LinearOrder ν]

def start (e : ν) (s : σ) : Beam σ ν := ⟨[(s, e)], [(s, e)], [e]⟩

/-- The similarity at the top of the result heap, minus infinity when it is empty. -/
def worst (b : Beam σ ν) : WithBot σ :=
  match b.results with
  | [] => ⊥
  | w :: _ => w.1

def visit (b : Beam σ ν) (x : ν) : Beam σ ν := { b with visited := x :: b.visited }

def push (b : Beam σ ν) (p : σ × ν) : Beam σ ν :=
  { b with
    cands := b.cands.orderedInsert nearer p
    results := b.results.orderedInsert farther p }

def popResult (b : Beam σ ν) : Beam σ ν := { b with results := b.results.tail }

/-- Offer a scored node: it is kept when it beats the worst result or the beam has room. -/
def offer (ef : Int) (b : Beam σ ν) (p : σ × ν) : Beam σ ν :=
  if b.worst < (p.1 : WithBot σ) ∨ (b.results.length : Int) < ef then
    if ef < ((b.push p).results.length : Int) then (b.push p).popResult else b.push p
  else b

/-- The early exit: the best candidate is worse than every result of a full beam. -/
def stops (ef : Int) (b : Beam σ ν) (c : σ × ν) : Prop :=
  (c.1 : WithBot σ) < b.worst ∧ ef ≤ (b.results.length : Int)

instance (ef : Int) (b : Beam σ ν) (c : σ × ν) : Decidable (b.stops ef c) :=
  inferInstanceAs (Decidable (_ ∧ _))

variable {m : Type → Type} [Monad m]

/-- The neighbour loop for one expanded node. -/
def expand (sim : ν → m σ) (ef : Int) : List ν → Beam σ ν → m (Beam σ ν)
  | [], b => pure b
  | x :: xs, b =>
    if x ∈ b.visited then expand sim ef xs b
    else do
      let s ← sim x
      expand sim ef xs ((b.visit x).offer ef (s, x))

/-- The main loop; `fuel` bounds the number of candidates taken. -/
def loop (links : ν → List ν) (sim : ν → m σ) (ef : Int) : Nat → Beam σ ν → m (Beam σ ν)
  | 0, b => pure b
  | fuel + 1, b =>
    match b.cands with
    | [] => pure b
    | c :: cs =>
      if b.stops ef c then pure { b with cands := cs }
      else do
        let b' ← expand sim ef (links c.2) { b with cands := cs }
        loop links sim ef fuel b'

/-- A whole search from the entry node `e`, giving the result heap from its top down. -/
def search (links : ν → List ν) (sim : ν → m σ) (ef : Int) (fuel : Nat) (e : ν) :
    m (List (σ × ν)) := do
  let s ← sim e
  let b ← loop links sim ef fuel (start e s)
  pure b.results

section Invariant

/-- What holds of a beam whatever its width, for the similarities `sim` and a set `P` of nodes. -/
structure Shape (sim : ν → σ) (P : ν → Prop) (b : Beam σ ν) : Prop where
  results_ne : b.results ≠ []
  results_nodup : (b.results.map Prod.snd).Nodup
  results_visited : ∀ p ∈ b.results, p.2 ∈ b.visited
  results_scored : ∀ p ∈ b.results, p.1 = sim p.2
  results_ordered : b.results.Pairwise farther
  cands_visited : ∀ p ∈ b.cands, p.2 ∈ b.visited
  cands_scored : ∀ p ∈ b.cands, p.1 = sim p.2
  visited_nodup : b.visited.Nodup
  visited_in : ∀ x ∈ b.visited, P x

/-- What every reached beam of width `ef` satisfies. -/
structure Inv (sim : ν → σ) (P : ν → Prop) (ef : Int) (b : Beam σ ν) : Prop
    extends Shape sim P b where
  results_le : (b.results.length : Int) ≤ max ef 1
  /-- While the stamped nodes fit in the beam none of them has been dropped. -/
  results_all : (b.visited.length : Int) ≤ ef → ∀ x ∈ b.visited, x ∈ b.results.map Prod.snd

@[simp] theorem visit_results (b : Beam σ ν) (x : ν) : (b.visit x).results = b.results := rfl
@[simp] theorem visit_visited (b : Beam σ ν) (x : ν) : (b.visit x).visited = x :: b.visited := rfl
@[simp] theorem push_visited (b : Beam σ ν) (p : σ × ν) : (b.push p).visited = b.visited := rfl
@[simp] theorem popResult_visited (b : Beam σ ν) : b.popResult.visited = b.visited := rfl
@[simp] theorem popResult_results (b : Beam σ ν) : b.popResult.results = b.results.tail := rfl

theorem mem_push_results (b : Beam σ ν) (p r : σ × ν) :
    r ∈ (b.push p).results ↔ r = p ∨ r ∈ b.results := List.mem_orderedInsert _

theorem mem_push_cands (b : Beam σ ν) (p r : σ × ν) :
    r ∈ (b.push p).cands ↔ r = p ∨ r ∈ b.cands := List.mem_orderedInsert _

@[simp] theorem push_results_length (b : Beam σ ν) (p : σ × ν) :
    (b.push p).results.length = b.results.length + 1 := List.orderedInsert_length _ _ _

theorem offer_visited (ef : Int) (b : Beam σ ν) (p : σ × ν) : (b.offer ef p).visited = b.visited := by
  unfold offer
  split_ifs <;> rfl

variable {sim : ν → σ} {P Q : ν → Prop} {ef : Int} {b : Beam σ ν}

theorem Shape.result_in (h : b.Shape sim P) {p : σ × ν} (hp : p ∈ b.results) : P p.2 :=
  h.visited_in _ (h.results_visited p hp)

theorem Shape.cand_in (h : b.Shape sim P) {p : σ × ν} (hp : p ∈ b.cands) : P p.2 :=
  h.visited_in _ (h.cands_visited p hp)

theorem Shape.mono (h : b.Shape sim P) (hPQ : ∀ x, P x → Q x) : b.Shape sim Q :=
  { h with visited_in := fun x hx => hPQ x (h.visited_in x hx) }

theorem Inv.mono (h : b.Inv sim P ef) (hPQ : ∀ x, P x → Q x) : b.Inv sim Q ef :=
  { h with toShape := h.toShape.mono hPQ }

theorem Shape.results_length_le (h : b.Shape sim P) : b.results.length ≤ b.visited.length := by
  have hsub : b.results.map Prod.snd ⊆ b.visited := by
    intro x hx
    obtain ⟨p, hp, rfl⟩ := List.mem_map.mp hx
    exact h.results_visited p hp
  simpa using (List.subperm_of_subset h.results_nodup hsub).length_le

theorem shape_start {e : ν} (he : P e) : (start e (sim e)).Shape sim P where
  results_ne := by simp [start]
  results_nodup := by simp [start]
  results_visited := by simp [start]
  results_scored := by simp [start]
  results_ordered := by simp [start]
  cands_visited := by simp [start]
  cands_scored := by simp [start]
  visited_nodup := by simp [start]
  visited_in := by simpa [start] using he

theorem inv_start {e : ν} (he : P e) : (start e (sim e)).Inv sim P ef :=
  { shape_start he with
    results_le := by simp [start]
    results_all := by simp [start] }

theorem Shape.popCand (h : b.Shape sim P) {c : σ × ν} {cs : List (σ × ν)} (hc : b.cands = c :: cs) :
    Shape sim P { b with cands := cs } :=
  { h with
    cands_visited := fun p hp => h.cands_visited p (hc ▸ List.mem_cons_of_mem c hp)
    cands_scored := fun p hp => h.cands_scored p (hc ▸ List.mem_cons_of_mem c hp) }

theorem Inv.popCand (h : b.Inv sim P ef) {c : σ × ν} {cs : List (σ × ν)} (hc : b.cands = c :: cs) :
    Inv sim P ef { b with cands := cs } :=
  { h.toShape.popCand hc with results_le := h.results_le, results_all := h.results_all }

theorem Shape.visit (h : b.Shape sim P) {x : ν} (hx : x ∉ b.visited) (hP : P x) :
    (b.visit x).Shape sim P :=
  { h with
    results_visited := fun p hp => List.mem_cons_of_mem x (h.results_visited p hp)
    cands_visited := fun p hp => List.mem_cons_of_mem x (h.cands_visited p hp)
    visited_nodup := List.nodup_cons.mpr ⟨hx, h.visited_nodup⟩
    visited_in := List.forall_mem_cons.mpr ⟨hP, h.visited_in⟩ }

theorem Shape.push (h : b.Shape sim P) {x : ν} (hx : x ∈ b.visited)
    (hr : x ∉ b.results.map Prod.snd) : (b.push (sim x, x)).Shape sim P where
  results_ne := List.ne_nil_of_mem ((mem_push_results _ _ _).mpr (.inl rfl))
  results_nodup := by
    have hperm : (b.push (sim x, x)).results.Perm ((sim x, x) :: b.results) :=
      List.perm_orderedInsert _ _ _
    exact (hperm.map Prod.snd).nodup_iff.mpr (List.nodup_cons.mpr ⟨hr, h.results_nodup⟩)
  results_visited := by
    intro p hp
    rcases (mem_push_results _ _ _).mp hp with rfl | hp
    · exact hx
    · exact h.results_visited p hp
  results_scored := by
    intro p hp
    rcases (mem_push_results _ _ _).mp hp with rfl | hp
    · rfl
    · exact h.results_scored p hp
  results_ordered := h.results_ordered.orderedInsert _ _
  cands_visited := by
    intro p hp
    rcases (mem_push_cands _ _ _).mp hp with rfl | hp
    · exact hx
    · exact h.cands_visited p hp
  cands_scored := by
    intro p hp
    rcases (mem_push_cands _ _ _).mp hp with rfl | hp
    · rfl
    · exact h.cands_scored p hp
  visited_nodup := h.visited_nodup
  visited_in := h.visited_in

theorem Shape.popResult (h : b.Shape sim P) (hlen : 1 < b.results.length) :
    b.popResult.Shape sim P :=
  { h with
    results_ne := by
      intro he
      have := congrArg List.length he
      simp only [popResult_results, List.length_tail, List.length_nil] at this
      omega
    results_nodup := h.results_nodup.sublist ((List.tail_sublist _).map _)
    results_visited := fun p hp => h.results_visited p (List.mem_of_mem_tail hp)
    results_scored := fun p hp => h.results_scored p (List.mem_of_mem_tail hp)
    results_ordered := h.results_ordered.sublist (List.tail_sublist _) }

theorem Shape.pushNew (h : b.Shape sim P) {x : ν} (hx : x ∉ b.visited) (hP : P x) :
    ((b.visit x).push (sim x, x)).Shape sim P := by
  apply (h.visit hx hP).push List.mem_cons_self
  intro hmem
  obtain ⟨p, hp, rfl⟩ := List.mem_map.mp hmem
  exact hx (h.results_visited p hp)

theorem Shape.offer (h : b.Shape sim P) (ef : Int) {x : ν} (hx : x ∉ b.visited) (hP : P x) :
    ((b.visit x).offer ef (sim x, x)).Shape sim P := by
  have hpush := h.pushNew hx hP
  have hpos : 0 < b.results.length := List.length_pos_iff.mpr h.results_ne
  unfold Beam.offer
  split_ifs
  · exact hpush.popResult (by simpa using hpos)
  · exact hpush
  · exact h.visit hx hP

theorem Inv.offer (h : b.Inv sim P ef) {x : ν} (hx : x ∉ b.visited) (hP : P x) :
    ((b.visit x).offer ef (sim x, x)).Inv sim P ef := by
  have hlen := h.results_length_le
  have hle := h.results_le
  refine { h.toShape.offer ef hx hP with results_le := ?_, results_all := fun hall y hy => ?_ }
  · unfold Beam.offer
    split_ifs with hkeep hover
    · simpa using hle
    · exact (not_lt.mp hover).trans (le_max_left _ _)
    · exact hle
  · rw [offer_visited] at hall hy
    simp only [visit_visited, List.length_cons] at hall
    unfold Beam.offer
    split_ifs with hkeep hover
    · -- the push overflows the beam, so more than `ef` nodes carry the stamp
      simp only [push_results_length, visit_results] at hover
      omega
    · rcases List.mem_cons.mp hy with rfl | hy
      · exact List.mem_map.mpr ⟨_, (mem_push_results _ _ _).mpr (.inl rfl), rfl⟩
      · obtain ⟨p, hp, rfl⟩ := List.mem_map.mp (h.results_all (by omega) y hy)
        exact List.mem_map.mpr ⟨p, (mem_push_results _ _ _).mpr (.inr hp), rfl⟩
    · simp only [visit_results, not_or] at hkeep
      omega

theorem inv_expand (xs : List ν) (h : b.Inv sim P ef) (hxs : ∀ x ∈ xs, P x) :
    Inv sim P ef (expand (m := Id) sim ef xs b) := by
  induction xs generalizing b with
  | nil => exact h
  | cons x xs ih =>
    rw [expand]
    split_ifs with hx
    · exact ih h fun y hy => hxs y (List.mem_cons_of_mem x hy)
    · exact ih (h.offer hx (hxs x List.mem_cons_self)) fun y hy => hxs y (List.mem_cons_of_mem x hy)

theorem visited_subset_expand (xs : List ν) (b : Beam σ ν) :
    b.visited ⊆ Beam.visited (expand (m := Id) sim ef xs b) := by
  induction xs generalizing b with
  | nil => exact List.Subset.refl _
  | cons x xs ih =>
    rw [expand]
    split_ifs with hx
    · exact ih b
    · refine List.Subset.trans ?_ (ih _)
      rw [offer_visited]
      exact List.subset_cons_self _ _

variable {links : ν → List ν}

/-- The main loop keeps the invariant for every set of nodes closed under the links. -/
theorem inv_loop (fuel : Nat) (h : b.Inv sim P ef) (hP : ∀ x, P x → ∀ y ∈ links x, P y) :
    Inv sim P ef (loop (m := Id) links sim ef fuel b) := by
  induction fuel generalizing b with
  | zero => exact h
  | succ fuel ih =>
    rw [loop]
    split
    · exact h
    · next c cs hc =>
      split_ifs
      · exact h.popCand hc
      · exact ih (inv_expand _ (h.popCand hc) (hP _ (h.cand_in (hc ▸ List.mem_cons_self))))

theorem visited_subset_loop (fuel : Nat) (b : Beam σ ν) :
    b.visited ⊆ Beam.visited (loop (m := Id) links sim ef fuel b) := by
  induction fuel generalizing b with
  | zero => exact List.Subset.refl _
  | succ fuel ih =>
    rw [loop]
    split
    · exact List.Subset.refl _
    · next c cs hc =>
      split_ifs
      · exact List.Subset.refl _
      · have hone : b.visited ⊆
            Beam.visited (expand (m := Id) sim ef (links c.2) { b with cands := cs }) :=
          visited_subset_expand (links c.2) ⟨cs, b.results, b.visited⟩
        exact List.Subset.trans hone (ih _)

variable (sim ef) in
/-- Every search ends in a beam that satisfies the invariant and has stamped its entry. -/
theorem search_beam (fuel : Nat) {e : ν} (he : P e) (hP : ∀ x, P x → ∀ y ∈ links x, P y) :
    ∃ b : Beam σ ν, b.Inv sim P ef ∧ e ∈ b.visited ∧
      search (m := Id) links sim ef fuel e = b.results :=
  ⟨loop (m := Id) links sim ef fuel (start e (sim e)), inv_loop fuel (inv_start he) hP,
    visited_subset_loop fuel _ (List.mem_singleton.mpr rfl), rfl⟩

end Invariant

section Tracked

variable {sim : ν → σ} {P Q : ν → Prop} {b : Beam σ ν}

/-- Only the similarities of the stamped nodes matter. -/
theorem Shape.congr {sim' : ν → σ} (h : b.Shape sim P) (heq : ∀ x ∈ b.visited, sim x = sim' x) :
    b.Shape sim' P :=
  { h with
    results_scored := fun p hp => (h.results_scored p hp).trans (heq _ (h.results_visited p hp))
    cands_scored := fun p hp => (h.cands_scored p hp).trans (heq _ (h.cands_visited p hp)) }

/-- A beam in order for the similarities that it has seen, when these come from a changing source. -/
def Tracked (P : ν → Prop) (b : Beam σ ν) : Prop := ∃ sim : ν → σ, b.Shape sim P

theorem tracked_start {e : ν} (he : P e) (v : σ) : (start e v).Tracked P :=
  ⟨fun _ => v, shape_start he⟩

theorem Tracked.mono (h : b.Tracked P) (hPQ : ∀ x, P x → Q x) : b.Tracked Q := by
  obtain ⟨sim, h⟩ := h
  exact ⟨sim, h.mono hPQ⟩

theorem Tracked.popCand (h : b.Tracked P) {c : σ × ν} {cs : List (σ × ν)} (hc : b.cands = c :: cs) :
    P c.2 ∧ Tracked P { b with cands := cs } := by
  obtain ⟨sim, h⟩ := h
  exact ⟨h.cand_in (hc ▸ List.mem_cons_self), sim, h.popCand hc⟩

theorem Tracked.offer (h : b.Tracked P) (ef : Int) {x : ν} (hx : x ∉ b.visited) (hP : P x) (v : σ) :
    ((b.visit x).offer ef (v, x)).Tracked P := by
  obtain ⟨sim, h⟩ := h
  have heq : ∀ y ∈ b.visited, sim y = Function.update sim x v y := by
    intro y hy
    have hne : y ≠ x := fun he => hx (he ▸ hy)
    rw [Function.update_of_ne hne]
  have hoffer := (h.congr heq).offer ef hx hP
  rw [Function.update_self] at hoffer
  exact ⟨_, hoffer⟩

theorem Tracked.results (h : b.Tracked P) :
    (b.results.map Prod.snd).Nodup ∧ ∀ p ∈ b.results, P p.2 := by
  obtain ⟨sim, h⟩ := h
  exact ⟨h.results_nodup, fun p hp => h.result_in hp⟩

end Tracked

section Best

variable {sim : ν → σ} {P : ν → Prop} {ef : Int} {b : Beam σ ν} {links : ν → List ν} {e : ν}

end Best

section Fuel

variable {sim : ν → σ} {P : ν → Prop} {ef : Int} {b : Beam σ ν} {links : ν → List ν}

/-- The candidates still queued and the nodes still unstamped bound the candidates yet to be
taken, when all nodes come from a universe of `n`. -/
def pending (n : Nat) (b : Beam σ ν) : Nat := b.cands.length + (n - b.visited.length)

theorem offer_cands_length (ef : Int) (b : Beam σ ν) (p : σ × ν) :
    (b.offer ef p).cands.length ≤ b.cands.length + 1 := by
  unfold offer
  split_ifs <;> simp [push, popResult, List.orderedInsert_length]

theorem pending_expand {n : Nat} (hn : ∀ l : List ν, l.Nodup → (∀ x ∈ l, P x) → l.length ≤ n)
    (xs : List ν) (h : b.Inv sim P ef) (hxs : ∀ x ∈ xs, P x) :
    pending n (expand (m := Id) sim ef xs b) ≤ pending n b := by
  induction xs generalizing b with
  | nil => exact le_rfl
  | cons x xs ih =>
    have hrest : ∀ y ∈ xs, P y := fun y hy => hxs y (List.mem_cons_of_mem x hy)
    rw [expand]
    split_ifs with hx
    · exact ih h hrest
    · have hnew := h.offer hx (hxs x List.mem_cons_self)
      have hbound := hn _ hnew.visited_nodup hnew.visited_in
      have hcands := offer_cands_length ef (b.visit x) (sim x, x)
      refine (ih hnew hrest).trans ?_
      simp only [pending, offer_visited, visit_visited, List.length_cons] at hbound hcands ⊢
      have : (b.visit x).cands = b.cands := rfl
      rw [this] at hcands
      omega

end Fuel

end Beam

end NeuralDb.Library
