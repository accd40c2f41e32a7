import Mathlib.Algebra.BigOperators.Fin
import Mathlib.Tactic.Common

/-! Loops that take an array `w` elements at a time and add them up lane by lane. Reads outside the array
fail, so a loop that returns has made none. -/

namespace NeuralDb.Library

/-- An array in memory: no element is read where there is none. -/
abbrev Ptr (R : Type) := Nat → Option R

/-- A vector register. -/
abbrev Lanes (w : Nat) (R : Type) := Fin w → R

section Load

variable {R : Type}

/-- The array of the elements of `v`. -/
def pointer {dim : Nat} (v : Fin dim → R) : Ptr R := fun i => if h : i < dim then some (v ⟨i, h⟩) else none

theorem pointer_some {dim : Nat} (v : Fin dim → R) {i : Nat} (h : i < dim) : pointer v i = some (v ⟨i, h⟩) := dif_pos h

/-- `w` elements from `i` on, one after the other. -/
def loadu (p : Ptr R) : (w i : Nat) → Option (Lanes w R)
  | 0, _ => some Fin.elim0
  | w + 1, i => do
    let x ← p i
    let xs ← loadu p w (i + 1)
    pure (Fin.cons x xs)

theorem loadu_some {p : Ptr R} {f : Nat → R} {w i : Nat} (h : ∀ j < w, p (i + j) = some (f (i + j))) :
    loadu p w i = some fun j : Fin w => f (i + j) := by
  induction w generalizing i with
  | zero => exact congrArg some (funext fun j => j.elim0)
  | succ w ih =>
    have hhead : p i = some (f i) := h 0 (Nat.succ_pos w)
    have htail := ih (i := i + 1) fun j hj => by
      have hnext := h (j + 1) (Nat.succ_lt_succ hj)
      rwa [show i + (j + 1) = i + 1 + j by omega] at hnext
    rw [loadu, hhead, htail]
    refine congrArg some (funext fun j => ?_)
    refine Fin.cases rfl (fun j => ?_) j
    rw [Fin.cons_succ, Fin.val_succ]
    congr 1
    omega

end Load

section Loop

variable {A : Type} {w dim : Nat} {body : Nat → A → Option A} {P : Nat → A → Prop}

/-- `for (; i + w <= dim; i += w)`, with the index it ends at. The fuel bounds the tests of the condition. -/
def strideLoop (w dim : Nat) (body : Nat → A → Option A) : Nat → Nat → A → Option (Nat × A)
  | 0, _, _ => none
  | fuel + 1, i, acc =>
    if i + w ≤ dim then do
      let acc ← body i acc
      strideLoop w dim body fuel (i + w) acc
    else some (i, acc)

/-- What one turn preserves holds at the end, where less than a block is left. -/
theorem strideLoop_spec (hw : 0 < w)
    (hbody : ∀ i acc, i + w ≤ dim → P i acc → ∃ acc', body i acc = some acc' ∧ P (i + w) acc') {fuel i : Nat}
    {acc : A} (hi : i ≤ dim) (hfuel : dim < i + fuel) (hinv : P i acc) :
    ∃ i' acc', strideLoop w dim body fuel i acc = some (i', acc') ∧ P i' acc' ∧ i' ≤ dim ∧ dim < i' + w := by
  induction fuel generalizing i acc with
  | zero => omega
  | succ fuel ih =>
    rw [strideLoop]
    split_ifs with hroom
    · obtain ⟨next, hnext, hstep⟩ := hbody i acc hroom hinv
      rw [hnext]
      exact ih hroom (by omega) hstep
    · exact ⟨i, acc, rfl, hinv, hi, not_le.mp hroom⟩

/-- A loop over single elements that keeps a running total. -/
theorem strideLoop_one (total : Nat → A) (hbody : ∀ i < dim, body i (total i) = some (total (i + 1))) {i : Nat}
    (hi : i ≤ dim) : strideLoop 1 dim body (dim + 1) i (total i) = some (dim, total dim) := by
  have hstep : ∀ i acc, i + 1 ≤ dim → acc = total i → ∃ acc', body i acc = some acc' ∧ acc' = total (i + 1) := by
    rintro i acc hi rfl
    exact ⟨_, hbody i hi, rfl⟩
  obtain ⟨i', acc, hloop, rfl, hle, hlt⟩ := strideLoop_spec Nat.one_pos hstep hi (show dim < i + (dim + 1) by omega) rfl
  obtain rfl : i' = dim := by omega
  exact hloop

end Loop

section Sum

variable {R : Type} [AddCommMonoid R]

open Finset

/-- Lanes that hold the sum of the first `i` terms hold the sum of `w` more after each took its own. -/
theorem sum_lanes_step {w i : Nat} {acc : Lanes w R} {t : Nat → R} (h : ∑ j, acc j = ∑ x ∈ range i, t x) :
    ∑ j, (acc j + t (i + j)) = ∑ x ∈ range (i + w), t x := by
  rw [sum_add_distrib, h, sum_range_add, sum_range fun x => t (i + x)]

end Sum

end NeuralDb.Library
