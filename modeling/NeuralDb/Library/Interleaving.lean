import Mathlib.Algebra.Order.Ring.Int
import Mathlib.Data.List.Induction
import Mathlib.Data.List.Sort
import Mathlib.Order.WithBot
import Mathlib.Tactic.Common

/-! Runs of a machine under a schedule, and conditions on their steps. -/

namespace NeuralDb.Library

section Runs

variable {S E : Type} (next : S → E → S)

def runFrom (s : S) (es : List E) : S := es.foldl next s

/-- Every step of the run meets `P`, a condition on the state before the step. -/
def Along (P : S → E → Prop) : S → List E → Prop
  | _, [] => True
  | s, e :: es => P s e ∧ Along P (next s e) es

theorem runFrom_append (s : S) (es fs : List E) :
    runFrom next s (es ++ fs) = runFrom next (runFrom next s es) fs := List.foldl_append

variable {next} {P : S → E → Prop} {I : S → Prop}

theorem Along.mono {Q : S → E → Prop} (hPQ : ∀ s e, P s e → Q s e) {s : S} {es : List E}
    (h : Along next P s es) : Along next Q s es := by
  induction es generalizing s with
  | nil => trivial
  | cons e es ih => exact ⟨hPQ s e h.1, ih h.2⟩

theorem along_true (s : S) (es : List E) : Along next (fun _ _ => True) s es := by
  induction es generalizing s with
  | nil => trivial
  | cons e es ih => exact ⟨trivial, ih _⟩

theorem along_append {s : S} {es fs : List E} :
    Along next P s (es ++ fs) ↔ Along next P s es ∧ Along next P (runFrom next s es) fs := by
  induction es generalizing s with
  | nil => exact ⟨fun h => ⟨trivial, h⟩, And.right⟩
  | cons e es ih => exact (and_congr_right fun _ => ih).trans and_assoc.symm

instance decidableAlong [∀ s e, Decidable (P s e)] : ∀ s es, Decidable (Along next P s es)
  | _, [] => .isTrue trivial
  | s, e :: es => @instDecidableAnd _ _ _ (decidableAlong (next s e) es)

/-- An invariant of the steps that meet `P` holds at the end of every run of such steps. -/
theorem invariant_run (hstep : ∀ s e, I s → P s e → I (next s e)) {s : S} (h : I s) {es : List E}
    (hes : Along next P s es) : I (runFrom next s es) := by
  induction es generalizing s with
  | nil => exact h
  | cons e es ih => exact ih (hstep s e h hes.1) hes.2

/-- What no step lowers is lowest at the beginning of a run. -/
theorem le_runFrom {α : Type} [Preorder α] (f : S → α) (hI : ∀ s e, I s → I (next s e))
    (hstep : ∀ s e, I s → f s ≤ f (next s e)) {s : S} (h : I s) (es : List E) : f s ≤ f (runFrom next s es) := by
  induction es generalizing s with
  | nil => exact le_rfl
  | cons e es ih => exact (hstep s e h).trans (ih (hI s e h))

/-- A busy party whose own steps lower its rank, and whose rank the steps of others leave alone, is idle at
some moment of a run in which it takes as many steps of its own as its rank says. -/
theorem exists_idle (busy : S → Prop) (rank : S → Nat) (own : E → Bool) {s : S} {es : List E}
    (hI : ∀ past, past <+: es → I (runFrom next s past)) (hpos : ∀ s, I s → busy s → 0 < rank s)
    (hown : ∀ s e, I s → busy s → own e = true → busy (next s e) → rank (next s e) < rank s)
    (hother : ∀ s e, I s → busy s → own e = false → rank (next s e) ≤ rank s)
    (hmany : rank s ≤ es.countP own) : ∃ past, past <+: es ∧ ¬ busy (runFrom next s past) := by
  induction es generalizing s with
  | nil =>
    have hs : I s := hI [] List.prefix_rfl
    exact ⟨[], List.prefix_rfl, fun hb => absurd (hpos s hs hb) (not_lt.mpr hmany)⟩
  | cons e es ih =>
    by_cases hb : busy s
    · have hs : I s := hI [] (List.nil_prefix)
      have hlater : (∃ past, past <+: es ∧ ¬ busy (runFrom next (next s e) past)) →
          ∃ past, past <+: e :: es ∧ ¬ busy (runFrom next s past) := by
        rintro ⟨past, hpast, hidle⟩
        exact ⟨e :: past, (List.cons_prefix_cons).mpr ⟨rfl, hpast⟩, hidle⟩
      have hI' : ∀ past, past <+: es → I (runFrom next (next s e) past) :=
        fun past hpast => hI (e :: past) ((List.cons_prefix_cons).mpr ⟨rfl, hpast⟩)
      by_cases hb' : busy (next s e)
      · refine hlater (ih hI' ?_)
        cases he : own e with
        | true =>
          have hlt := hown s e hs hb he hb'
          rw [List.countP_cons_of_pos he] at hmany
          omega
        | false =>
          have hle := hother s e hs hb he
          rw [List.countP_cons_of_neg (by simp [he])] at hmany
          omega
      · exact hlater ⟨[], List.nil_prefix, hb'⟩
    · exact ⟨[], List.nil_prefix, hb⟩

end Runs

/-! Runs whose steps may fail. -/

section Partial

variable {S E : Type} {step : S → E → Option S} {I : List E → S → Prop}

theorem foldlM_concat (step : S → E → Option S) (s : S) (es : List E) (e : E) :
    (es ++ [e]).foldlM step s = (es.foldlM step s).bind fun t => step t e := by
  rw [List.foldlM_append]
  simp only [List.foldlM_cons, List.foldlM_nil, bind_pure]
  rfl

/-- Steps that return and keep an invariant of the events so far make runs that return and keep it. -/
theorem invariant_foldlM (hstep : ∀ es s e, I es s → ∃ s', step s e = some s' ∧ I (es ++ [e]) s') {s : S}
    (h : I [] s) (es : List E) : ∃ s', es.foldlM step s = some s' ∧ I es s' := by
  induction es using List.reverseRecOn with
  | nil => exact ⟨s, rfl, h⟩
  | append_singleton es e ih =>
    obtain ⟨t, hrun, ht⟩ := ih
    obtain ⟨s', he, hs'⟩ := hstep es t e ht
    exact ⟨s', by rw [foldlM_concat, hrun, Option.bind_some, he], hs'⟩

end Partial

end NeuralDb.Library
