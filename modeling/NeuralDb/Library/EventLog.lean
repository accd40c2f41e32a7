import NeuralDb.Library.Interleaving

/-! What the steps of a run emit. The log of a run is a sequential account of it when each step changes
an abstract state as the event that it emits says; and nothing is lost between two logs of one run when
each step gives out, or still holds, what it had and what it took in. -/

namespace NeuralDb.Library

variable {S E A T : Type} (next : S → E → S) (emit : S → E → List A)

/-- The events of a run, in the order of the steps that emit them. -/
def emitted : S → List E → List A
  | _, [] => []
  | s, e :: es => emit s e ++ emitted (next s e) es

theorem emitted_append (s : S) (es fs : List E) :
    emitted next emit s (es ++ fs) = emitted next emit s es ++ emitted next emit (runFrom next s es) fs := by
  induction es generalizing s with
  | nil => rfl
  | cons e es ih =>
    simp only [List.cons_append, emitted, List.append_assoc, ih]
    rfl

theorem emitted_filter (p : A → Bool) (s : S) (es : List E) :
    (emitted next emit s es).filter p = emitted next (fun s e => (emit s e).filter p) s es := by
  induction es generalizing s with
  | nil => rfl
  | cons e es ih => simp only [emitted, List.filter_append, ih]

theorem emitted_prefix (s : S) {es fs : List E} (h : es <+: fs) :
    emitted next emit s es <+: emitted next emit s fs := by
  obtain ⟨gs, rfl⟩ := h
  rw [emitted_append]
  exact List.prefix_append _ _

variable {next emit}

/-- Steps that change an abstract state as their events say make runs that do. -/
theorem fold_emitted (abs : S → T) {apply : T → A → T} {I : S → Prop} (hI : ∀ s e, I s → I (next s e))
    (hstep : ∀ s e, I s → abs (next s e) = (emit s e).foldl apply (abs s)) {s : S} (h : I s) (es : List E) :
    abs (runFrom next s es) = (emitted next emit s es).foldl apply (abs s) := by
  induction es generalizing s with
  | nil => rfl
  | cons e es ih =>
    rw [emitted, List.foldl_append, ← hstep s e h]
    exact ih (hI s e h)

/-- What is taken in comes out in the same order, up to what is still held. -/
theorem emitted_held {enter : S → E → List A} {held : S → List A}
    (hstep : ∀ s e, emit s e ++ held (next s e) = held s ++ enter s e) (s : S) (es : List E) :
    emitted next emit s es ++ held (runFrom next s es) = held s ++ emitted next enter s es := by
  induction es generalizing s with
  | nil => exact (List.append_nil _).symm
  | cons e es ih =>
    calc emitted next emit s (e :: es) ++ held (runFrom next s (e :: es))
        = emit s e ++ (emitted next emit (next s e) es ++ held (runFrom next (next s e) es)) :=
          List.append_assoc _ _ _
      _ = (emit s e ++ held (next s e)) ++ emitted next enter (next s e) es := by
          rw [ih, List.append_assoc]
      _ = held s ++ emitted next enter s (e :: es) := by
          rw [hstep, List.append_assoc]
          rfl

/-- Two lists are permutations of each other when they agree on the entries of each key. -/
theorem perm_of_filter {κ : Type} [DecidableEq κ] (key : A → κ) {l l' : List A}
    (h : ∀ k, l.filter (key · = k) = l'.filter (key · = k)) : l.Perm l' := by
  classical
  refine List.perm_iff_count.mpr fun a => ?_
  have hkey : ∀ l : List A, (l.filter (key · = key a)).count a = l.count a := by
    intro l
    exact List.count_filter (p := fun b => decide (key b = key a)) (decide_eq_true rfl)
  rw [← hkey l, ← hkey l', h]

end NeuralDb.Library
