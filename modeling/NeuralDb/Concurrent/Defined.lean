import NeuralDb.Concurrent.Visited

/-! Runs that stop where the source is undefined: at an index past the end of `visited_buf`, and at an append after
which the vectors are more than an `int` counts, as the sizes of the beam and of the results are cast to one. -/

namespace NeuralDb

open Library HNSWIndex

namespace Concurrent

section Defined

variable {σ : Type} [LinearOrder σ] {dim : Nat}

def Action.isStep : Action dim → Bool
  | .step => true
  | _ => false

def Thread.isAppending (th : Thread σ) : Bool :=
  match th.call with
  | some (.insert f) =>
    match f.pc with
    | .append => true
    | _ => false
  | _ => false

/-- The number of vectors is still an `int` after an append, and so is every node id. -/
def KeepsIds (m : Machine σ) (e : Nat × Action dim) : Prop :=
  e.2 = .step → (m.threads e.1).appends → m.index.numVectors + 1 < 2 ^ 31

/-- The step that the source leaves undefined, or after which it no longer counts the vectors. -/
def Machine.undefined (m : Machine σ) (e : Nat × Action dim) : Bool :=
  e.2.isStep && ((m.threads e.1).stamp.any (fun x => decide ((m.threads e.1).bufSize ≤ x)) ||
    (m.threads e.1).isAppending && decide (2 ^ 31 ≤ m.index.numVectors + 1))

def Machine.checkedNext (rt : Runtime σ) (m : Machine σ) (e : Nat × Action dim) : Option (Machine σ) :=
  if m.undefined e then none else some (m.next rt e)

/-- A run from an empty index, none as soon as a step is undefined. -/
def Machine.checkedRun (rt : Runtime σ) (cfg : HNSWConfig) (es : List (Nat × Action dim)) : Option (Machine σ) :=
  es.foldlM (Machine.checkedNext rt) (Machine.new dim cfg)

omit [LinearOrder σ] in
theorem Thread.appends_of_isAppending {th : Thread σ} (h : th.isAppending = true) : th.appends := by
  unfold Thread.isAppending at h
  split at h
  · next f hcall =>
    split at h
    · next hpc => exact ⟨f, hcall, hpc⟩
    · contradiction
  · contradiction

omit [LinearOrder σ] in
theorem Machine.defined_of (m : Machine σ) {e : Nat × Action dim} (hstamp : (m.threads e.1).StampsInBounds)
    (hids : KeepsIds m e) : m.undefined e = false := by
  obtain ⟨t, a⟩ := e
  cases a with
  | step =>
    have hin : (m.threads t).stamp.any (fun x => decide ((m.threads t).bufSize ≤ x)) = false := by
      cases hx : (m.threads t).stamp with
      | none => rfl
      | some x => exact decide_eq_false (not_le.mpr (hstamp x hx))
    have hfits : ((m.threads t).isAppending && decide (2 ^ 31 ≤ m.index.numVectors + 1)) = false := by
      cases happ : (m.threads t).isAppending with
      | false => rfl
      | true => exact decide_eq_false (not_le.mpr (hids rfl (Thread.appends_of_isAppending happ)))
    exact Bool.or_eq_false_iff.mpr ⟨hin, hfits⟩
  | insert id vec metadata level => rfl
  | search query k => rfl
  | delete id => rfl

variable (rt : Runtime σ)

/-- As long as no append outgrows a buffer in use, or the ids, a run is defined to its end. -/
theorem checkedRun_eq (cfg : HNSWConfig) {es : List (Nat × Action dim)}
    (hroom : Along (Machine.next rt) KeepsRoom (Machine.new dim cfg) es)
    (hids : Along (Machine.next rt) KeepsIds (Machine.new dim cfg) es) :
    Machine.checkedRun rt cfg es = some (Machine.run rt cfg es) := by
  induction es using List.reverseRecOn with
  | nil => rfl
  | append_singleton es e ih =>
    obtain ⟨hroom, -⟩ := along_append.mp hroom
    obtain ⟨hids, hlast, -⟩ := along_append.mp hids
    have hbounds : Bounds (Machine.run rt cfg es) :=
      invariant_run (fun _ _ h hroom => Bounds.next rt h hroom) (bounds_new dim cfg) hroom
    have hdefined := Machine.defined_of (Machine.run rt cfg es) (hbounds.stamps e.1) hlast
    have hrun : Machine.run rt cfg (es ++ [e]) = (Machine.run rt cfg es).next rt e := runFrom_append _ _ es [e]
    rw [Machine.checkedRun, foldlM_concat]
    have hpast : es.foldlM (Machine.checkedNext rt) (Machine.new dim cfg) = some (Machine.run rt cfg es) := ih hroom hids
    rw [hpast, Option.bind_some, Machine.checkedNext, hdefined, hrun]
    rfl

/-- Both conditions on a step, where all calls are made on the threads below `k`. -/
def keepsBelow (k : Nat) (m : Machine σ) (e : Nat × Action dim) : Bool :=
  !(e.2.isStep && (m.threads e.1).isAppending) || decide (m.index.numVectors + 1 < 2 ^ 31) &&
    (List.range k).all fun t =>
      decide (t = e.1) || !(m.threads t).usesBuffer || decide (m.index.numVectors < (m.threads t).bufSize)

omit [LinearOrder σ] in
theorem Thread.isAppending_of_appends {th : Thread σ} (h : th.appends) : th.isAppending = true := by
  obtain ⟨f, hcall, hpc⟩ := h
  simp only [Thread.isAppending, hcall, hpc]

omit [LinearOrder σ] in
theorem keeps_of_below {k : Nat} {m : Machine σ} {e : Nat × Action dim} (hidle : ∀ t, k ≤ t → m.threads t = {})
    (h : keepsBelow k m e = true) : KeepsRoom m e ∧ KeepsIds m e := by
  have hboth : e.2 = .step → (m.threads e.1).appends → m.index.numVectors + 1 < 2 ^ 31 ∧ ∀ t < k, t ≠ e.1 →
      (m.threads t).usesBuffer → m.index.numVectors < (m.threads t).bufSize := by
    intro hstep happ
    unfold keepsBelow at h
    rw [hstep, Thread.isAppending_of_appends happ] at h
    obtain ⟨hids, hroom⟩ := Bool.and_eq_true_iff.mp h
    refine ⟨of_decide_eq_true hids, fun t ht hne huses => ?_⟩
    have hthread := List.all_eq_true.mp hroom t (List.mem_range.mpr ht)
    simpa [hne, huses] using hthread
  refine ⟨fun hstep happ t hne huses => ?_, fun hstep happ => (hboth hstep happ).1⟩
  by_cases ht : t < k
  · exact (hboth hstep happ).2 t ht hne huses
  · rw [hidle t (not_lt.mp ht)] at huses
    exact absurd huses Bool.false_ne_true

theorem along_keeps (cfg : HNSWConfig) {es : List (Nat × Action dim)} {k : Nat} (hes : ∀ e ∈ es, e.1 < k)
    (h : Along (Machine.next rt) (fun m e => keepsBelow k m e = true) (Machine.new dim cfg) es) :
    Along (Machine.next rt) KeepsRoom (Machine.new dim cfg) es ∧
      Along (Machine.next rt) KeepsIds (Machine.new dim cfg) es := by
  induction es using List.reverseRecOn with
  | nil => exact ⟨trivial, trivial⟩
  | append_singleton es e ih =>
    obtain ⟨hinit, hlast⟩ := List.forall_mem_append.mp hes
    obtain ⟨hpast, hnow, -⟩ := along_append.mp h
    obtain ⟨hroom, hids⟩ := ih hinit hpast
    have hidle : ∀ t, k ≤ t → (Machine.run rt cfg es).threads t = {} := by
      intro t ht
      rw [Machine.run, Machine.threads_runFrom_other rt fun e he => ((hinit e he).trans_le ht).ne]
      rfl
    obtain ⟨hroom', hids'⟩ := keeps_of_below hidle hnow
    exact ⟨along_append.mpr ⟨hroom, hroom', trivial⟩, along_append.mpr ⟨hids, hids', trivial⟩⟩

end Defined

end Concurrent

end NeuralDb
