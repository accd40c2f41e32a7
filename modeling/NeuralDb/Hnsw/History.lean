import NeuralDb.Hnsw.Slots
import Mathlib.Data.List.Induction

/-! Histories of calls, run on an HNSW index and on a flat index. Both keep the same slot table. -/

namespace NeuralDb

/-- A call that changes an index of dimension `dim`. The level is the one that `random_layer` draws,
which only the HNSW index looks at. -/
inductive Op (dim : Nat) where
  | insert (id : UInt64) (vec : VecOf dim) (metadata : Bytes) (level : Nat)
  | delete (id : UInt64)

def Op.id {dim : Nat} : Op dim → UInt64
  | .insert id _ _ _ => id
  | .delete id => id

def Op.isInsert {dim : Nat} : Op dim → Bool
  | .insert _ _ _ _ => true
  | .delete _ => false

/-- What a call does to the slot table. -/
def stepSlots {dim : Nat} (vs : List VectorSlot) : Op dim → List VectorSlot
  | .insert id vec metadata _ => vs ++ [⟨id, metadata, vec, false⟩]
  | .delete id => markFirst id vs

def runSlots {dim : Nat} (ops : List (Op dim)) : List VectorSlot := ops.foldl stepSlots []

theorem runSlots_concat {dim : Nat} (ops : List (Op dim)) (op : Op dim) :
    runSlots (ops ++ [op]) = stepSlots (runSlots ops) op := List.foldl_append

namespace FlatIndex

variable {dim : Nat}

def step (f : FlatIndex) : Op dim → FlatIndex
  | .insert id vec metadata _ => f.insert id vec metadata
  | .delete id => f.deleteVector id

def run (ops : List (Op dim)) : FlatIndex := ops.foldl step (new dim)

theorem step_eq (f : FlatIndex) (op : Op dim) : f.step op = ⟨f.dim, stepSlots f.vectors op⟩ := by
  cases op <;> rfl

theorem run_eq (ops : List (Op dim)) : run ops = ⟨dim, runSlots ops⟩ := by
  induction ops using List.reverseRecOn with
  | nil => rfl
  | append_singleton ops op ih =>
    rw [run, runSlots, List.foldl_append, List.foldl_append, ← run, ← runSlots, ih]
    exact step_eq _ op

end FlatIndex

namespace HNSWIndex

variable {dim : Nat} {σ : Type} [LinearOrder σ] (rt : Runtime σ)

def step (s : HNSWIndex) : Op dim → HNSWIndex
  | .insert id vec metadata level => s.insertRaw rt id vec metadata level
  | .delete id => s.deleteVector id

def run (cfg : HNSWConfig) (ops : List (Op dim)) : HNSWIndex := ops.foldl (step rt) (new dim cfg)

theorem run_concat (cfg : HNSWConfig) (ops : List (Op dim)) (op : Op dim) :
    run rt cfg (ops ++ [op]) = (run rt cfg ops).step rt op := List.foldl_append

theorem step_dim (s : HNSWIndex) (op : Op dim) : (s.step rt op).dim = s.dim := by
  cases op with
  | insert id vec metadata level => exact (insertRaw_table rt s id vec metadata level).dim_eq
  | delete id =>
    simp only [step, deleteVector]
    split <;> rfl

theorem step_cfg (s : HNSWIndex) (op : Op dim) : (s.step rt op).cfg = s.cfg := by
  cases op with
  | insert id vec metadata level => exact (insertRaw_table rt s id vec metadata level).cfg_eq
  | delete id =>
    simp only [step, deleteVector]
    split <;> rfl

theorem Aligned.step {s : HNSWIndex} (h : s.Aligned) (hdim : s.dim = dim) (op : Op dim) :
    (s.step rt op).Aligned ∧ (s.step rt op).slots = stepSlots s.slots op := by
  cases op with
  | insert id vec metadata level =>
    have hvec := vec.2.trans hdim.symm
    exact ⟨h.insertRaw rt id hvec metadata level, h.slots_insertRaw rt id hvec metadata level⟩
  | delete id => exact ⟨h.deleteVector id, h.slots_deleteVector id⟩

@[simp] theorem run_dim (cfg : HNSWConfig) (ops : List (Op dim)) : (run rt cfg ops).dim = dim := by
  induction ops using List.reverseRecOn with
  | nil => rfl
  | append_singleton ops op ih => rw [run_concat, step_dim, ih]

@[simp] theorem run_cfg (cfg : HNSWConfig) (ops : List (Op dim)) : (run rt cfg ops).cfg = cfg := by
  induction ops using List.reverseRecOn with
  | nil => rfl
  | append_singleton ops op ih => rw [run_concat, step_cfg, ih]

/-- The slot table of a run depends on the calls only, not on the levels nor on the graph. -/
theorem aligned_run (cfg : HNSWConfig) (ops : List (Op dim)) :
    (run rt cfg ops).Aligned ∧ (run rt cfg ops).slots = runSlots ops := by
  induction ops using List.reverseRecOn with
  | nil => exact ⟨aligned_new dim cfg, rfl⟩
  | append_singleton ops op ih =>
    have hstep := ih.1.step rt (run_dim rt cfg ops) op
    rw [ih.2] at hstep
    rw [run_concat, runSlots, List.foldl_append]
    exact hstep

/-- An HNSW index and a flat index that received the same calls hold the same slots. -/
theorem slots_run (cfg : HNSWConfig) (ops : List (Op dim)) :
    (run rt cfg ops).slots = (FlatIndex.run ops).vectors := by
  rw [(aligned_run rt cfg ops).2, FlatIndex.run_eq]

end HNSWIndex

end NeuralDb
