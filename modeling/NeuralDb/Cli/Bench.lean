import NeuralDb.Concurrent.Defined
import NeuralDb.Concurrent.Parallel
import NeuralDb.Hnsw.Effort
import NeuralDb.Kernel
import NeuralDb.Cli.Npy

/-! The benchmark: an index that several threads build at once, and how many of the brute-force results its
searches find for each `ef_search`. -/

namespace NeuralDb

open Library HNSWIndex

namespace Cli

section Build

variable {dim : Nat}

/-- The bytes of the metadata of every vector, an empty object. -/
def emptyObject : Bytes := [123, 125]

theorem benchM_lt : (16 : Int) < 2 ^ 30 := by decide

def benchConfig : HNSWConfig := { M := 16, efConstruction := 200, M_lt := benchM_lt }

/-- The iterations of the parallel loop, whose bound is `(int)n`. -/
def iterations (n : Nat) : Nat := (Int.bmod n (2 ^ 32)).toNat

/-- The call of iteration `i`, on whatever thread it runs. -/
def insertCall (train : Matrix dim) (level : Nat → Nat) (i : Fin train.n) : Op dim :=
  .insert (UInt64.ofNat i) (train.row i) emptyObject (level i)

def buildCalls (train : Matrix dim) (level : Nat → Nat) : List (Op dim) :=
  ((List.finRange train.n).take (iterations train.n)).map (insertCall train level)

def groundTruth (train : Matrix dim) : FlatIndex :=
  (List.finRange train.n).foldl (fun f (i : Fin train.n) => f.insert (UInt64.ofNat i) (train.row i).1 emptyObject)
    (.new dim)

/-- The `float` arithmetic of the recall. What is rounded keeps its order, so that a sum and a quotient by a positive
integer do not fall when their operands do not. -/
structure FloatArith (ρ : Type) [Preorder ρ] where
  ofInt : Int → ρ
  add : ρ → ρ → ρ
  /-- The quotient by an integer that is converted first. -/
  divInt : ρ → Int → ρ
  ofInt_mono : Monotone ofInt
  add_mono {a a' b b' : ρ} : a ≤ a' → b ≤ b' → add a b ≤ add a' b'
  divInt_mono {c : Int} : 0 < c → Monotone fun a => divInt a c

/-- Sums and quotients without rounding. -/
def FloatArith.exact : FloatArith ℚ where
  ofInt n := n
  add a b := a + b
  divInt a c := a / c
  ofInt_mono := Int.cast_mono
  add_mono := add_le_add
  divInt_mono hc := fun _ _ h => div_le_div_of_nonneg_right h (Int.cast_nonneg hc.le)

/-- The `found` of `compute_recall`. -/
def found {σ : Type} (truth : List UInt64) (results : List (σ × UInt64)) : Nat :=
  results.countP fun r => decide (r.2 ∈ truth)

section Recall

variable {ρ : Type} [Preorder ρ] (fl : FloatArith ρ)

variable {σ : Type} [LinearOrder σ] (rt : Runtime σ)

end Recall

def trainSlot (train : Matrix dim) (i : Fin train.n) : VectorSlot := ⟨UInt64.ofNat i, emptyObject, (train.row i).1, false⟩

theorem groundTruth_vectors (train : Matrix dim) :
    (groundTruth train).vectors = (List.finRange train.n).map (trainSlot train) := by
  have hfold : ∀ (is : List (Fin train.n)) (f : FlatIndex),
      (is.foldl (fun f (i : Fin train.n) => f.insert (UInt64.ofNat i) (train.row i).1 emptyObject) f).vectors =
        f.vectors ++ is.map (trainSlot train) := by
    intro is
    induction is with
    | nil => exact fun f => (List.append_nil _).symm
    | cons i is ih =>
      intro f
      rw [List.foldl_cons, ih]
      exact List.append_assoc f.vectors [trainSlot train i] (is.map (trainSlot train))
  exact hfold (List.finRange train.n) (.new dim)

theorem iterations_eq {n : Nat} (hn : n < 2 ^ 31) : iterations n = n := by
  have hbmod : ∀ m : Nat, n * 2 < m → Int.bmod n m = n :=
    fun m hm => Int.bmod_eq_of_le_mul_two (by omega) (by omega)
  unfold iterations
  rw [hbmod (2 ^ 32) (show n * 2 < 2 ^ 32 by omega)]
  exact Int.toNat_natCast n

end Build

section Answers

variable {σ : Type} [LinearOrder σ] {rt : Runtime σ} {query : Vec} {vs ws : List VectorSlot}

/-- Live slots with ids and similarities of their own. -/
structure Untied (rt : Runtime σ) (query : Vec) (vs : List VectorSlot) : Prop where
  live : ∀ v ∈ vs, v.deleted = false
  ids : (vs.map VectorSlot.id).Nodup
  scores : (vs.map fun v => rt.cosineSimilarity query v.data).Nodup

theorem Untied.perm (h : Untied rt query vs) (hperm : ws.Perm vs) : Untied rt query ws where
  live v hv := h.live v (hperm.mem_iff.mp hv)
  ids := (hperm.map _).nodup_iff.mpr h.ids
  scores := (hperm.map _).nodup_iff.mpr h.scores

/-- The slot of the first id is at least as similar as that of the second. -/
def Before (rt : Runtime σ) (query : Vec) (vs : List VectorSlot) (a b : UInt64) : Prop :=
  ∃ v ∈ vs, ∃ w ∈ vs, v.id = a ∧ w.id = b ∧ rt.cosineSimilarity query w.data ≤ rt.cosineSimilarity query v.data

/-- Results of a search for `k` vectors, the best first. -/
structure Found (rt : Runtime σ) (query : Vec) (vs : List VectorSlot) (k : Int) (results : List (σ × UInt64)) :
    Prop where
  scored : ∀ r ∈ results, ∃ v ∈ vs, r = (rt.cosineSimilarity query v.data, v.id)
  nodup : (results.map Prod.snd).Nodup
  length : results.length ≤ min k.toNat vs.length
  ordered : (results.map Prod.snd).Pairwise (Before rt query vs)

theorem Found.perm {k : Int} {results : List (σ × UInt64)} (h : Found rt query vs k results) (hperm : vs.Perm ws) :
    Found rt query ws k results where
  scored r hr := by
    obtain ⟨v, hv, heq⟩ := h.scored r hr
    exact ⟨v, hperm.mem_iff.mp hv, heq⟩
  nodup := h.nodup
  length := hperm.length_eq ▸ h.length
  ordered := h.ordered.imp fun ⟨v, hv, w, hw, hrest⟩ => ⟨v, hperm.mem_iff.mp hv, w, hperm.mem_iff.mp hw, hrest⟩

section Counts

variable {k : Int} {truth : List UInt64} {results results' : List (σ × UInt64)}

theorem Found.subperm (h : Found rt query vs k results) :
    ((results.map Prod.snd).filter (· ∈ truth)).Subperm truth :=
  List.subperm_of_subset (h.nodup.filter _) fun _ hx => of_decide_eq_true (List.mem_filter.mp hx).2

end Counts

end Answers

section Run

open Concurrent

variable {dim : Nat}

def slotOf : Op dim → Option VectorSlot
  | .insert id vec metadata _ => some ⟨id, metadata, vec.1, false⟩
  | .delete _ => none

theorem runSlots_inserts {ops : List (Op dim)} (hops : ∀ op ∈ ops, op.isInsert = true) :
    runSlots ops = ops.filterMap slotOf := by
  induction ops using List.reverseRecOn with
  | nil => rfl
  | append_singleton ops op ih =>
    obtain ⟨hinit, hlast⟩ := List.forall_mem_append.mp hops
    rw [runSlots_concat, List.filterMap_append, ih hinit]
    cases op with
    | insert id vec metadata level => rfl
    | delete id => exact absurd (hlast _ (List.mem_singleton.mpr rfl)) nofun

theorem buildCalls_slots {train : Matrix dim} (hn : train.n < 2 ^ 31) (level : Nat → Nat) :
    (buildCalls train level).filterMap slotOf = (groundTruth train).vectors := by
  have hall : (List.finRange train.n).take (iterations train.n) = List.finRange train.n := by
    rw [iterations_eq hn, List.take_of_length_le (List.length_finRange (n := train.n)).le]
  rw [groundTruth_vectors, buildCalls, hall, List.filterMap_map]
  exact congrFun (List.filterMap_eq_map (f := trainSlot train)) _

variable {σ : Type} [LinearOrder σ] (rt : Runtime σ)

/-- A parallel loop that has come to its end without an undefined step: the calls of its iterations have begun, on
whatever threads and in whatever order, and have returned. -/
structure Built (train : Matrix dim) (level : Nat → Nat) (es : List (Nat × Action dim)) : Prop where
  defined : Machine.checkedRun rt benchConfig es = some (Machine.run rt benchConfig es)
  begun : ((Machine.begun rt benchConfig es).map Prod.snd).Perm (buildCalls train level)
  idle : ∀ t, ((Machine.run rt benchConfig es).threads t).call = none

variable {rt} {train : Matrix dim} {level : Nat → Nat} {es : List (Nat × Action dim)}

theorem Built.slots (h : Built rt train level es) (hn : train.n < 2 ^ 31) :
    (Machine.run rt benchConfig es).index.slots.Perm (groundTruth train).vectors := by
  have hperm : ((Machine.written rt benchConfig es).map Prod.snd).Perm (buildCalls train level) :=
    ((written_perm rt benchConfig es h.idle).map Prod.snd).trans h.begun
  have hinserts : ∀ op ∈ (Machine.written rt benchConfig es).map Prod.snd, op.isInsert = true := by
    intro op hop
    obtain ⟨i, -, rfl⟩ := List.mem_map.mp (hperm.mem_iff.mp hop)
    rfl
  rw [slots_written, runSlots_inserts hinserts, ← buildCalls_slots hn level]
  exact hperm.filterMap slotOf

theorem Built.inv (h : Built rt train level es) : (Machine.run rt benchConfig es).index.Inv :=
  inv_of_returned rt benchConfig es fun t _ hcall => nomatch (h.idle t).symm.trans hcall

end Run

end Cli

end NeuralDb
