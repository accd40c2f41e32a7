import Mathlib.Algebra.BigOperators.Fin
import Mathlib.Tactic.Ring
import NeuralDb.Kernel
import NeuralDb.Library.Lanes

/-! The AVX2, NEON and scalar kernels in exact arithmetic: entries from a commutative ring in place of
floats, and the functions up to the sums that they take. -/

namespace NeuralDb.Simd

open Library Finset

variable {R : Type} [CommRing R]

/-! ### Vector units -/

/-- `_mm256_fmadd_ps`. -/
def fmadd (a b c : Lanes 8 R) : Lanes 8 R := fun j => a j * b j + c j

/-- `_mm256_castps256_ps128`. -/
def castps256 (v : Lanes 8 R) : Lanes 4 R := ![v 0, v 1, v 2, v 3]

/-- `_mm256_extractf128_ps(v, 1)`. -/
def extractf128 (v : Lanes 8 R) : Lanes 4 R := ![v 4, v 5, v 6, v 7]

def addPs (a b : Lanes 4 R) : Lanes 4 R := fun j => a j + b j

def movehdup (v : Lanes 4 R) : Lanes 4 R := ![v 1, v 1, v 3, v 3]

/-- The upper half of `b` below the upper half of `a`. -/
def movehl (a b : Lanes 4 R) : Lanes 4 R := ![b 2, b 3, a 2, a 3]

/-- The sum of the lowest lanes, over the other lanes of `a`. -/
def addSs (a b : Lanes 4 R) : Lanes 4 R := ![a 0 + b 0, a 1, a 2, a 3]

def hsum256 (v : Lanes 8 R) : R :=
  let lo := castps256 v
  let hi := extractf128 v
  let lo := addPs lo hi
  let shuf := movehdup lo
  let sums := addPs lo shuf
  let shuf := movehl shuf sums
  let sums := addSs sums shuf
  sums 0

/-- `vfmaq_f32`. -/
def vfmaq (acc a b : Lanes 4 R) : Lanes 4 R := fun j => acc j + a j * b j

/-- `vaddvq_f32`: the lanes are added in pairs. -/
def vaddvq (v : Lanes 4 R) : R := (v 0 + v 1) + (v 2 + v 3)

/-- What the kernels use of a vector unit: a multiply-add, lane by lane, and the sum over the lanes. -/
structure VectorUnit (R : Type) [CommRing R] where
  width : Nat
  madd : Lanes width R → Lanes width R → Lanes width R → Lanes width R
  hsum : Lanes width R → R
  width_pos : 0 < width
  madd_apply : ∀ acc a b j, madd acc a b j = acc j + a j * b j
  hsum_eq : ∀ v, hsum v = ∑ j, v j

theorem hsum256_eq (v : Lanes 8 R) : hsum256 v = ∑ j, v j := by
  have hpairs : hsum256 v = (v 0 + v 4) + (v 1 + v 5) + ((v 2 + v 6) + (v 3 + v 7)) := rfl
  rw [hpairs, Fin.sum_univ_eight]
  ring

theorem vaddvq_eq (v : Lanes 4 R) : vaddvq v = ∑ j, v j := by
  rw [vaddvq, Fin.sum_univ_four]
  ring

def avx2 : VectorUnit R where
  width := 8
  madd acc a b := fmadd a b acc
  hsum := hsum256
  width_pos := by decide
  madd_apply _ _ _ _ := add_comm _ _
  hsum_eq := hsum256_eq

def neon : VectorUnit R where
  width := 4
  madd := vfmaq
  hsum := vaddvq
  width_pos := by decide
  madd_apply _ _ _ _ := rfl
  hsum_eq := vaddvq_eq

/-! ### The kernels -/

/-- The accumulators of `cosine_similarity`. -/
structure Sums (A : Type) where
  dot : A
  normA : A
  normB : A
  deriving DecidableEq

/-- The body of the vector loop of `cosine_similarity`. -/
def cosineBlock (u : VectorUnit R) (a b : Ptr R) (i : Nat) (acc : Sums (Lanes u.width R)) :
    Option (Sums (Lanes u.width R)) := do
  let va ← loadu a u.width i
  let vb ← loadu b u.width i
  pure ⟨u.madd acc.dot va vb, u.madd acc.normA va va, u.madd acc.normB vb vb⟩

/-- The body of its scalar loop. -/
def cosineTail (a b : Ptr R) (i : Nat) (acc : Sums R) : Option (Sums R) := do
  let x ← a i
  let y ← b i
  pure ⟨acc.dot + x * y, acc.normA + x * x, acc.normB + y * y⟩

/-- The sums of `cosine_similarity` on a vector unit. -/
def cosineSums (u : VectorUnit R) (a b : Ptr R) (dim : Nat) : Option (Sums R) := do
  let (i, acc) ← strideLoop u.width dim (cosineBlock u a b) (dim + 1) 0 ⟨fun _ => 0, fun _ => 0, fun _ => 0⟩
  let (_, sums) ← strideLoop 1 dim (cosineTail a b) (dim + 1) i ⟨u.hsum acc.dot, u.hsum acc.normA, u.hsum acc.normB⟩
  pure sums

def l2Block (u : VectorUnit R) (a b : Ptr R) (i : Nat) (acc : Lanes u.width R) : Option (Lanes u.width R) := do
  let va ← loadu a u.width i
  let vb ← loadu b u.width i
  let diff : Lanes u.width R := fun j => va j - vb j
  pure (u.madd acc diff diff)

def l2Tail (a b : Ptr R) (i : Nat) (acc : R) : Option R := do
  let x ← a i
  let y ← b i
  let d := x - y
  pure (acc + d * d)

def l2Distance (u : VectorUnit R) (a b : Ptr R) (dim : Nat) : Option R := do
  let (i, acc) ← strideLoop u.width dim (l2Block u a b) (dim + 1) 0 fun _ => 0
  let (_, result) ← strideLoop 1 dim (l2Tail a b) (dim + 1) i (u.hsum acc)
  pure result

/-- `cosine_similarity_avx2` up to its sums, and so for the other kernels. -/
def cosineSumsAvx2 (a b : Ptr R) (dim : Nat) : Option (Sums R) := cosineSums avx2 a b dim

def l2DistanceAvx2 (a b : Ptr R) (dim : Nat) : Option R := l2Distance avx2 a b dim

/-- What the preprocessor tells of the machine: `__ARM_NEON`, `__AVX2__` or neither. -/
inductive Target where
  | arm | avx2 | other

/-- Without NEON these are the AVX2 kernels. -/
def cosineSumsNeon : Target → (a b : Ptr R) → (dim : Nat) → Option (Sums R)
  | .arm, a, b, dim => cosineSums neon a b dim
  | _, a, b, dim => cosineSumsAvx2 a b dim

def l2DistanceNeon : Target → (a b : Ptr R) → (dim : Nat) → Option R
  | .arm, a, b, dim => l2Distance neon a b dim
  | _, a, b, dim => l2DistanceAvx2 a b dim

def cosineSumsNaive (a b : Ptr R) (dim : Nat) : Option (Sums R) := do
  let (_, sums) ← strideLoop 1 dim (cosineTail a b) (dim + 1) 0 ⟨0, 0, 0⟩
  pure sums

def l2DistanceNaive (a b : Ptr R) (dim : Nat) : Option R := do
  let (_, result) ← strideLoop 1 dim (l2Tail a b) (dim + 1) 0 0
  pure result

/-! ### The sums -/

section Sums

variable {dim : Nat}

/-- The entry at `i`, zero behind the end. -/
def entry (v : Fin dim → R) (i : Nat) : R := if h : i < dim then v ⟨i, h⟩ else 0

/-- The sums over the entries below `i`. -/
def partialSums (a b : Fin dim → R) (i : Nat) : Sums R :=
  ⟨∑ x ∈ range i, entry a x * entry b x, ∑ x ∈ range i, entry a x * entry a x, ∑ x ∈ range i, entry b x * entry b x⟩

def partialL2 (a b : Fin dim → R) (i : Nat) : R :=
  ∑ x ∈ range i, (entry a x - entry b x) * (entry a x - entry b x)

theorem pointer_entry (v : Fin dim → R) {i : Nat} (h : i < dim) : pointer v i = some (entry v i) := by
  rw [pointer_some v h, entry, dif_pos h]

theorem loadu_entry (v : Fin dim → R) {w i : Nat} (h : i + w ≤ dim) :
    loadu (pointer v) w i = some fun j : Fin w => entry v (i + j) :=
  loadu_some fun j hj => pointer_entry v (by omega)

/-- The lanes of each accumulator add up to the sums below `i`. -/
def LaneSums (a b : Fin dim → R) {w : Nat} (i : Nat) (acc : Sums (Lanes w R)) : Prop :=
  (⟨∑ j, acc.dot j, ∑ j, acc.normA j, ∑ j, acc.normB j⟩ : Sums R) = partialSums a b i

variable (u : VectorUnit R) (a b : Fin dim → R)

theorem madd_sum {u : VectorUnit R} {i : Nat} {acc : Lanes u.width R} {f g : Nat → R}
    (h : ∑ j, acc j = ∑ x ∈ range i, f x * g x) :
    ∑ j, u.madd acc (fun j => f (i + j)) (fun j => g (i + j)) j = ∑ x ∈ range (i + u.width), f x * g x := by
  simp only [u.madd_apply]
  exact sum_lanes_step (t := fun x => f x * g x) h

theorem cosineBlock_step {i : Nat} {acc : Sums (Lanes u.width R)} (hi : i + u.width ≤ dim)
    (h : LaneSums a b i acc) :
    ∃ acc', cosineBlock u (pointer a) (pointer b) i acc = some acc' ∧ LaneSums a b (i + u.width) acc' := by
  obtain ⟨hdot, hA, hB⟩ := Sums.mk.inj h
  refine ⟨_, by rw [cosineBlock, loadu_entry a hi, loadu_entry b hi]; rfl, ?_⟩
  rw [LaneSums, partialSums, madd_sum hdot, madd_sum hA, madd_sum hB]

theorem cosineTail_step {i : Nat} (hi : i < dim) :
    cosineTail (pointer a) (pointer b) i (partialSums a b i) = some (partialSums a b (i + 1)) := by
  rw [cosineTail, pointer_entry a hi, pointer_entry b hi, partialSums, partialSums, sum_range_succ, sum_range_succ,
    sum_range_succ]
  rfl

theorem l2Block_step {i : Nat} {acc : Lanes u.width R} (hi : i + u.width ≤ dim) (h : ∑ j, acc j = partialL2 a b i) :
    ∃ acc', l2Block u (pointer a) (pointer b) i acc = some acc' ∧ ∑ j, acc' j = partialL2 a b (i + u.width) := by
  refine ⟨_, by rw [l2Block, loadu_entry a hi, loadu_entry b hi]; rfl, ?_⟩
  exact madd_sum (f := fun x => entry a x - entry b x) h

theorem l2Tail_step {i : Nat} (hi : i < dim) :
    l2Tail (pointer a) (pointer b) i (partialL2 a b i) = some (partialL2 a b (i + 1)) := by
  rw [l2Tail, pointer_entry a hi, pointer_entry b hi, partialL2, partialL2, sum_range_succ]
  rfl

theorem cosineTail_loop {i : Nat} (hi : i ≤ dim) :
    strideLoop 1 dim (cosineTail (pointer a) (pointer b)) (dim + 1) i (partialSums a b i) =
      some (dim, partialSums a b dim) :=
  strideLoop_one (partialSums a b) (fun _ hi => cosineTail_step a b hi) hi

theorem l2Tail_loop {i : Nat} (hi : i ≤ dim) :
    strideLoop 1 dim (l2Tail (pointer a) (pointer b)) (dim + 1) i (partialL2 a b i) =
      some (dim, partialL2 a b dim) :=
  strideLoop_one (partialL2 a b) (fun _ hi => l2Tail_step a b hi) hi

/-- On any vector unit the blocks and the tail together take each entry once. -/
theorem cosineSums_eq : cosineSums u (pointer a) (pointer b) dim = some (partialSums a b dim) := by
  have hzero : LaneSums a b 0 (⟨fun _ => 0, fun _ => 0, fun _ => 0⟩ : Sums (Lanes u.width R)) := by
    simp [LaneSums, partialSums]
  obtain ⟨i, acc, hloop, hlanes, hi, -⟩ := strideLoop_spec (P := LaneSums a b) u.width_pos
    (fun i acc hi h => cosineBlock_step u a b hi h) (Nat.zero_le dim) (show dim < 0 + (dim + 1) by omega) hzero
  have hreduced : (⟨u.hsum acc.dot, u.hsum acc.normA, u.hsum acc.normB⟩ : Sums R) = partialSums a b i := by
    rw [u.hsum_eq, u.hsum_eq, u.hsum_eq]
    exact hlanes
  rw [cosineSums, hloop]
  change (strideLoop 1 dim _ (dim + 1) i (⟨_, _, _⟩ : Sums R) >>= _) = _
  rw [hreduced, cosineTail_loop a b hi]
  rfl

theorem l2Distance_eq : l2Distance u (pointer a) (pointer b) dim = some (partialL2 a b dim) := by
  have hzero : ∑ j, (fun _ => 0 : Lanes u.width R) j = partialL2 a b 0 := by simp [partialL2]
  obtain ⟨i, acc, hloop, hlanes, hi, -⟩ := strideLoop_spec (P := fun i (acc : Lanes u.width R) => ∑ j, acc j = partialL2 a b i)
    u.width_pos (fun i acc hi h => l2Block_step u a b hi h) (Nat.zero_le dim) (show dim < 0 + (dim + 1) by omega) hzero
  rw [l2Distance, hloop]
  change (strideLoop 1 dim _ (dim + 1) i (u.hsum acc) >>= _) = _
  rw [u.hsum_eq, hlanes, l2Tail_loop a b hi]
  rfl

theorem cosineSumsNaive_eq : cosineSumsNaive (pointer a) (pointer b) dim = some (partialSums a b dim) := by
  have hzero : (⟨0, 0, 0⟩ : Sums R) = partialSums a b 0 := rfl
  rw [cosineSumsNaive, hzero, cosineTail_loop a b (Nat.zero_le dim)]
  rfl

theorem l2DistanceNaive_eq : l2DistanceNaive (pointer a) (pointer b) dim = some (partialL2 a b dim) := by
  have hzero : (0 : R) = partialL2 a b 0 := rfl
  rw [l2DistanceNaive, hzero, l2Tail_loop a b (Nat.zero_le dim)]
  rfl

theorem sum_entry (f : R → R → R) : ∑ x ∈ range dim, f (entry a x) (entry b x) = ∑ x, f (a x) (b x) := by
  rw [sum_range]
  refine sum_congr rfl fun x _ => ?_
  simp [entry]

/-- All kernels take the same sums, over all entries and no others, on every machine. -/
theorem kernels_agree (target : Target) :
    (cosineSumsNaive (pointer a) (pointer b) dim = some ⟨∑ x, a x * b x, ∑ x, a x * a x, ∑ x, b x * b x⟩ ∧
      cosineSumsAvx2 (pointer a) (pointer b) dim = cosineSumsNaive (pointer a) (pointer b) dim ∧
      cosineSumsNeon target (pointer a) (pointer b) dim = cosineSumsNaive (pointer a) (pointer b) dim) ∧
    (l2DistanceNaive (pointer a) (pointer b) dim = some (∑ x, (a x - b x) * (a x - b x)) ∧
      l2DistanceAvx2 (pointer a) (pointer b) dim = l2DistanceNaive (pointer a) (pointer b) dim ∧
      l2DistanceNeon target (pointer a) (pointer b) dim = l2DistanceNaive (pointer a) (pointer b) dim) := by
  have hcosine : partialSums a b dim = ⟨∑ x, a x * b x, ∑ x, a x * a x, ∑ x, b x * b x⟩ := by
    rw [partialSums, sum_entry a b fun x y => x * y, sum_entry a a fun x y => x * y, sum_entry b b fun x y => x * y]
  have hl2 : partialL2 a b dim = ∑ x, (a x - b x) * (a x - b x) := sum_entry a b fun x y => (x - y) * (x - y)
  rw [cosineSumsNaive_eq, l2DistanceNaive_eq, ← hcosine, ← hl2]
  refine ⟨⟨rfl, cosineSums_eq avx2 a b, ?_⟩, rfl, l2Distance_eq avx2 a b, ?_⟩
  · cases target with
    | arm => exact cosineSums_eq neon a b
    | avx2 => exact cosineSums_eq avx2 a b
    | other => exact cosineSums_eq avx2 a b
  · cases target with
    | arm => exact l2Distance_eq neon a b
    | avx2 => exact l2Distance_eq avx2 a b
    | other => exact l2Distance_eq avx2 a b

end Sums

section Words

variable {dim : Nat}

/-- The numbers that the words of a vector stand for. -/
def values (v : VecOf dim) : Fin dim → ℚ := fun x => floatValue (v.val.get (x.cast v.2.symm))

theorem dot_eq_sum (a b : VecOf dim) : dot a b = ∑ x, values a x * values b x := by
  have hlist : List.zipWith (fun x y => floatValue x * floatValue y) a.val b.val =
      List.ofFn fun x => values a x * values b x := by
    apply List.ext_getElem
    · simp [a.2, b.2]
    · intro i h₁ h₂
      simp [values]
  rw [dot, hlist, List.sum_ofFn]

/-- The sums that the ranking of the indexes rests on are those of the AVX2 kernel. -/
theorem cosineSumsAvx2_dot (a b : VecOf dim) :
    cosineSumsAvx2 (pointer (values a)) (pointer (values b)) dim = some ⟨dot a b, dot a a, dot b b⟩ := by
  rw [cosineSumsAvx2, cosineSums_eq, dot_eq_sum, dot_eq_sum, dot_eq_sum, partialSums, sum_entry _ _ fun x y => x * y,
    sum_entry _ _ fun x y => x * y, sum_entry _ _ fun x y => x * y]

end Words

end NeuralDb.Simd
