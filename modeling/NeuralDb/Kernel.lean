import NeuralDb.Runtime
import Mathlib.Algebra.Order.Field.Rat
import Mathlib.Analysis.Real.Sqrt

/-! The cosine kernel without the rounding of its sums, and a runtime that ranks as it does. -/

namespace NeuralDb

/-- The number that the bits of a finite `float` stand for. -/
def floatValue (w : Word) : ℚ :=
  let mantissa : Nat := w.toNat % 2 ^ 23
  let exponent : Nat := w.toNat / 2 ^ 23 % 2 ^ 8
  let magnitude : ℚ :=
    -- exponent zero is for the subnormal numbers, which have no leading bit
    if exponent = 0 then (mantissa : ℚ) / 2 ^ 149
    else (((2 ^ 23 + mantissa) * 2 ^ exponent : Nat) : ℚ) / 2 ^ 150
  if w.toNat / 2 ^ 31 = 1 then -magnitude else magnitude

def dot (a b : Vec) : ℚ := (List.zipWith (fun x y => floatValue x * floatValue y) a b).sum

noncomputable def cosineSimilarityAvx2 (a b : Vec) : ℝ :=
  let denom := √(dot a a) * √(dot b b)
  if denom < 1 / 10 ^ 12 then 0 else dot a b / denom

/-- The square of the cosine with the sign of the cosine, a rational number. -/
def signedSquare (a b : Vec) : ℚ :=
  if dot a a * dot b b < 1 / 10 ^ 24 then 0 else dot a b * |dot a b| / (dot a a * dot b b)

theorem dot_self_nonneg (a : Vec) : 0 ≤ dot a a := by
  apply List.sum_nonneg
  intro x hx
  obtain ⟨i, hi, rfl⟩ := List.mem_iff_getElem.mp hx
  rw [List.getElem_zipWith]
  exact mul_self_nonneg _

theorem signedSquare_eq (a b : Vec) :
    (signedSquare a b : ℝ) = cosineSimilarityAvx2 a b * |cosineSimilarityAvx2 a b| := by
  have ha : (0 : ℝ) ≤ dot a a := by exact_mod_cast dot_self_nonneg a
  have hb : (0 : ℝ) ≤ dot b b := by exact_mod_cast dot_self_nonneg b
  let denom := √(dot a a) * √(dot b b)
  have hnonneg : 0 ≤ denom := mul_nonneg (Real.sqrt_nonneg _) (Real.sqrt_nonneg _)
  have hsquare : denom * denom = dot a a * dot b b := by
    calc denom * denom = (√(dot a a) * √(dot a a)) * (√(dot b b) * √(dot b b)) := by ring
      _ = dot a a * dot b b := by rw [Real.mul_self_sqrt ha, Real.mul_self_sqrt hb]
  -- both guards reject the same pairs
  have hguard : denom < 1 / 10 ^ 12 ↔ dot a a * dot b b < 1 / 10 ^ 24 := by
    have hlt : denom < 1 / 10 ^ 12 ↔ denom * denom < 1 / 10 ^ 12 * (1 / 10 ^ 12) :=
      mul_self_lt_mul_self_iff hnonneg (by positivity)
    rw [hlt, hsquare, ← Rat.cast_lt (K := ℝ)]
    push_cast
    norm_num
  unfold signedSquare cosineSimilarityAvx2
  change _ = (if denom < _ then _ else _) * |if denom < _ then _ else _|
  by_cases hsmall : denom < 1 / 10 ^ 12
  · rw [if_pos (hguard.mp hsmall), if_pos hsmall]
    simp
  · rw [if_neg fun h => hsmall (hguard.mpr h), if_neg hsmall, abs_div, abs_of_nonneg hnonneg,
      div_mul_div_comm, hsquare]
    push_cast
    rfl

theorem mul_abs_le_mul_abs_iff (x y : ℝ) : x * |x| ≤ y * |y| ↔ x ≤ y := by
  have hmono : StrictMono fun z : ℝ => z * |z| := by
    intro u v huv
    rcases le_total 0 u with hu | hu
    · simp only [abs_of_nonneg hu, abs_of_nonneg (hu.trans huv.le)]
      exact mul_self_lt_mul_self hu huv
    · rcases le_total 0 v with hv | hv
      · simp only [abs_of_nonpos hu, abs_of_nonneg hv]
        rcases hu.eq_or_lt with rfl | hneg
        · rw [zero_mul]
          exact mul_pos huv huv
        · exact (mul_neg_of_neg_of_pos hneg (neg_pos.mpr hneg)).trans_le (mul_self_nonneg v)
      · simp only [abs_of_nonpos hu, abs_of_nonpos hv]
        nlinarith
  exact hmono.le_iff_le

/-- The signed square ranks vectors as the cosine does. -/
theorem signedSquare_le_iff (a b c d : Vec) :
    signedSquare a b ≤ signedSquare c d ↔ cosineSimilarityAvx2 a b ≤ cosineSimilarityAvx2 c d := by
  rw [← mul_abs_le_mul_abs_iff, ← signedSquare_eq, ← signedSquare_eq]
  exact Rat.cast_le.symm

/-- A runtime with the order of the cosine. -/
def Runtime.cosine : Runtime ℚ := .insertion signedSquare

end NeuralDb
