import Mathlib.Algebra.Order.Group.Int
import Mathlib.Algebra.Order.Ring.Nat
import Mathlib.Tactic.Common

/-! Rounding integers to `p` significant bits, to the nearest and from a tie to the even significand. -/

namespace NeuralDb.Library

/-- Whether the multiple of `2 ^ k` above `n` is nearer than the one below, or as near and even. -/
def carry (k n : Nat) : Nat :=
  if 2 ^ k < 2 * (n % 2 ^ k) ∨ 2 * (n % 2 ^ k) = 2 ^ k ∧ n / 2 ^ k % 2 = 1 then 1 else 0

def roundAt (k n : Nat) : Nat := (n / 2 ^ k + carry k n) * 2 ^ k

/-- The bits of `n` beyond its first `p`. -/
def excess (p n : Nat) : Nat := n.log2 + 1 - p

def roundNat (p n : Nat) : Nat := roundAt (excess p n) n

def roundInt (p : Nat) (z : Int) : Int := if 0 ≤ z then roundNat p z.toNat else -roundNat p (-z).toNat

theorem carry_le_one (k n : Nat) : carry k n ≤ 1 := by
  unfold carry
  split_ifs
  · exact le_rfl
  · exact Nat.zero_le 1

theorem roundAt_zero (n : Nat) : roundAt 0 n = n := by
  simp [roundAt, carry, Nat.mod_one]

theorem roundAt_mul (k c : Nat) : roundAt k (c * 2 ^ k) = c * 2 ^ k := by
  have hpos : 0 < 2 ^ k := Nat.two_pow_pos k
  have hcarry : carry k (c * 2 ^ k) = 0 := by
    apply if_neg
    rw [Nat.mul_mod_left]
    omega
  rw [roundAt, hcarry, Nat.mul_div_cancel c hpos, Nat.add_zero]

theorem roundAt_two_pow {j k : Nat} (h : k ≤ j) : roundAt k (2 ^ j) = 2 ^ j := by
  obtain ⟨i, rfl⟩ := Nat.exists_eq_add_of_le' h
  rw [Nat.pow_add]
  exact roundAt_mul k _

/-- Rounding to the multiples of one power of two keeps the order. -/
theorem roundAt_mono (k : Nat) {m n : Nat} (h : m ≤ n) : roundAt k m ≤ roundAt k n := by
  apply Nat.mul_le_mul_right
  rcases (Nat.div_le_div_right (c := 2 ^ k) h).eq_or_lt with heq | hlt
  · have hmod : m % 2 ^ k ≤ n % 2 ^ k := by
      have hm := Nat.div_add_mod m (2 ^ k)
      have hn := Nat.div_add_mod n (2 ^ k)
      rw [heq] at hm
      omega
    rw [heq]
    apply Nat.add_le_add_left
    unfold carry
    rw [heq]
    split_ifs <;> omega
  · -- a multiple lies between the two
    have hup : m / 2 ^ k + carry k m ≤ m / 2 ^ k + 1 := Nat.add_le_add_left (carry_le_one k m) _
    exact (hup.trans hlt).trans (Nat.le_add_right _ _)

section Rounding

variable {p : Nat} (hp : 0 < p)

include hp

theorem excess_of_lt {n : Nat} (h : n < 2 ^ p) : excess p n = 0 := by
  rcases Nat.eq_zero_or_pos n with rfl | hn
  · rw [excess, Nat.log2_zero]
    omega
  · have hlog := (Nat.log2_lt hn.ne').mpr h
    rw [excess]
    omega

/-- A number of at most `p` bits is its own rounding. -/
theorem roundNat_of_lt {n : Nat} (h : n < 2 ^ p) : roundNat p n = n := by
  rw [roundNat, excess_of_lt hp h, roundAt_zero]

theorem roundNat_two_pow : roundNat p (2 ^ p) = 2 ^ p := by
  apply roundAt_two_pow
  rw [excess, Nat.log2_two_pow]
  omega

/-- Rounding keeps the order: a power of two stands between numbers of different lengths, and is its own
rounding for both. -/
theorem roundNat_mono {m n : Nat} (h : m ≤ n) : roundNat p m ≤ roundNat p n := by
  rcases Nat.eq_zero_or_pos m with rfl | hm
  · rw [roundNat_of_lt hp (Nat.two_pow_pos p)]
    exact Nat.zero_le _
  have hn : n ≠ 0 := (hm.trans_le h).ne'
  have hlow : 2 ^ n.log2 ≤ n := Nat.log2_self_le hn
  have hhigh : m < 2 ^ (m.log2 + 1) := (Nat.log2_lt hm.ne').mp (Nat.lt_succ_self _)
  have hlog : m.log2 ≤ n.log2 := Nat.le_of_lt_succ ((Nat.log2_lt hm.ne').mpr
    (h.trans_lt ((Nat.log2_lt hn).mp (Nat.lt_succ_self _))))
  have hlength : excess p m ≤ excess p n := Nat.sub_le_sub_right (Nat.succ_le_succ hlog) p
  rcases hlength.eq_or_lt with heq | hlt
  · rw [roundNat, heq]
    exact roundAt_mono _ h
  · have hmn : m.log2 < n.log2 := by
      unfold excess at hlt
      omega
    calc roundNat p m ≤ roundAt (excess p m) (2 ^ n.log2) :=
          roundAt_mono _ (hhigh.le.trans (Nat.pow_le_pow_right (by decide) hmn))
      _ = 2 ^ n.log2 := roundAt_two_pow (by unfold excess at hlt ⊢; omega)
      _ = roundAt (excess p n) (2 ^ n.log2) := (roundAt_two_pow (by unfold excess; omega)).symm
      _ ≤ roundNat p n := roundAt_mono _ hlow

theorem roundNat_of_le {n : Nat} (h : n ≤ 2 ^ p) : roundNat p n = n := by
  rcases h.eq_or_lt with rfl | hlt
  · exact roundNat_two_pow hp
  · exact roundNat_of_lt hp hlt

theorem roundInt_mono {a b : Int} (h : a ≤ b) : roundInt p a ≤ roundInt p b := by
  unfold roundInt
  split_ifs with ha hb hb
  · exact Int.ofNat_le.mpr (roundNat_mono hp (Int.toNat_le_toNat h))
  · exact absurd (ha.trans h) hb
  · have hleft : (0 : Int) ≤ roundNat p (-a).toNat := Int.natCast_nonneg _
    have hright : (0 : Int) ≤ roundNat p b.toNat := Int.natCast_nonneg _
    omega
  · have hmono := roundNat_mono hp (Int.toNat_le_toNat (Int.neg_le_neg h))
    omega

theorem roundInt_of_le {z : Int} (h : z.natAbs ≤ 2 ^ p) : roundInt p z = z := by
  unfold roundInt
  split_ifs with hz
  · rw [roundNat_of_le hp (by omega)]
    exact Int.toNat_of_nonneg hz
  · rw [roundNat_of_le hp (by omega)]
    omega

end Rounding

end NeuralDb.Library
