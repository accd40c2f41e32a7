import Mathlib.Algebra.Order.Ring.Int
import Mathlib.Data.List.Sort
import Mathlib.Order.WithBot
import Mathlib.Tactic.Common

/-! Bits packed into words of `w` bits, set one after the other. -/

namespace NeuralDb.Library

/-- Bit `i` of the packed words, shifted down and masked. -/
def getBit (w : Nat) (words : List Nat) (i : Nat) : Bool := (words.getD (i / w) 0).testBit (i % w)

def setBit (w : Nat) (words : List Nat) (i : Nat) : List Nat :=
  words.modify (i / w) fun word => word ||| 1 <<< (i % w)

/-- The loop that sets the bits among `bit 0`, …, `bit (n - 1)` that hold. -/
def packLoop (w : Nat) (bit : Nat → Bool) (words : List Nat) : Nat → List Nat
  | 0 => words
  | n + 1 =>
    if bit n then setBit w (packLoop w bit words n) n else packLoop w bit words n

def packBits (w n : Nat) (bit : Nat → Bool) : List Nat :=
  packLoop w bit (List.replicate ((n + (w - 1)) / w) 0) n

theorem div_mod_inj {w i j : Nat} : i = j ↔ i / w = j / w ∧ i % w = j % w := by
  constructor
  · rintro rfl
    exact ⟨rfl, rfl⟩
  · rintro ⟨hq, hr⟩
    rw [← Nat.div_add_mod i w, ← Nat.div_add_mod j w, hq, hr]

theorem getBit_setBit {w : Nat} {words : List Nat} {i : Nat} (hi : i / w < words.length) (j : Nat) :
    getBit w (setBit w words i) j = (decide (i = j) || getBit w words j) := by
  simp only [getBit, setBit, List.getD_eq_getElem?_getD, List.getElem?_modify]
  by_cases hq : i / w = j / w
  · have hget : words[j / w]? = some words[i / w] := by
      rw [← hq]
      exact List.getElem?_eq_getElem hi
    simp only [hget, Option.map_eq_map, Option.map_some, Option.getD_some, if_pos hq,
      Nat.testBit_or, Nat.one_shiftLeft, Nat.testBit_two_pow]
    have hbit : decide (i % w = j % w) = decide (i = j) :=
      decide_eq_decide.mpr ⟨fun hr => div_mod_inj.mpr ⟨hq, hr⟩, fun h => (div_mod_inj.mp h).2⟩
    rw [Bool.or_comm, hbit]
  · have hne : i ≠ j := fun h => hq (div_mod_inj.mp h).1
    simp [hq, hne]

@[simp] theorem setBit_length (w : Nat) (words : List Nat) (i : Nat) :
    (setBit w words i).length = words.length := List.length_modify _ _ _

theorem packLoop_length (w : Nat) (bit : Nat → Bool) (words : List Nat) (n : Nat) :
    (packLoop w bit words n).length = words.length := by
  induction n with
  | zero => rfl
  | succ n ih =>
    rw [packLoop]
    split_ifs
    · rw [setBit_length, ih]
    · exact ih

theorem getBit_packLoop {w : Nat} (bit : Nat → Bool) {words : List Nat} {n : Nat}
    (hroom : ∀ i < n, i / w < words.length) (j : Nat) :
    getBit w (packLoop w bit words n) j = (decide (j < n) && bit j || getBit w words j) := by
  induction n with
  | zero => simp [packLoop]
  | succ n ih =>
    have ih := ih fun i hi => hroom i (Nat.lt_succ_of_lt hi)
    rw [packLoop]
    split_ifs with hb
    · rw [getBit_setBit (by rw [packLoop_length]; exact hroom n (Nat.lt_succ_self n)), ih]
      by_cases hj : n = j
      · subst hj
        simp [hb]
      · simp only [hj, decide_false, Bool.false_or, show (j < n + 1) = (j < n) by grind]
    · rw [ih]
      by_cases hj : n = j
      · subst hj
        simp [hb]
      · simp only [show (j < n + 1) = (j < n) by grind]

theorem packBits_length (w n : Nat) (bit : Nat → Bool) :
    (packBits w n bit).length = (n + (w - 1)) / w := by
  rw [packBits, packLoop_length, List.length_replicate]

theorem getBit_replicate_zero (w n j : Nat) : getBit w (List.replicate n 0) j = false := by
  have hzero : (List.replicate n 0).getD (j / w) 0 = 0 := by
    simp only [List.getD_eq_getElem?_getD, List.getElem?_replicate]
    split_ifs <;> rfl
  rw [getBit, hzero, Nat.zero_testBit]

theorem div_lt_words {w n i : Nat} (hw : 0 < w) (hi : i < n) : i / w < (n + (w - 1)) / w := by
  rw [Nat.lt_iff_add_one_le, Nat.le_div_iff_mul_le hw, Nat.succ_mul]
  have := Nat.div_mul_le_self i w
  omega

theorem getBit_packBits {w n : Nat} (hw : 0 < w) (bit : Nat → Bool) (j : Nat) :
    getBit w (packBits w n bit) j = (decide (j < n) && bit j) := by
  rw [packBits, getBit_packLoop, getBit_replicate_zero, Bool.or_false]
  intro i hi
  rw [List.length_replicate]
  exact div_lt_words hw hi

/-- Cutting every word to `w` bits loses none of the packed bits. -/
theorem getBit_map_mod {w : Nat} (hw : 0 < w) (words : List Nat) (i : Nat) :
    getBit w (words.map (· % 2 ^ w)) i = getBit w words i := by
  have hget : (words.map (· % 2 ^ w)).getD (i / w) 0 = words.getD (i / w) 0 % 2 ^ w := by
    simp only [List.getD_eq_getElem?_getD, List.getElem?_map]
    cases words[i / w]? <;> simp
  rw [getBit, hget, Nat.testBit_mod_two_pow, decide_eq_true (Nat.mod_lt i hw), Bool.true_and, getBit]

/-- Words of `w` bits are told apart by their bits. -/
theorem words_ext {w : Nat} {words words' : List Nat} (hlen : words.length = words'.length)
    (h : ∀ x ∈ words, x < 2 ^ w) (h' : ∀ x ∈ words', x < 2 ^ w) (hbits : ∀ i, getBit w words i = getBit w words' i) :
    words = words' := by
  refine List.ext_getElem hlen fun j hj hj' => Nat.eq_of_testBit_eq fun b => ?_
  rcases Nat.lt_or_ge b w with hb | hb
  · have hbit := hbits (w * j + b)
    have hdiv : (w * j + b) / w = j := by
      rw [Nat.mul_add_div (Nat.zero_lt_of_lt hb), Nat.div_eq_of_lt hb, Nat.add_zero]
    have hmod : (w * j + b) % w = b := by rw [Nat.mul_add_mod, Nat.mod_eq_of_lt hb]
    simpa [getBit, hdiv, hmod, hj, hj'] using hbit
  · have hhigh : ∀ {x : Nat}, x < 2 ^ w → x.testBit b = false :=
      fun hx => Nat.testBit_lt_two_pow (hx.trans_le (Nat.pow_le_pow_right (by decide) hb))
    rw [hhigh (h _ (List.getElem_mem hj)), hhigh (h' _ (List.getElem_mem hj'))]

end NeuralDb.Library
