import Mathlib.Algebra.Order.Ring.Cast
import NeuralDb.Filter.Compare

/-! Filters on 64-bit integers. Both sides are compared as `double`, which has room for 53 bits. -/

namespace NeuralDb

open Library

/-- The values that hold the integer `z`; a parsed number that is not negative is unsigned. -/
inductive Json.IsInteger : Json → Int64 → Prop
  | integer (z : Int64) : IsInteger (.integer z) z
  | unsigned (u : UInt64) (z : Int64) (h : (u.toNat : Int) = z.toInt) : IsInteger (.unsigned u) z

/-- Two integers that are one `double`. -/
def Collides (a b : Int64) : Prop := a ≠ b ∧ toDouble a.toInt = toDouble b.toInt

theorem toDouble_mono {a b : Int} (h : a ≤ b) : toDouble a ≤ toDouble b := roundInt_mono (by decide) h

theorem toDouble_of_le {z : Int} (h : z.natAbs ≤ 2 ^ 53) : toDouble z = z := roundInt_of_le (by decide) h

/-- Integers of at most 53 bits are `double`s themselves. -/
theorem not_collides {a b : Int64} (ha : a.toInt.natAbs ≤ 2 ^ 53) (hb : b.toInt.natAbs ≤ 2 ^ 53) :
    ¬ Collides a b := by
  rintro ⟨hne, heq⟩
  rw [toDouble_of_le ha, toDouble_of_le hb] at heq
  exact hne (Int64.toInt_inj.mp heq)

section Rounded

variable {a b : Int64}

theorem Collides.symm (h : Collides a b) : Collides b a := ⟨h.1.symm, h.2.symm⟩

theorem toDouble_eq_iff : toDouble a.toInt = toDouble b.toInt ↔ a = b ∨ Collides a b := by
  constructor
  · intro heq
    by_cases hab : a = b
    · exact .inl hab
    · exact .inr ⟨hab, heq⟩
  · rintro (rfl | h)
    · rfl
    · exact h.2

theorem toDouble_lt_iff : toDouble a.toInt < toDouble b.toInt ↔ a < b ∧ ¬ Collides a b := by
  rw [Int64.lt_iff_toInt_lt]
  constructor
  · intro hlt
    have hab : a.toInt < b.toInt := lt_of_not_ge fun hge => absurd (toDouble_mono hge) (not_le.mpr hlt)
    exact ⟨hab, fun h => hlt.ne h.2⟩
  · rintro ⟨hab, hnot⟩
    apply lt_of_le_of_ne (toDouble_mono hab.le)
    intro heq
    exact hnot ⟨fun he => hab.ne (congrArg Int64.toInt he), heq⟩

end Rounded

namespace JsonLib

variable (lib : JsonLib) {a b : Int64} {ja jb : Json}

theorem number_of_isInteger (h : ja.IsInteger a) : ja.number? = some (toDouble a.toInt : Rat) := by
  cases h with
  | integer => rfl
  | unsigned u _ h => rw [Json.number?, h]

theorem jsonCompare_integers (ha : ja.IsInteger a) (hb : jb.IsInteger b) :
    lib.jsonCompare ja jb = threeWay (toDouble a.toInt) (toDouble b.toInt) := by
  rw [lib.jsonCompare_numbers (number_of_isInteger ha) (number_of_isInteger hb)]
  unfold threeWay
  simp only [Int.cast_lt]

/-- The six comparisons of `ja` with `jb`, against the comparisons of the integers. -/
theorem applyOp_integers (ha : ja.IsInteger a) (hb : jb.IsInteger b) :
    (lib.applyOp ja .eq jb = true ↔ a = b ∨ Collides a b) ∧
    (lib.applyOp ja .ne jb = true ↔ a ≠ b ∧ ¬ Collides a b) ∧
    (lib.applyOp ja .gt jb = true ↔ b < a ∧ ¬ Collides a b) ∧
    (lib.applyOp ja .gte jb = true ↔ b ≤ a ∨ Collides a b) ∧
    (lib.applyOp ja .lt jb = true ↔ a < b ∧ ¬ Collides a b) ∧
    (lib.applyOp ja .lte jb = true ↔ a ≤ b ∨ Collides a b) := by
  have hcompare := lib.jsonCompare_integers ha hb
  have hswap : Collides b a ↔ Collides a b := ⟨Collides.symm, Collides.symm⟩
  have hle : ∀ {x y : Int64}, ¬ (y < x ∧ ¬ Collides x y) ↔ x ≤ y ∨ Collides x y := by
    intro x y
    rw [not_and_or, Int64.not_lt, not_not]
  refine ⟨?_, ?_, ?_, ?_, ?_, ?_⟩
  · rw [applyOp, decide_eq_true_iff, hcompare, threeWay_eq_zero_iff, toDouble_eq_iff]
  · rw [applyOp, decide_eq_true_iff, hcompare, ne_eq, threeWay_eq_zero_iff, toDouble_eq_iff, not_or]
  · rw [applyOp, decide_eq_true_iff, hcompare, threeWay_pos_iff, toDouble_lt_iff, hswap]
  · rw [applyOp, decide_eq_true_iff, hcompare, threeWay_nonneg_iff, ← not_lt, toDouble_lt_iff, ← hswap, ← hle, hswap]
  · rw [applyOp, decide_eq_true_iff, hcompare, threeWay_neg_iff, toDouble_lt_iff]
  · rw [applyOp, decide_eq_true_iff, hcompare, threeWay_nonpos_iff, ← not_lt, toDouble_lt_iff, hswap, hle]

theorem satisfies_in_integers {metadata : Bytes} {field : String}
    (hm : lib.parse metadata = some (.object [(field, ja)])) (ha : ja.IsInteger a) {elems : List Json}
    {ints : List Int64} (helems : List.Forall₂ Json.IsInteger elems ints) :
    lib.satisfies metadata field "$in" (.array elems) = true ↔ ∃ e ∈ ints, a = e ∨ Collides a e := by
  rw [lib.satisfies_in]
  simp only [lib.satisfies_single hm lookup_eq]
  induction helems with
  | nil => simp
  | cons hb _ ih =>
    rw [List.any_cons, Bool.or_eq_true, ih, (lib.applyOp_integers ha hb).1]
    simp only [List.mem_cons, exists_eq_or_imp]

theorem or_iff_left_iff {p c : Prop} : (p ∨ c ↔ p) ↔ ¬ (c ∧ ¬ p) := by
  rw [or_iff_left_iff_imp, not_and, not_not]

theorem and_not_iff_left_iff {p c : Prop} : (p ∧ ¬ c ↔ p) ↔ ¬ (c ∧ p) := by
  rw [and_iff_left_iff_imp, not_and, imp_not_comm]

/-- A filter on integers is exact when the two sides are equal or two different `double`s. If they are one
`double`, `$eq` and `$ne` are wrong, and of the others those are that the equality makes wrong. -/
theorem integer_filters_iff {metadata : Bytes} {field : String}
    (hm : lib.parse metadata = some (.object [(field, ja)])) (ha : ja.IsInteger a) (hb : jb.IsInteger b) :
    ((lib.satisfies metadata field "$eq" jb = true ↔ a = b) ↔ ¬ Collides a b) ∧
    ((lib.satisfies metadata field "$ne" jb = true ↔ a ≠ b) ↔ ¬ Collides a b) ∧
    ((lib.satisfies metadata field "$gt" jb = true ↔ b < a) ↔ ¬ (Collides a b ∧ b < a)) ∧
    ((lib.satisfies metadata field "$gte" jb = true ↔ b ≤ a) ↔ ¬ (Collides a b ∧ a < b)) ∧
    ((lib.satisfies metadata field "$lt" jb = true ↔ a < b) ↔ ¬ (Collides a b ∧ a < b)) ∧
    ((lib.satisfies metadata field "$lte" jb = true ↔ a ≤ b) ↔ ¬ (Collides a b ∧ b < a)) ∧
    ∀ elems ints, List.Forall₂ Json.IsInteger elems ints →
      ((lib.satisfies metadata field "$in" (.array elems) = true ↔ a ∈ ints) ↔
        a ∈ ints ∨ ∀ e ∈ ints, ¬ Collides a e) := by
  have hne : opMap.lookup "$ne" = some .ne := rfl
  have hgt : opMap.lookup "$gt" = some .gt := rfl
  have hgte : opMap.lookup "$gte" = some .gte := rfl
  have hlt : opMap.lookup "$lt" = some .lt := rfl
  have hlte : opMap.lookup "$lte" = some .lte := rfl
  obtain ⟨heqOp, hneOp, hgtOp, hgteOp, hltOp, hlteOp⟩ := lib.applyOp_integers ha hb
  have hdiffer : Collides a b ∧ a ≠ b ↔ Collides a b := and_iff_left_of_imp And.left
  refine ⟨?_, ?_, ?_, ?_, ?_, ?_, fun elems ints helems => ?_⟩
  · rw [lib.satisfies_single hm lookup_eq, heqOp, or_iff_left_iff, ← ne_eq, hdiffer]
  · rw [lib.satisfies_single hm hne, hneOp, and_not_iff_left_iff, hdiffer]
  · rw [lib.satisfies_single hm hgt, hgtOp, and_not_iff_left_iff]
  · rw [lib.satisfies_single hm hgte, hgteOp, or_iff_left_iff, Int64.not_le]
  · rw [lib.satisfies_single hm hlt, hltOp, and_not_iff_left_iff]
  · rw [lib.satisfies_single hm hlte, hlteOp, or_iff_left_iff, Int64.not_le]
  · rw [lib.satisfies_in_integers hm ha helems]
    by_cases hin : a ∈ ints
    · exact iff_of_true (iff_of_true ⟨a, hin, .inl rfl⟩ hin) (.inl hin)
    · rw [iff_false_right hin, or_iff_right hin]
      constructor
      · exact fun hnot e he hc => hnot ⟨e, he, .inr hc⟩
      · rintro hnot ⟨e, he, rfl | hc⟩
        · exact hin he
        · exact hnot e he hc

def countLib (text : String) (a : Int64) : JsonLib := sample [(flagText text, .object [("f", .integer a)])]

theorem integer_filters_small :
    ((countLib "2022" 2022).satisfies (flagText "2022") "f" "$gte" (.integer 2020) = true ↔
      (2020 : Int64) ≤ 2022) := by
  have hm : (countLib "2022" 2022).parse (flagText "2022") = some (.object [("f", .integer 2022)]) :=
    List.lookup_cons_self
  have hnot : ¬ Collides 2022 2020 := not_collides (by decide) (by decide)
  have hgte := ((countLib "2022" 2022).integer_filters_iff hm (.integer 2022) (.integer 2020)).2.2.2.1
  exact hgte.mpr fun h => hnot h.1

/-- 2^53 + 1 passes for 2^53. -/
theorem integer_filters_wrong :
    let lib := countLib "9007199254740993" 9007199254740993
    lib.satisfies (flagText "9007199254740993") "f" "$eq" (.integer 9007199254740992) = true ∧
    lib.satisfies (flagText "9007199254740993") "f" "$gt" (.integer 9007199254740992) = false ∧
    lib.satisfies (flagText "9007199254740993") "f" "$in" (.array [.integer 9007199254740992]) = true ∧
    (9007199254740993 : Int64) ≠ 9007199254740992 := by
  decide +kernel

end JsonLib

end NeuralDb
