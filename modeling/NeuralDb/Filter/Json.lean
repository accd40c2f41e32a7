import Mathlib.Algebra.Order.Ring.Rat
import Mathlib.Data.List.AList
import Mathlib.Data.String.Basic
import NeuralDb.Library.Rounding
import NeuralDb.Runtime

/-! JSON values as metadata and filters see them, and the comparison of two of them. -/

namespace NeuralDb

open Library

/-- A finite `double`, the numbers that JSON can write. -/
structure Double where
  bits : UInt64
  finite : bits.toNat / 2 ^ 52 % 2 ^ 11 ≠ 2047

def Double.value (d : Double) : Rat :=
  let exponent : Nat := d.bits.toNat / 2 ^ 52 % 2 ^ 11
  let fraction : Nat := d.bits.toNat % 2 ^ 52
  let significand : Nat := if exponent = 0 then fraction else 2 ^ 52 + fraction
  let magnitude : Rat := significand * 2 ^ max 1 exponent / 2 ^ 1075
  if d.bits.toNat < 2 ^ 63 then magnitude else -magnitude

/-- The value types of `nlohmann::json`. Strings are UTF-8, whose bytes are ordered as the characters are. -/
inductive Json where
  | null
  | bool (b : Bool)
  | integer (i : Int64)
  | unsigned (u : UInt64)
  | float (d : Double)
  | string (s : String)
  | array (elems : List Json)
  | object (fields : List (String × Json))

/-- The parser and the printer of the library. -/
structure JsonLib where
  parse : Bytes → Option Json
  dump : Json → String

/-- The conversion of an integer to `double`. -/
def toDouble (z : Int) : Int := roundInt 53 z

/-- `get<double>`, for the values that are numbers. -/
def Json.number? : Json → Option Rat
  | .integer i => some (toDouble i.toInt)
  | .unsigned u => some (toDouble u.toNat)
  | .float d => some d.value
  | _ => none

def Json.string? : Json → Option String
  | .string s => some s
  | _ => none

def threeWay {τ : Type} [LinearOrder τ] (a b : τ) : Int := if a < b then -1 else if b < a then 1 else 0

inductive FilterOp where
  | eq | ne | gt | gte | lt | lte | isIn | nin
  deriving DecidableEq, Repr

structure FieldFilter where
  op : FilterOp
  value : Json

namespace JsonLib

variable (lib : JsonLib)

def jsonCompare (fieldVal filterVal : Json) : Int :=
  match fieldVal.number?, filterVal.number? with
  | some a, some b => threeWay a b
  | _, _ =>
    match fieldVal.string?, filterVal.string? with
    | some a, some b => threeWay a b
    | _, _ => if lib.dump fieldVal = lib.dump filterVal then 0 else -1

def applyOp (fieldVal : Json) (op : FilterOp) (filterVal : Json) : Bool :=
  match op with
  | .eq => lib.jsonCompare fieldVal filterVal = 0
  | .ne => lib.jsonCompare fieldVal filterVal ≠ 0
  | .gt => 0 < lib.jsonCompare fieldVal filterVal
  | .gte => 0 ≤ lib.jsonCompare fieldVal filterVal
  | .lt => lib.jsonCompare fieldVal filterVal < 0
  | .lte => lib.jsonCompare fieldVal filterVal ≤ 0
  | .isIn =>
    match filterVal with
    | .array elems => elems.any fun elem => lib.jsonCompare fieldVal elem = 0
    | _ => false
  | .nin =>
    match filterVal with
    | .array elems => !elems.any fun elem => lib.jsonCompare fieldVal elem = 0
    | _ => true

end JsonLib

/-- A library that reads the texts of a table, and prints numbers that are integers, and plain strings. -/
def JsonLib.sample (table : List (Bytes × Json)) : JsonLib where
  parse := fun metadata => table.lookup metadata
  dump
    | .null => "null"
    | .bool b => toString b
    | .integer i => toString i.toInt
    | .unsigned u => toString u.toNat
    | .string s => "\"" ++ s ++ "\""
    | _ => ""

section ThreeWay

variable {τ : Type} [LinearOrder τ] (a b : τ)

theorem threeWay_cases :
    a < b ∧ threeWay a b = -1 ∨ a = b ∧ threeWay a b = 0 ∨ b < a ∧ threeWay a b = 1 := by
  unfold threeWay
  rcases lt_trichotomy a b with hlt | rfl | hgt
  · exact .inl ⟨hlt, if_pos hlt⟩
  · exact .inr (.inl ⟨rfl, by rw [if_neg (lt_irrefl a), if_neg (lt_irrefl a)]⟩)
  · exact .inr (.inr ⟨hgt, by rw [if_neg hgt.not_gt, if_pos hgt]⟩)

theorem threeWay_swap : threeWay b a = -threeWay a b := by
  unfold threeWay
  rcases lt_trichotomy a b with hlt | rfl | hgt
  · rw [if_neg hlt.not_gt, if_pos hlt, if_pos hlt]
    rfl
  · rw [if_neg (lt_irrefl a), if_neg (lt_irrefl a)]
    rfl
  · rw [if_pos hgt, if_neg hgt.not_gt, if_pos hgt]

theorem threeWay_eq_zero_iff : threeWay a b = 0 ↔ a = b := by
  rcases threeWay_cases a b with ⟨h, hval⟩ | ⟨h, hval⟩ | ⟨h, hval⟩ <;> rw [hval]
  · exact iff_of_false (by decide) h.ne
  · exact iff_of_true rfl h
  · exact iff_of_false (by decide) h.ne'

theorem threeWay_neg_iff : threeWay a b < 0 ↔ a < b := by
  rcases threeWay_cases a b with ⟨h, hval⟩ | ⟨h, hval⟩ | ⟨h, hval⟩ <;> rw [hval]
  · exact iff_of_true (by decide) h
  · exact iff_of_false (by decide) h.not_lt
  · exact iff_of_false (by decide) h.not_gt

theorem threeWay_pos_iff : 0 < threeWay a b ↔ b < a := by
  rw [threeWay_swap b a, Int.neg_pos, threeWay_neg_iff]

theorem threeWay_nonpos_iff : threeWay a b ≤ 0 ↔ a ≤ b := by
  rw [← not_lt, threeWay_pos_iff, not_lt]

theorem threeWay_nonneg_iff : 0 ≤ threeWay a b ↔ b ≤ a := by
  rw [← not_lt, threeWay_neg_iff, not_lt]

end ThreeWay

/-! ### The three branches of the comparison -/

def Json.SameKind (a b : Json) : Prop :=
  (∃ x y, a.number? = some x ∧ b.number? = some y) ∨ ∃ x y, a.string? = some x ∧ b.string? = some y

namespace JsonLib

variable (lib : JsonLib) {a b : Json}

theorem jsonCompare_numbers {x y : Rat} (ha : a.number? = some x) (hb : b.number? = some y) :
    lib.jsonCompare a b = threeWay x y := by
  rw [jsonCompare, ha, hb]

theorem jsonCompare_strings {x y : String} (ha : a.string? = some x) (hb : b.string? = some y) :
    lib.jsonCompare a b = threeWay x y := by
  have hnumber : a.number? = none := by
    cases a with
    | string s => rfl
    | _ => contradiction
  rw [jsonCompare, hnumber, ha, hb]

theorem jsonCompare_mixed (h : ¬ a.SameKind b) :
    lib.jsonCompare a b = if lib.dump a = lib.dump b then 0 else -1 := by
  unfold jsonCompare
  split
  · next x y ha hb => exact absurd (.inl ⟨x, y, ha, hb⟩) h
  · split
    · next x y ha hb => exact absurd (.inr ⟨x, y, ha, hb⟩) h
    · rfl

end JsonLib

end NeuralDb
