import NeuralDb.Filter.Where

/-! Where the comparison of JSON values is an order. Values of two kinds that print differently are each
less than the other, and a value of another kind lies below and above all numbers, or all strings. -/

namespace NeuralDb

namespace JsonLib

variable (lib : JsonLib)

/-- The pairs that the comparison puts in an order. -/
def Comparable (a b : Json) : Prop := a.SameKind b ∨ lib.dump a = lib.dump b

/-- `a` comes after `c` in their kind, and `b` is not of it. -/
def BridgedBy {τ : Type} [LT τ] (kind : Json → Option τ) (a b c : Json) : Prop :=
  ∃ x z, kind a = some x ∧ kind c = some z ∧ z < x ∧ kind b = none

def Bridged (a b c : Json) : Prop := BridgedBy Json.number? a b c ∨ BridgedBy Json.string? a b c

section Pairs

variable {a b : Json}

theorem sameKind_symm (h : a.SameKind b) : b.SameKind a := by
  rcases h with ⟨x, y, ha, hb⟩ | ⟨x, y, ha, hb⟩
  · exact .inl ⟨y, x, hb, ha⟩
  · exact .inr ⟨y, x, hb, ha⟩

theorem jsonCompare_swap (h : lib.Comparable a b) : lib.jsonCompare b a = -lib.jsonCompare a b := by
  by_cases hkind : a.SameKind b
  · rcases hkind with ⟨x, y, ha, hb⟩ | ⟨x, y, ha, hb⟩
    · rw [lib.jsonCompare_numbers ha hb, lib.jsonCompare_numbers hb ha, threeWay_swap]
    · rw [lib.jsonCompare_strings ha hb, lib.jsonCompare_strings hb ha, threeWay_swap]
  · have hdump := h.resolve_left hkind
    rw [lib.jsonCompare_mixed hkind, lib.jsonCompare_mixed (fun h => hkind (sameKind_symm h)), if_pos hdump,
      if_pos hdump.symm]
    rfl

/-- Values that are not comparable are less than each other. -/
theorem jsonCompare_of_not (h : ¬ lib.Comparable a b) : lib.jsonCompare a b = -1 ∧ lib.jsonCompare b a = -1 := by
  obtain ⟨hkind, hdump⟩ := not_or.mp h
  rw [lib.jsonCompare_mixed hkind, lib.jsonCompare_mixed (fun h => hkind (sameKind_symm h)), if_neg hdump,
    if_neg (Ne.symm hdump)]
  exact ⟨rfl, rfl⟩

theorem sign_swap_iff :
    (lib.jsonCompare a b).sign = -(lib.jsonCompare b a).sign ↔ lib.Comparable a b := by
  constructor
  · intro hsign
    by_contra hnot
    obtain ⟨hab, hba⟩ := lib.jsonCompare_of_not hnot
    rw [hab, hba] at hsign
    exact absurd hsign (by decide)
  · intro h
    rw [lib.jsonCompare_swap h, Int.sign_neg, neg_neg]

/-- A comparison and its mirror image agree exactly on comparable values. -/
theorem mirror_iff {p q : Int → Bool} (hpq : ∀ i, p i = q (-i)) (hless : p (-1) ≠ q (-1)) :
    p (lib.jsonCompare a b) = q (lib.jsonCompare b a) ↔ lib.Comparable a b := by
  constructor
  · intro hsame
    by_contra hnot
    obtain ⟨hab, hba⟩ := lib.jsonCompare_of_not hnot
    rw [hab, hba] at hsame
    exact hless hsame
  · intro h
    rw [hpq, lib.jsonCompare_swap h]

end Pairs

section Triples

variable {a b c : Json}

theorem jsonCompare_mixed_nonpos (h : ¬ a.SameKind b) : lib.jsonCompare a b ≤ 0 := by
  rw [lib.jsonCompare_mixed h]
  split_ifs <;> decide

theorem not_sameKind_number {x : Rat} (ha : a.number? = some x) (hb : b.number? = none) : ¬ a.SameKind b := by
  rintro (⟨-, y, -, hy⟩ | ⟨s, -, hs, -⟩)
  · rw [hb] at hy
    contradiction
  · cases a <;> contradiction

theorem not_sameKind_string {x : String} (ha : a.string? = some x) (hb : b.string? = none) : ¬ a.SameKind b := by
  rintro (⟨y, -, hy, -⟩ | ⟨-, s, -, hs⟩)
  · cases a <;> contradiction
  · rw [hb] at hs
    contradiction

/-- Within one kind the comparison is transitive, and only a value of another kind gets in between. -/
theorem trans_kind {τ : Type} [LinearOrder τ] {kind : Json → Option τ} {x z : τ}
    (hsame : ∀ {a b : Json} {x y : τ}, kind a = some x → kind b = some y → lib.jsonCompare a b = threeWay x y)
    (hother : ∀ {a b : Json} {x : τ}, kind a = some x → kind b = none → ¬ a.SameKind b)
    (ha : kind a = some x) (hc : kind c = some z) :
    (lib.jsonCompare a b ≤ 0 → lib.jsonCompare b c ≤ 0 → lib.jsonCompare a c ≤ 0) ↔ ¬ BridgedBy kind a b c := by
  rw [hsame ha hc, threeWay_nonpos_iff]
  cases hb : kind b with
  | none =>
    have hab : lib.jsonCompare a b ≤ 0 := lib.jsonCompare_mixed_nonpos (hother ha hb)
    have hbc : lib.jsonCompare b c ≤ 0 := lib.jsonCompare_mixed_nonpos fun h => hother hc hb (sameKind_symm h)
    constructor
    · rintro htrans ⟨x', z', hx, hz, hlt, -⟩
      obtain rfl := Option.some.inj (ha.symm.trans hx)
      obtain rfl := Option.some.inj (hc.symm.trans hz)
      exact absurd (htrans hab hbc) (not_le.mpr hlt)
    · intro hnot _ _
      by_contra hgt
      exact hnot ⟨x, z, ha, hc, not_le.mp hgt, hb⟩
  | some y =>
    rw [hsame ha hb, hsame hb hc, threeWay_nonpos_iff, threeWay_nonpos_iff]
    constructor
    · rintro - ⟨-, -, -, -, -, hnone⟩
      rw [hb] at hnone
      contradiction
    · exact fun _ hxy hyz => hxy.trans hyz

theorem trans_iff :
    (lib.jsonCompare a b ≤ 0 → lib.jsonCompare b c ≤ 0 → lib.jsonCompare a c ≤ 0) ↔ ¬ Bridged a b c := by
  have hnumber : ∀ {x : Rat}, a.number? = some x → ¬ BridgedBy Json.string? a b c := by
    rintro x hx ⟨s, -, hs, -⟩
    cases a <;> contradiction
  have hstring : ∀ {s : String}, a.string? = some s → ¬ BridgedBy Json.number? a b c := by
    rintro s hs ⟨x, -, hx, -⟩
    cases a <;> contradiction
  by_cases hkind : a.SameKind c
  · rcases hkind with ⟨x, z, ha, hc⟩ | ⟨x, z, ha, hc⟩
    · rw [lib.trans_kind lib.jsonCompare_numbers not_sameKind_number ha hc, Bridged, or_iff_left (hnumber ha)]
    · rw [lib.trans_kind lib.jsonCompare_strings not_sameKind_string ha hc, Bridged, or_iff_right (hstring ha)]
  · apply iff_of_true
    · exact fun _ _ => lib.jsonCompare_mixed_nonpos hkind
    · rintro (⟨x, z, ha, hc, -⟩ | ⟨x, z, ha, hc, -⟩)
      · exact hkind (.inl ⟨x, z, ha, hc⟩)
      · exact hkind (.inr ⟨x, z, ha, hc⟩)

end Triples

theorem satisfies_single {metadata : Bytes} {field : String} {a : Json}
    (h : lib.parse metadata = some (.object [(field, a)])) {key : String} {op : FilterOp}
    (hop : opMap.lookup key = some op) (b : Json) :
    lib.satisfies metadata field key b = lib.applyOp a op b := by
  rw [lib.satisfies_eq metadata field hop, holdsAt, h]
  dsimp only
  rw [List.lookup_cons_self]
  rfl

/-- The comparison of two values is the opposite of the comparison the other way, and the operators are
mirror images, exactly when both are numbers, both are strings, or they print the same; and three values are
in order unless the one in the middle is of another kind than the ends. -/
theorem compare_order_iff (a b c : Json) :
    ((lib.jsonCompare a b).sign = -(lib.jsonCompare b a).sign ↔ lib.Comparable a b) ∧
    ((lib.jsonCompare a b ≤ 0 → lib.jsonCompare b c ≤ 0 → lib.jsonCompare a c ≤ 0) ↔ ¬ Bridged a b c) ∧
    ∀ (field : String) (m m' : Bytes), lib.parse m = some (.object [(field, a)]) →
      lib.parse m' = some (.object [(field, b)]) →
      (lib.satisfies m field "$lt" b = lib.satisfies m' field "$gt" a ↔ lib.Comparable a b) ∧
      (lib.satisfies m field "$lte" b = lib.satisfies m' field "$gte" a ↔ lib.Comparable a b) := by
  have hlt : opMap.lookup "$lt" = some .lt := rfl
  have hgt : opMap.lookup "$gt" = some .gt := rfl
  have hlte : opMap.lookup "$lte" = some .lte := rfl
  have hgte : opMap.lookup "$gte" = some .gte := rfl
  refine ⟨lib.sign_swap_iff, lib.trans_iff, fun field m m' hm hm' => ⟨?_, ?_⟩⟩
  · rw [lib.satisfies_single hm hlt, lib.satisfies_single hm' hgt]
    apply @mirror_iff lib a b (fun i => decide (i < 0)) (fun i => decide (0 < i))
    · exact fun i => decide_eq_decide.mpr (Int.neg_pos).symm
    · decide
  · rw [lib.satisfies_single hm hlte, lib.satisfies_single hm' hgte]
    apply @mirror_iff lib a b (fun i => decide (i ≤ 0)) (fun i => decide (0 ≤ i))
    · exact fun i => decide_eq_decide.mpr (Int.neg_nonneg).symm
    · decide

def flagText (value : String) : Bytes := ("\x7b\"f\":" ++ value ++ "\x7d").toUTF8.toList

def flagLib : JsonLib :=
  sample [(flagText "true", .object [("f", .bool true)]), (flagText "null", .object [("f", .null)])]

/-- `true` and `null` are less than each other, and 2 is not above `"x"`, `"x"` not above 1, but 2 above 1. -/
theorem compare_both_less :
    flagLib.jsonCompare (.bool true) .null = -1 ∧ flagLib.jsonCompare .null (.bool true) = -1 ∧
    flagLib.satisfies (flagText "true") "f" "$lt" .null = true ∧
    flagLib.satisfies (flagText "null") "f" "$gt" (.bool true) = false ∧
    flagLib.satisfies (flagText "true") "f" "$lte" .null = true ∧
    flagLib.satisfies (flagText "null") "f" "$gte" (.bool true) = false ∧
    flagLib.jsonCompare (.integer 2) (.string "x") ≤ 0 ∧ flagLib.jsonCompare (.string "x") (.integer 1) ≤ 0 ∧
    0 < flagLib.jsonCompare (.integer 2) (.integer 1) := by
  decide +kernel

end JsonLib

end NeuralDb
