import Mathlib.Algebra.Order.Ring.Int
import Mathlib.Data.List.Sort
import Mathlib.Order.WithBot
import Mathlib.Tactic.Common

/-! The recency list of a cache that replaces its least recently used entry. -/

namespace NeuralDb.Library

namespace Lru

variable {α : Type} [DecidableEq α] {cap : Nat}

/-- Use the entry `x` of a cache for `cap` entries: it moves to the front, and a new entry drives
the last one out of a full cache. -/
def touch (cap : Nat) (x : α) (l : List α) : List α :=
  x :: if x ∈ l then l.erase x else if cap ≤ l.length then l.dropLast else l

/-- Uses of other entries push `y` back one place each, and out of the cache when it is the last. -/
theorem touch_other {x y : α} {a b : List α} (hxy : x ≠ y) (hxa : x ∉ a) :
    (∃ b', touch cap x (a ++ y :: b) = (x :: a) ++ y :: b') ∨
      touch cap x (a ++ y :: b) = x :: a ∧ cap ≤ a.length + 1 := by
  unfold touch
  split_ifs with hmem hfull
  · left
    refine ⟨b.erase x, ?_⟩
    rw [List.erase_append_right _ hxa, List.erase_cons_tail (by simpa using Ne.symm hxy)]
    rfl
  · rw [List.dropLast_append_cons]
    cases b with
    | nil =>
      right
      rw [List.length_append, List.length_singleton] at hfull
      exact ⟨by simp, hfull⟩
    | cons z b => exact .inl ⟨(z :: b).dropLast, rfl⟩
  · exact .inl ⟨b, rfl⟩

/-- A use leaves the entries of the smaller cache in front in the larger one. -/
theorem touch_prefix {cap' : Nat} (hcap : cap ≤ cap') {l l' : List α} (h : l <+: l') (x : α) :
    touch cap x l <+: touch cap' x l' := by
  obtain ⟨rest, rfl⟩ := h
  refine List.cons_prefix_cons.mpr ⟨rfl, ?_⟩
  by_cases hl : x ∈ l
  · rw [if_pos hl, if_pos (List.mem_append_left rest hl)]
    exact (List.prefix_append l rest).erase x
  have hkept : (if cap ≤ l.length then l.dropLast else l) <+: l := by
    split_ifs
    · exact List.dropLast_prefix l
    · exact List.prefix_refl l
  rw [if_neg hl]
  by_cases hrest : x ∈ rest
  · rw [if_pos (List.mem_append_right l hrest), List.erase_append_right _ hl]
    exact hkept.trans (List.prefix_append l _)
  · rw [if_neg fun h => (List.mem_append.mp h).elim hl hrest]
    rcases List.eq_nil_or_concat rest with rfl | ⟨front, last, rfl⟩
    · -- the caches agree, and the larger one is not full before the smaller one
      rw [List.append_nil]
      split_ifs with hfull hfull'
      · exact List.prefix_refl _
      · exact List.dropLast_prefix l
      · omega
      · exact List.prefix_refl l
    · have hfront : l <+: if cap' ≤ (l ++ front.concat last).length then (l ++ front.concat last).dropLast
          else l ++ front.concat last := by
        rw [List.concat_eq_append, ← List.append_assoc, List.dropLast_concat]
        split_ifs
        · exact List.prefix_append l front
        · exact (List.prefix_append l front).trans (List.prefix_append _ _)
      exact hkept.trans hfront

/-! ### How long an entry stays -/

/-- A cache in order: no entry twice and no more than it has room for. -/
structure InOrder (cap : Nat) (l : List α) : Prop where
  nodup : l.Nodup
  length_le : l.length ≤ cap

theorem touch_subset (cap : Nat) (x : α) (l : List α) : touch cap x l ⊆ x :: l := by
  unfold touch
  apply List.cons_subset_cons
  split_ifs
  · exact List.erase_subset
  · exact (List.dropLast_sublist l).subset
  · exact List.Subset.refl l

theorem InOrder.touch {l : List α} (h : InOrder cap l) (hcap : 0 < cap) (x : α) :
    InOrder cap (touch cap x l) := by
  have hle := h.length_le
  unfold Lru.touch
  split_ifs with hmem hfull
  · exact ⟨List.nodup_cons.mpr ⟨h.nodup.not_mem_erase, h.nodup.erase x⟩,
      by rwa [(List.perm_cons_erase hmem).symm.length_eq]⟩
  · refine ⟨List.nodup_cons.mpr ⟨fun hx => hmem ((List.dropLast_sublist l).subset hx),
      h.nodup.sublist (List.dropLast_sublist l)⟩, ?_⟩
    rw [List.length_cons, List.length_dropLast]
    omega
  · exact ⟨List.nodup_cons.mpr ⟨hmem, h.nodup⟩, not_le.mp hfull⟩

/-- Whether an entry with the entries `seen` in front of it is still there after each of the uses
`xs`. It leaves when `cap` others have been used since its own last use. -/
def outlives (cap : Nat) (y : α) : List α → List α → Bool
  | _, [] => true
  | seen, x :: xs =>
    if x = y then outlives cap y [] xs
    else decide ((x :: seen.erase x).length < cap) && outlives cap y (x :: seen.erase x) xs

/-- One use of another entry: `y` falls behind it, and out of the cache when no room is left. -/
theorem InOrder.touch_behind {x y : α} {a b : List α} (h : InOrder cap (a ++ y :: b)) (hxy : x ≠ y) :
    (∃ b', Lru.touch cap x (a ++ y :: b) = (x :: a.erase x) ++ y :: b') ∨
      y ∉ Lru.touch cap x (a ++ y :: b) ∧ cap ≤ (x :: a.erase x).length := by
  by_cases hxa : x ∈ a
  · left
    refine ⟨b, ?_⟩
    rw [Lru.touch, if_pos (List.mem_append_left _ hxa), List.erase_append_left _ hxa]
    rfl
  · rw [List.erase_of_not_mem hxa]
    have hnext := @touch_other α _ cap x y a b hxy hxa
    rcases hnext with hstays | ⟨hgone, hfull⟩
    · exact .inl hstays
    · right
      have hya : y ∉ a := fun hy => (List.nodup_append.mp h.nodup).2.2 y hy y List.mem_cons_self rfl
      refine ⟨?_, hfull⟩
      rw [hgone, List.mem_cons, not_or]
      exact ⟨hxy.symm, hya⟩

def run (cap : Nat) (l xs : List α) : List α := xs.foldl (fun l x => Lru.touch cap x l) l

theorem run_concat (cap : Nat) (l xs : List α) (x : α) :
    run cap l (xs ++ [x]) = Lru.touch cap x (run cap l xs) := List.foldl_append

/-- The entry `y` of a cache outlives the uses `xs` exactly when it is there after each of them. -/
theorem outlives_iff (hcap : 0 < cap) {y : α} (xs : List α) {a b : List α} (h : InOrder cap (a ++ y :: b)) :
    outlives cap y a xs = true ↔ ∀ n, y ∈ run cap (a ++ y :: b) (xs.take n) := by
  induction xs generalizing a b with
  | nil => simp [outlives, run]
  | cons x xs ih =>
    have hnext := h.touch hcap x
    -- the use of `x` comes first, the later prefixes follow from it
    have hsplit : (∀ n, y ∈ run cap (a ++ y :: b) ((x :: xs).take n)) ↔
        ∀ n, y ∈ run cap (Lru.touch cap x (a ++ y :: b)) (xs.take n) := by
      constructor
      · exact fun hall n => hall (n + 1)
      · intro hall n
        cases n with
        | zero => simp [run]
        | succ n => exact hall n
    rw [hsplit, outlives]
    split_ifs with hxy
    · subst hxy
      exact ih (a := []) hnext
    · rcases h.touch_behind hxy with ⟨b', hb'⟩ | ⟨hgone, hfull⟩
      · rw [hb'] at hnext ⊢
        have hroom : (x :: a.erase x).length < cap := by
          have hle := hnext.length_le
          rw [List.length_append, List.length_cons (a := y)] at hle
          omega
        rw [decide_eq_true hroom, Bool.true_and]
        exact ih hnext
      · rw [decide_eq_false (not_lt.mpr hfull), Bool.false_and]
        exact iff_of_false Bool.false_ne_true fun hall => hgone (hall 0)

theorem outlives_concat (hcap : 0 < cap) {y x : α} {xs a b : List α} (h : InOrder cap (a ++ y :: b)) :
    outlives cap y a (xs ++ [x]) = true ↔
      outlives cap y a xs = true ∧ y ∈ Lru.touch cap x (run cap (a ++ y :: b) xs) := by
  rw [outlives_iff hcap _ h, outlives_iff hcap _ h]
  constructor
  · intro hall
    refine ⟨fun n => ?_, ?_⟩
    · have hn := hall (min n xs.length)
      rwa [List.take_append_of_le_length (min_le_right _ _), ← List.take_eq_take_min] at hn
    · have hn := hall (xs ++ [x]).length
      rwa [List.take_length, run_concat] at hn
  · rintro ⟨hall, hin⟩ n
    rcases Nat.lt_or_ge xs.length n with hlt | hle
    · rw [List.take_of_length_le (by rw [List.length_append, List.length_singleton]; omega), run_concat]
      exact hin
    · rw [List.take_append_of_le_length hle]
      exact hall n

/-- An entry outlives as many uses as there is room for. -/
theorem outlives_of_room {y : α} (xs : List α) {seen : List α} (h : seen.length + xs.length < cap) :
    outlives cap y seen xs = true := by
  induction xs generalizing seen with
  | nil => rfl
  | cons x xs ih =>
    have hseen : (x :: seen.erase x).length ≤ seen.length + 1 := Nat.succ_le_succ List.length_erase_le
    rw [List.length_cons] at h
    rw [outlives]
    split_ifs
    · exact ih (by rw [List.length_nil]; omega)
    · rw [Bool.and_eq_true]
      exact ⟨decide_eq_true (by omega), ih (by omega)⟩

theorem outlives_distinct {y : α} (xs : List α) {seen : List α} (hnodup : xs.Nodup)
    (hfresh : ∀ x ∈ xs, x ≠ y ∧ x ∉ seen) :
    outlives cap y seen xs = true ↔ xs = [] ∨ seen.length + xs.length < cap := by
  induction xs generalizing seen with
  | nil => simp [outlives]
  | cons x xs ih =>
    obtain ⟨hxy, hseen⟩ := hfresh x List.mem_cons_self
    obtain ⟨hx, hxs⟩ := List.nodup_cons.mp hnodup
    have hrest : ∀ z ∈ xs, z ≠ y ∧ z ∉ x :: seen := by
      intro z hz
      obtain ⟨hzy, hz'⟩ := hfresh z (List.mem_cons_of_mem x hz)
      have hzx : z ≠ x := fun he => hx (he ▸ hz)
      exact ⟨hzy, List.not_mem_cons_of_ne_of_not_mem hzx hz'⟩
    rw [outlives, if_neg hxy, List.erase_of_not_mem hseen, Bool.and_eq_true, ih hxs hrest, decide_eq_true_eq]
    simp only [List.length_cons, reduceCtorEq, false_or]
    constructor
    · rintro ⟨hlt, rfl | hle⟩
      · simpa using hlt
      · omega
    · intro hlt
      exact ⟨by omega, .inr (by omega)⟩

theorem not_mem_run {y : α} (xs : List α) {l : List α} (hl : y ∉ l) (hxs : y ∉ xs) : y ∉ run cap l xs := by
  induction xs generalizing l with
  | nil => exact hl
  | cons x xs ih =>
    have hx := List.not_mem_cons_of_ne_of_not_mem (List.ne_of_not_mem_cons hxs) hl
    apply ih _ (List.not_mem_of_not_mem_cons hxs)
    exact fun hy => hx (touch_subset cap x l hy)

/-- An entry just used is left after `xs.length` different others exactly when there is room for all. -/
theorem mem_run_distinct (hcap : 0 < cap) {y : α} {xs b : List α} (h : InOrder cap (y :: b))
    (hnodup : xs.Nodup) (hy : y ∉ xs) : y ∈ run cap (y :: b) xs ↔ xs.length < cap := by
  have hfresh : ∀ x ∈ xs, x ≠ y ∧ x ∉ ([] : List α) :=
    fun x hx => ⟨fun he => hy (he ▸ hx), List.not_mem_nil⟩
  have hiff := outlives_iff hcap xs (a := []) h
  rw [List.nil_append, outlives_distinct xs hnodup hfresh, List.length_nil, Nat.zero_add] at hiff
  have hnil : xs = [] ∨ xs.length < cap ↔ xs.length < cap := by
    constructor
    · rintro (rfl | hlt)
      · exact hcap
      · exact hlt
    · exact .inr
  rw [← hnil, hiff]
  constructor
  · intro hmem n
    by_contra hgone
    have hlater : y ∉ run cap (run cap (y :: b) (xs.take n)) (xs.drop n) :=
      not_mem_run _ hgone fun hin => hy (List.mem_of_mem_drop hin)
    apply hlater
    rwa [run, run, ← List.foldl_append, List.take_append_drop]
  · intro hall
    have := hall xs.length
    rwa [List.take_length] at this

/-! ### The order of the last uses -/

/-- The entries by decreasing rank. -/
def Ranked (rank : α → Nat) (l : List α) : Prop := l.Pairwise fun a b => rank b < rank a

omit [DecidableEq α] in
theorem Ranked.sublist {rank rank' : α → Nat} {l l' : List α} (h : Ranked rank l) (hsub : l'.Sublist l)
    (hsame : ∀ y ∈ l', rank' y = rank y) : Ranked rank' l' := by
  apply (List.Pairwise.sublist hsub h).imp_of_mem
  intro a b ha hb hlt
  rwa [hsame a ha, hsame b hb]

/-- A use puts the entry in front of some of the others. -/
theorem InOrder.touch_eq {l : List α} (h : InOrder cap l) (x : α) :
    ∃ rest, Lru.touch cap x l = x :: rest ∧ rest.Sublist l ∧ x ∉ rest := by
  unfold Lru.touch
  split_ifs with hmem hfull
  · exact ⟨_, rfl, List.erase_sublist, h.nodup.not_mem_erase⟩
  · exact ⟨_, rfl, List.dropLast_sublist l, fun hx => hmem ((List.dropLast_sublist l).subset hx)⟩
  · exact ⟨_, rfl, List.Sublist.refl l, hmem⟩

/-- The entry used last has the highest rank, and the others keep theirs. -/
theorem Ranked.touch {rank rank' : α → Nat} {l : List α} {x : α} (h : Ranked rank l) (hl : InOrder cap l)
    (hsame : ∀ y, y ≠ x → rank' y = rank y) (hlast : ∀ y, rank y < rank' x) :
    Ranked rank' (Lru.touch cap x l) := by
  obtain ⟨rest, heq, hsub, hx⟩ := hl.touch_eq x
  have hne : ∀ y ∈ rest, y ≠ x := fun y hy he => hx (he ▸ hy)
  rw [heq]
  apply List.pairwise_cons.mpr
  constructor
  · intro y hy
    rw [hsame y (hne y hy)]
    exact hlast y
  · exact h.sublist hsub fun y hy => hsame y (hne y hy)

end Lru

end NeuralDb.Library
