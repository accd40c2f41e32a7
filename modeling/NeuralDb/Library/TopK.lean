import Mathlib.Algebra.Order.Ring.Int
import Mathlib.Data.List.Sort
import Mathlib.Order.WithBot
import Mathlib.Tactic.Common

/-! Ranking: no descending selection from a list beats its sorted top, rank by rank. -/

namespace NeuralDb.Library

variable {τ ι : Type} [LinearOrder τ]

/-- `l` lists its `k` best entries first, in descending order. -/
structure TopSorted (k : Nat) (l : List (τ × ι)) : Prop where
  ordered : (l.take k).Pairwise fun a b => b.1 ≤ a.1
  top : ∀ a ∈ l.take k, ∀ b ∈ l.drop k, b.1 ≤ a.1

theorem TopSorted.le_of_le {k : Nat} {l : List (τ × ι)} (h : TopSorted k l) {i j : Nat} (hij : i ≤ j)
    (hik : i < k) (hj : j < l.length) : (l[j]).1 ≤ (l[i]).1 := by
  have hi : i < (l.take k).length := by rw [List.length_take]; omega
  have hmem : l[i] ∈ l.take k := by
    rw [List.mem_iff_getElem]
    exact ⟨i, hi, List.getElem_take⟩
  rcases Nat.lt_or_ge j k with hjk | hjk
  · rcases hij.eq_or_lt with rfl | hlt
    · exact le_rfl
    · have hj' : j < (l.take k).length := by rw [List.length_take]; omega
      have := List.pairwise_iff_getElem.mp h.ordered i j hi hj' hlt
      simpa only [List.getElem_take] using this
  · refine h.top _ hmem _ ?_
    rw [List.mem_iff_getElem]
    exact ⟨j - k, by rw [List.length_drop]; omega, by rw [List.getElem_drop]; congr 1; omega⟩

/-- Of the entries of `l`, only the first `i` can beat the one at rank `i`. -/
theorem TopSorted.countP_lt_le {k : Nat} {l : List (τ × ι)} (h : TopSorted k l) {i : Nat} (hik : i < k)
    (hi : i < l.length) : l.countP (fun p => decide ((l[i]).1 < p.1)) ≤ i := by
  have hzero : (l.drop i).countP (fun p => decide ((l[i]).1 < p.1)) = 0 := by
    rw [List.countP_eq_zero]
    intro p hp
    obtain ⟨j, hj, rfl⟩ := List.mem_iff_getElem.mp hp
    rw [List.length_drop] at hj
    rw [List.getElem_drop, decide_eq_true_eq, not_lt]
    exact h.le_of_le (Nat.le_add_right i j) hik _
  have hsplit := congrArg (List.countP fun p => decide ((l[i]).1 < p.1)) (List.take_append_drop i l)
  rw [List.countP_append, hzero, Nat.add_zero] at hsplit
  rw [← hsplit]
  exact List.countP_le_length.trans (by rw [List.length_take]; omega)

/-- A descending list of entries of `l` is, rank by rank, at most the sorted top of `l`. -/
theorem TopSorted.rank_le {k : Nat} {l hits : List (τ × ι)} (h : TopSorted k l) (hsub : hits.Subperm l)
    (hdesc : hits.Pairwise fun a b => b.1 ≤ a.1) {i : Nat} (hi : i < hits.length) (hik : i < k) :
    ∃ hil : i < l.length, (hits[i]).1 ≤ (l[i]).1 := by
  have hil : i < l.length := hi.trans_le hsub.length_le
  refine ⟨hil, ?_⟩
  by_contra hlt
  rw [not_le] at hlt
  have hprefix : ∀ p ∈ hits.take (i + 1), decide ((l[i]).1 < p.1) = true := by
    intro p hp
    obtain ⟨j, hj, rfl⟩ := List.mem_iff_getElem.mp hp
    rw [List.length_take] at hj
    rw [List.getElem_take, decide_eq_true_eq]
    refine hlt.trans_le ?_
    rcases Nat.lt_succ_iff_lt_or_eq.mp (show j < i + 1 by omega) with hji | rfl
    · exact List.pairwise_iff_getElem.mp hdesc j i (by omega) hi hji
    · exact le_rfl
  have hmany : i + 1 ≤ hits.countP fun p => decide ((l[i]).1 < p.1) := by
    have hle := ((List.take_sublist (i + 1) hits).countP_le
      (p := fun p => decide ((l[i]).1 < p.1)))
    rw [List.countP_eq_length.mpr hprefix, List.length_take] at hle
    omega
  have hfew := h.countP_lt_le hik hil
  have := hsub.countP_le fun p => decide ((l[i]).1 < p.1)
  omega

/-- The entries above a threshold sit at the front, so a cut at `k` keeps as many of them as fit. -/
theorem TopSorted.length_filter {k : Nat} {l : List (τ × ι)} (h : TopSorted k l) {p : τ → Bool}
    (hp : ∀ s t, s ≤ t → p s = true → p t = true) :
    ((l.take k).filter fun a => p a.1).length = min k (l.countP fun a => p a.1) := by
  have hsplit := congrArg (List.countP fun a => p a.1) (List.take_append_drop k l)
  rw [List.countP_append] at hsplit
  rw [← List.countP_eq_length_filter]
  by_cases hleft : ∃ b ∈ l.drop k, p b.1 = true
  · -- an entry above the threshold is cut off, so all that is kept is above it
    obtain ⟨b, hb, hpb⟩ := hleft
    have hpos := List.length_pos_of_mem hb
    have hall : (l.take k).countP (fun a => p a.1) = (l.take k).length :=
      List.countP_eq_length.mpr fun a ha => hp _ _ (h.top a ha b hb) hpb
    rw [List.length_drop] at hpos
    rw [List.length_take] at hall
    omega
  · have hnone : (l.drop k).countP (fun a => p a.1) = 0 :=
      List.countP_eq_zero.mpr fun b hb hpb => hleft ⟨b, hb, hpb⟩
    have hle : (l.take k).countP (fun a => p a.1) ≤ (l.take k).length := List.countP_le_length
    rw [List.length_take] at hle
    omega

/-- As long as an entry of a descending list stays above the threshold, `takeWhile` keeps its rank. -/
theorem getElem?_takeWhile_of_descending {l : List (τ × ι)} (h : l.Pairwise fun a b => b.1 ≤ a.1)
    {p : τ → Bool} (hp : ∀ s t, s ≤ t → p s = true → p t = true) {i : Nat} {a : τ × ι}
    (ha : l[i]? = some a) (hpa : p a.1 = true) : (l.takeWhile fun b => p b.1)[i]? = some a := by
  induction l generalizing i with
  | nil => exact ha
  | cons b l ih =>
    obtain ⟨hhead, htail⟩ := List.pairwise_cons.mp h
    have hb : p b.1 = true := by
      cases i with
      | zero =>
        obtain rfl : b = a := by simpa using ha
        exact hpa
      | succ i => exact hp _ _ (hhead a (List.mem_of_getElem? (by simpa using ha))) hpa
    rw [List.takeWhile_cons_of_pos (p := fun b : τ × ι => p b.1) hb]
    cases i with
    | zero => exact ha
    | succ i =>
      rw [List.getElem?_cons_succ] at ha ⊢
      exact ih htail ha

theorem mem_takeWhile_of_descending {l : List (τ × ι)} (h : l.Pairwise fun a b => b.1 ≤ a.1)
    {p : τ → Bool} (hp : ∀ s t, s ≤ t → p s = true → p t = true) {a : τ × ι} (ha : a ∈ l)
    (hpa : p a.1 = true) : a ∈ l.takeWhile fun b => p b.1 := by
  obtain ⟨i, hi⟩ := List.mem_iff_getElem?.mp ha
  exact List.mem_of_getElem? (getElem?_takeWhile_of_descending h hp hi hpa)

/-- Once the threshold is passed, a descending list stays below it. -/
theorem takeWhile_eq_filter_of_descending {l : List (τ × ι)} (h : l.Pairwise fun a b => b.1 ≤ a.1)
    {p : τ → Bool} (hp : ∀ s t, s ≤ t → p s = true → p t = true) :
    (l.takeWhile fun b => p b.1) = l.filter fun b => p b.1 := by
  induction l with
  | nil => rfl
  | cons a l ih =>
    obtain ⟨hhead, htail⟩ := List.pairwise_cons.mp h
    by_cases ha : p a.1 = true
    · rw [List.takeWhile_cons_of_pos (p := fun b : τ × ι => p b.1) ha,
        List.filter_cons_of_pos (p := fun b : τ × ι => p b.1) ha, ih htail]
    · have hnone : (l.filter fun b => p b.1) = [] :=
        List.filter_eq_nil_iff.mpr fun b hb hpb => ha (hp _ _ (hhead b hb) hpb)
      rw [List.takeWhile_cons_of_neg (p := fun b : τ × ι => p b.1) ha,
        List.filter_cons_of_neg (p := fun b : τ × ι => p b.1) ha, hnone]

/-- What is rank by rank at least as good has at least as many entries above a threshold. -/
theorem countP_le_of_rank {l l' : List (τ × ι)}
    (h : ∀ i (hi : i < l.length), ∃ hi' : i < l'.length, (l[i]).1 ≤ (l'[i]).1) {p : τ → Bool}
    (hp : ∀ s t, s ≤ t → p s = true → p t = true) : (l.countP fun a => p a.1) ≤ l'.countP fun a => p a.1 := by
  induction l generalizing l' with
  | nil => exact Nat.zero_le _
  | cons a l ih =>
    obtain ⟨hpos, hhead⟩ := h 0 (Nat.succ_pos _)
    cases l' with
    | nil => exact absurd hpos (Nat.not_lt_zero 0)
    | cons a' l' =>
      have htail : ∀ i (hi : i < l.length), ∃ hi' : i < l'.length, (l[i]).1 ≤ (l'[i]).1 := by
        intro i hi
        obtain ⟨hi', hle⟩ := h (i + 1) (Nat.succ_lt_succ hi)
        exact ⟨Nat.lt_of_succ_lt_succ hi', hle⟩
      have hrest := ih htail
      rw [List.countP_cons, List.countP_cons]
      have hfirst : p a.1 = true → p a'.1 = true := hp _ _ hhead
      split_ifs with ha ha'
      · omega
      · exact absurd (hfirst ha) ha'
      · omega
      · omega

section Filter

variable {k : Nat} {l m : List (τ × ι)} {p : τ → Bool}

omit [LinearOrder τ] in
theorem filter_split (k : Nat) (l : List (τ × ι)) (p : τ → Bool) :
    (l.filter fun a => p a.1) = ((l.take k).filter fun a => p a.1) ++ ((l.drop k).filter fun a => p a.1) ∧
      ((l.take k).filter fun a => p a.1).length ≤ k :=
  ⟨by rw [← List.filter_append, List.take_append_drop],
    (List.length_filter_le _ _).trans (List.length_take_le k l)⟩

theorem TopSorted.filter_take (h : TopSorted k l) (hp : ∀ s t, s ≤ t → p s = true → p t = true) :
    ((l.take k).filter fun a => p a.1) = (l.filter fun a => p a.1).take k := by
  obtain ⟨hsplit, hlen⟩ := filter_split k l p
  by_cases hleft : ∃ b ∈ l.drop k, p b.1 = true
  · -- an entry above the threshold is cut off, so all that is kept is above it
    obtain ⟨b, hb, hpb⟩ := hleft
    have hall : ((l.take k).filter fun a => p a.1) = l.take k :=
      List.filter_eq_self.mpr fun a ha => hp _ _ (h.top a ha b hb) hpb
    have hpos := List.length_pos_of_mem hb
    rw [List.length_drop] at hpos
    rw [hsplit, hall, List.take_append_of_le_length (by rw [List.length_take]; omega), List.take_take, min_self]
  · have hnone : ((l.drop k).filter fun a => p a.1) = [] :=
      List.filter_eq_nil_iff.mpr fun b hb hpb => hleft ⟨b, hb, hpb⟩
    rw [hsplit, hnone, List.append_nil, List.take_of_length_le hlen]

theorem TopSorted.filter (h : TopSorted k l) (hp : ∀ s t, s ≤ t → p s = true → p t = true) :
    TopSorted k (l.filter fun a => p a.1) where
  ordered := by
    rw [← h.filter_take hp]
    exact h.ordered.sublist List.filter_sublist
  top a ha b hb := by
    rw [← h.filter_take hp] at ha
    obtain ⟨hsplit, hlen⟩ := filter_split k l p
    rw [hsplit, List.drop_append, List.drop_eq_nil_of_le hlen, List.nil_append] at hb
    exact h.top a (List.mem_of_mem_filter ha) b (List.mem_of_mem_filter (List.mem_of_mem_drop hb))

end Filter

end NeuralDb.Library
