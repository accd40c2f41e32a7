import Mathlib.Data.Finset.Card
import Mathlib.Tactic.Linarith
import Mathlib.Tactic.Ring
import NeuralDb.Library.Lru

/-! How often a cache that replaces its least recently used entry has to load one, beside any other cache that serves
the same uses, be it one that knows them all beforehand. -/

namespace NeuralDb.Library

namespace Lru

variable {α : Type} [DecidableEq α]

/-- How many of the uses find their entry missing. -/
def misses (cap : Nat) : List α → List α → Nat
  | _, [] => 0
  | l, x :: xs => (if x ∈ l then 0 else 1) + misses cap (touch cap x l) xs

/-- What a cache `c` holds after each of some uses: the entry that is used, and of the others only what it held. -/
def Serves (room : Nat) : Finset α → List (α × Finset α) → Prop
  | _, [] => True
  | c, (x, c') :: rest => x ∈ c' ∧ c' ⊆ insert x c ∧ c'.card ≤ room ∧ Serves room c' rest

/-- How many entries it loads. -/
def served : Finset α → List (α × Finset α) → Nat
  | _, [] => 0
  | c, (x, c') :: rest => (if x ∈ c then 0 else 1) + served c' rest

/-- The entries that only the recency list holds, each with the room behind it and its own. -/
def weight (c : Finset α) : Nat → List α → Nat
  | _, [] => 0
  | n, y :: l => (if y ∈ c then 0 else n) + weight c (n - 1) l

section Weight

variable {c c' : Finset α} {x : α}

theorem weight_mono (c : Finset α) {n n' : Nat} (h : n ≤ n') (l : List α) : weight c n l ≤ weight c n' l := by
  induction l generalizing n n' with
  | nil => exact le_rfl
  | cons y l ih =>
    have hrest := ih (Nat.sub_le_sub_right h 1)
    rw [weight, weight]
    split_ifs <;> omega

theorem weight_insert_le (c : Finset α) (x : α) (n : Nat) (l : List α) :
    weight (insert x c) n l ≤ weight c n l := by
  induction l generalizing n with
  | nil => exact le_rfl
  | cons y l ih =>
    have hrest := ih (n - 1)
    rw [weight, weight]
    by_cases hy : y ∈ c
    · rw [if_pos hy, if_pos (Finset.mem_insert_of_mem hy)]
      omega
    · rw [if_neg hy]
      split_ifs <;> omega

/-- Each entry that the other cache gives up weighs no more than the whole room. -/
theorem weight_shrink (h : c' ⊆ c) {l : List α} (hnodup : l.Nodup) (n : Nat) :
    weight c' n l ≤ weight c n l + n * (c.card - c'.card) := by
  have hcount : ∀ (l : List α) (n room : Nat), n ≤ room →
      weight c' n l ≤ weight c n l + room * l.countP (fun y => decide (y ∈ c \ c')) := by
    intro l
    induction l with
    | nil => exact fun n room _ => Nat.zero_le _
    | cons y l ih =>
      intro n room hn
      have hrest := ih (n - 1) room (by omega)
      rw [weight, weight, List.countP_cons]
      by_cases hy' : y ∈ c'
      · rw [if_pos hy', if_pos (h hy')]
        simp only [Finset.mem_sdiff, hy', not_true_eq_false, and_false, decide_false]
        simpa using hrest
      · by_cases hy : y ∈ c
        · simp only [Finset.mem_sdiff, hy, hy', not_false_eq_true, and_self, decide_true, if_true, if_false] at hrest ⊢
          rw [Nat.mul_add]
          omega
        · simp only [Finset.mem_sdiff, hy, hy', false_and, decide_false, if_false] at hrest ⊢
          simpa [Nat.add_assoc] using hrest
  refine (hcount l n n le_rfl).trans (Nat.add_le_add_left (Nat.mul_le_mul_left n ?_) _)
  rw [← Finset.card_sdiff_of_subset h, List.countP_eq_length_filter, ← List.toFinset_card_of_nodup (hnodup.filter _)]
  exact Finset.card_le_card fun y hy => of_decide_eq_true (List.mem_filter.mp (List.mem_toFinset.mp hy)).2

/-- A hit of both caches. -/
theorem weight_erase_le (hx : x ∈ c) {l : List α} (hl : x ∈ l) (n : Nat) :
    weight c (n - 1) (l.erase x) ≤ weight c n l := by
  induction l generalizing n with
  | nil => exact absurd hl List.not_mem_nil
  | cons y l ih =>
    by_cases hy : y = x
    · rw [hy, List.erase_cons_head, weight, if_pos hx, Nat.zero_add]
    · rw [List.erase_cons_tail (by simpa using hy), weight, weight]
      have hrest := ih ((List.mem_cons.mp hl).resolve_left fun h => hy h.symm) (n - 1)
      split_ifs <;> omega

/-- All entries fall back by one place, and the last one out of the cache. -/
theorem weight_dropLast_le (c : Finset α) {l : List α} {n : Nat} (hlen : l.length ≤ n) :
    weight c (n - 1) l.dropLast + l.countP (fun y => decide (y ∉ c)) ≤ weight c n l := by
  induction l generalizing n with
  | nil => exact le_rfl
  | cons y l ih =>
    rw [List.length_cons] at hlen
    have hrest := ih (n := n - 1) (by omega)
    cases l with
    | nil =>
      simp only [List.dropLast_singleton, weight, List.countP_cons, List.countP_nil]
      by_cases hy : y ∈ c <;> simp [hy]
      omega
    | cons z l =>
      rw [List.dropLast_cons_cons, weight, weight, List.countP_cons]
      by_cases hy : y ∈ c
      · simp only [hy, if_true, not_true_eq_false, decide_false]
        simpa using hrest
      · simp only [hy, if_false, not_false_eq_true, decide_true, if_true]
        omega

theorem weight_le (c : Finset α) (n : Nat) (l : List α) : weight c n l ≤ n * l.length := by
  induction l generalizing n with
  | nil => exact Nat.zero_le _
  | cons y l ih =>
    have hrest := (ih (n - 1)).trans (Nat.mul_le_mul_right l.length (Nat.sub_le n 1))
    rw [weight, List.length_cons, Nat.mul_succ]
    split_ifs <;> omega

end Weight

section Competition

variable {cap room : Nat} {c : Finset α} {l : List α}

/-- What the uses so far leave to be charged, an empty place like an entry that only the list holds. -/
def credit (cap room : Nat) (c : Finset α) (l : List α) : Nat :=
  weight c cap l + (cap - room + 1) * (cap - l.length)

/-- A cache of `room` entries that holds the one that is used lacks this many of a full list. -/
theorem length_le_countP {x : α} (hx : x ∈ c) (hroom : c.card ≤ room) (hnodup : l.Nodup) (hl : x ∉ l) :
    l.length + 1 ≤ room + l.countP fun y => decide (y ∉ c) := by
  have hheld : l.countP (fun y => decide (y ∈ c)) ≤ (c.erase x).card := by
    rw [List.countP_eq_length_filter, ← List.toFinset_card_of_nodup (hnodup.filter _)]
    refine Finset.card_le_card fun y hy => ?_
    obtain ⟨hyl, hyc⟩ := List.mem_filter.mp (List.mem_toFinset.mp hy)
    exact Finset.mem_erase.mpr ⟨fun h => hl (h ▸ hyl), of_decide_eq_true hyc⟩
  have hsplit : l.length = l.countP (fun y => decide (y ∈ c)) + l.countP (fun y => decide (y ∉ c)) := by
    rw [List.length_eq_countP_add_countP fun y => decide (y ∈ c)]
    simp
  have herase := Finset.card_erase_add_one hx
  omega

/-- A use that finds its entry missing is paid for by the credit. -/
theorem InOrder.credit_touch (h : InOrder cap l) (hcap : 0 < cap) (hle : room ≤ cap) {x : α} (hx : x ∈ c)
    (hroom : c.card ≤ room) :
    (cap - room + 1) * (if x ∈ l then 0 else 1) + credit cap room c (Lru.touch cap x l) ≤ credit cap room c l := by
  have hlen := h.length_le
  unfold credit Lru.touch
  rw [weight, if_pos hx, Nat.zero_add, List.length_cons]
  by_cases hl : x ∈ l
  · have hpos := List.length_pos_of_mem hl
    have herase := weight_erase_le hx hl cap
    rw [if_pos hl, if_pos hl, List.length_erase_of_mem hl, show l.length - 1 + 1 = l.length by omega]
    omega
  rw [if_neg hl, if_neg hl]
  split_ifs with hfull
  · have hdrop := weight_dropLast_le c hlen
    have hlacks := length_le_countP hx hroom h.nodup hl
    rw [List.length_dropLast, show cap - (l.length - 1 + 1) = 0 by omega, show cap - l.length = 0 by omega]
    omega
  · have hback := weight_mono c (Nat.sub_le cap 1) l
    rw [show cap - l.length = cap - (l.length + 1) + 1 by omega,
      Nat.mul_succ (cap - room + 1) (cap - (l.length + 1))]
    omega

/-- What the other cache loads, and what it gives up, keeps the account. -/
theorem credit_serve (room : Nat) (h : InOrder cap l) {c' : Finset α} {x : α} (hc' : c' ⊆ insert x c) :
    credit cap room c' l + cap * c'.card ≤ credit cap room c l + cap * c.card + cap * if x ∈ c then 0 else 1 := by
  have hshrink := weight_shrink hc' h.nodup cap
  have hinsert := weight_insert_le c x cap l
  have hcard := Finset.card_le_card hc'
  have hgrow : (insert x c).card = c.card + if x ∈ c then 0 else 1 := by
    split_ifs with hx
    · rw [Finset.insert_eq_of_mem hx, Nat.add_zero]
    · exact Finset.card_insert_of_notMem hx
  have hcost : cap * ((insert x c).card - c'.card) + cap * c'.card = cap * (insert x c).card := by
    rw [← Nat.mul_add, Nat.sub_add_cancel hcard]
  have hsum : cap * (insert x c).card = cap * c.card + cap * if x ∈ c then 0 else 1 := by rw [hgrow, Nat.mul_add]
  unfold credit
  omega

theorem InOrder.misses_credit (h : InOrder cap l) (hcap : 0 < cap) (hle : room ≤ cap) (other : List (α × Finset α))
    (hother : Serves room c other) :
    (cap - room + 1) * misses cap l (other.map Prod.fst) ≤
      cap * served c other + credit cap room c l + cap * c.card := by
  induction other generalizing l c with
  | nil => exact Nat.zero_le _
  | cons entry other ih =>
    obtain ⟨x, c'⟩ := entry
    obtain ⟨hx, hsub, hroom, hrest⟩ := hother
    have hnext := ih (h.touch hcap x) hrest
    have hpaid := h.credit_touch hcap hle hx hroom
    have hserve := credit_serve room h hsub
    change (cap - room + 1) * ((if x ∈ l then 0 else 1) + misses cap (Lru.touch cap x l) (other.map Prod.fst)) ≤
      cap * ((if x ∈ c then 0 else 1) + served c' other) + _ + _
    rw [Nat.mul_add, Nat.mul_add]
    omega

/-- A recency list with room for `cap` entries against any cache with room for fewer, or as many: up to a constant it
loads no more than `cap / (cap - room + 1)` times as many. -/
theorem InOrder.misses_le (h : InOrder cap l) (hcap : 0 < cap) (hle : room ≤ cap) (other : List (α × Finset α))
    (hother : Serves room c other) :
    (cap - room + 1) * misses cap l (other.map Prod.fst) ≤ cap * served c other + cap * (cap + 1 + c.card) := by
  have hmisses := h.misses_credit hcap hle other hother
  have hcredit : credit cap room c l ≤ cap * (cap + 1) := by
    have hlen := h.length_le
    calc credit cap room c l ≤ cap * l.length + (cap + 1) * (cap - l.length) :=
          Nat.add_le_add (weight_le c cap l) (Nat.mul_le_mul_right _ (by omega))
      _ ≤ (cap + 1) * l.length + (cap + 1) * (cap - l.length) :=
          Nat.add_le_add_right (Nat.mul_le_mul_right _ (Nat.le_succ cap)) _
      _ = cap * (cap + 1) := by rw [← Nat.mul_add, Nat.add_sub_cancel' hlen, Nat.mul_comm]
  rw [Nat.mul_add cap (cap + 1)]
  omega

end Competition

end Lru

end NeuralDb.Library
