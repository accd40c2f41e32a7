import Mathlib.Order.Nat
import Mathlib.Tactic.Common

/-! Newcomers that join the groups of a hierarchy layer by layer, from the top down. On every layer a
newcomer heads a group of its own until it joins there; then its group goes over to the one it joins.
Others may join a newcomer on a layer where it is still waiting, so the question is whether two of them
can come to wait for each other. They cannot, because the waiting on a layer can be ranked. -/

namespace NeuralDb.Library

/-- The head of each one's group on each layer, a rank of the heads, and the layers on which a newcomer
has not joined yet. -/
structure Groups (α : Type) where
  group : Nat → α → α
  rank : Nat → α → Nat
  pending : Nat → α → Prop

namespace Groups

variable {α : Type} (γ : Groups α)

/-- A newcomer that has joined nowhere, so that nobody can have met it. -/
def Hidden (q : α) : Prop := ∀ l, γ.pending l q

/-- While the group of `a` waits to join, `b` is in it too. -/
def Follows (l : Nat) (a b : α) : Prop := γ.pending l (γ.group l a) → γ.group l b = γ.group l a

/-- What `q`, which has joined on the layer above, may meet next on layer `l`. -/
structure Behind (l : Nat) (q x : α) : Prop where
  rank_lt : γ.rank l (γ.group l x) < γ.rank l q
  follows : γ.Follows (l + 1) (γ.group l x) q

structure Coherent (on : Nat → α → Prop) : Prop where
  own : ∀ l q, γ.pending l q → γ.group l q = q
  alone : ∀ q, γ.Hidden q → ∀ l x, γ.group l x = q → x = q
  nested : ∀ l x, on (l + 1) x → γ.Follows (l + 1) (γ.group l x) x
  bounded : ∀ l, ∃ b, ∀ x, γ.rank l x < b

/-- `q` can join the group of `e` on layer `k`. -/
structure CanJoin (on : Nat → α → Prop) (k : Nat) (q e : α) : Prop where
  pending : γ.pending k q
  seen : ¬ γ.Hidden e
  apart : γ.group k e ≠ q
  follows : on (k + 1) q → γ.Follows (k + 1) (γ.group k e) q
  behind : ¬ γ.Hidden q → on (k + 1) q ∧ γ.rank k (γ.group k e) < γ.rank k q

variable {γ} {on : Nat → α → Prop} {l k b : Nat} {p q x y e : α}

theorem follows_refl (l : Nat) (x : α) : γ.Follows l x x := fun _ => rfl

theorem Follows.trans (hxy : γ.Follows l x y) (hyp : γ.Follows l y p) : γ.Follows l x p := by
  intro hx
  have hy := hxy hx
  exact (hyp (hy ▸ hx)).trans hy

/-- Whoever shares a group with one that can be met can be met. -/
theorem Coherent.seen (h : γ.Coherent on) (hx : ¬ γ.Hidden x) (hxy : γ.group l y = γ.group l x) :
    ¬ γ.Hidden y := by
  intro hy
  have hown := h.own l y (hy l)
  exact hx (h.alone y hy l x (hxy.symm.trans hown) ▸ hy)

theorem Behind.canJoin (h : γ.Behind l q x) (hpending : γ.pending l q) (hseen : ¬ γ.Hidden x)
    (hon : on (l + 1) q) : γ.CanJoin on l q x where
  pending := hpending
  seen := hseen
  apart hq := by
    have hlt := h.rank_lt
    rw [hq] at hlt
    exact lt_irrefl _ hlt
  follows _ := h.follows
  behind _ := ⟨hon, h.rank_lt⟩

/-! ### A newcomer -/

section Enter

variable (γ) in
def enter (n : α) : Groups α := { γ with pending := fun l x => γ.pending l x ∨ x = n }

variable {n : α}

theorem Hidden.of_enter (h : (γ.enter n).Hidden x) (hx : x ≠ n) : γ.Hidden x :=
  fun l => (h l).resolve_right hx

theorem hidden_enter (n : α) : (γ.enter n).Hidden n := fun _ => .inr rfl

theorem Hidden.enter (h : γ.Hidden x) : (γ.enter n).Hidden x := fun l => .inl (h l)

theorem Follows.enter (h : γ.Follows l x y) (hx : γ.group l x ≠ n) : (γ.enter n).Follows l x y :=
  fun hp => h (hp.resolve_right hx)

theorem Coherent.enter {on' : Nat → α → Prop} (h : γ.Coherent on) (hn : ∀ l x, γ.group l x = n ↔ x = n)
    (hon : ∀ l x, x ≠ n → on' l x → on l x) : (γ.enter n).Coherent on' where
  own l q hq := by
    rcases hq with hq | rfl
    · exact h.own l q hq
    · exact (hn l q).mpr rfl
  alone q hq l x hx := by
    by_cases hqn : q = n
    · subst hqn
      exact (hn l x).mp hx
    · exact h.alone q (hq.of_enter hqn) l x hx
  nested l x hx := by
    by_cases hxn : x = n
    · have hgroup : (γ.enter n).group l x = x := hxn ▸ (hn l x).mpr hxn
      rw [hgroup]
      exact follows_refl (l + 1) x
    · have hgroup : γ.group l x ≠ n := fun hc => hxn ((hn l x).mp hc)
      exact (h.nested l x (hon _ x hxn hx)).enter fun hc => hgroup ((hn _ _).mp hc)
  bounded := h.bounded

theorem Behind.enter (h : γ.Behind l q x) (hn : ∀ l x, γ.group l x = n ↔ x = n) (hx : x ≠ n) :
    (γ.enter n).Behind l q x where
  rank_lt := h.rank_lt
  follows := h.follows.enter fun hc => hx ((hn l x).mp ((hn _ _).mp hc))

theorem CanJoin.enter {on' : Nat → α → Prop} (h : γ.CanJoin on k q x)
    (hn : ∀ l x, γ.group l x = n ↔ x = n) (hx : x ≠ n) (hon : on' (k + 1) q ↔ on (k + 1) q) :
    (γ.enter n).CanJoin on' k q x where
  pending := .inl h.pending
  seen hx' := h.seen (hx'.of_enter hx)
  apart := h.apart
  follows hq := (h.follows (hon.mp hq)).enter fun hc => hx ((hn k x).mp ((hn _ _).mp hc))
  behind hq := by
    obtain ⟨hq', hlt⟩ := h.behind fun hc => hq hc.enter
    exact ⟨hon.mpr hq', hlt⟩

end Enter

/-! ### A newcomer that is done -/

section Leave

variable (γ) in
def leave (q : α) : Groups α := { γ with pending := fun l x => γ.pending l x ∧ x ≠ q }

theorem Follows.leave (h : γ.Follows l x y) : (γ.leave q).Follows l x y := fun hp => h hp.1

theorem Coherent.leave (h : γ.Coherent on) (q : α) : (γ.leave q).Coherent on where
  own l p hp := h.own l p hp.1
  alone p hp := h.alone p fun l => (hp l).1
  nested l x hx := (h.nested l x hx).leave
  bounded := h.bounded

theorem Behind.leave (h : γ.Behind l p x) : (γ.leave q).Behind l p x := ⟨h.rank_lt, h.follows.leave⟩

theorem CanJoin.leave (h : γ.CanJoin on k p x) (hp : p ≠ q) : (γ.leave q).CanJoin on k p x where
  pending := ⟨h.pending, hp⟩
  seen hx := h.seen fun l => (hx l).1
  apart := h.apart
  follows hq := (h.follows hq).leave
  behind hq := h.behind fun hc => hq fun l => ⟨hc l, hp⟩

end Leave

/-! ### Joining a group -/

section Join

variable [DecidableEq α]

variable (γ) in
/-- The group of `q` on layer `k` goes over to that of `e`. On the layer below, whoever is in the group of
`q` on layer `k` now comes after all others, who are ranked below `b`. -/
def join (k : Nat) (q e : α) (b : Nat) : Groups α where
  group l x := if l = k ∧ γ.group l x = q then γ.group k e else γ.group l x
  rank l x := if l + 1 = k ∧ γ.group k x = q then γ.rank l x + b else γ.rank l x
  pending l x := γ.pending l x ∧ ¬ (l = k ∧ x = q)

theorem join_group_self (h : γ.group k x = q) : (γ.join k q e b).group k x = γ.group k e :=
  if_pos ⟨rfl, h⟩

theorem join_group_of_not (h : ¬ (l = k ∧ γ.group l x = q)) : (γ.join k q e b).group l x = γ.group l x :=
  if_neg h

theorem join_group_congr (h : γ.group l x = γ.group l y) :
    (γ.join k q e b).group l x = (γ.join k q e b).group l y := by
  simp only [join, h]

theorem join_rank_self (x : α) : (γ.join k q e b).rank k x = γ.rank k x :=
  if_neg fun hc => Nat.succ_ne_self k hc.1

theorem join_pending_other (h : p ≠ q) : (γ.join k q e b).pending l p ↔ γ.pending l p :=
  and_iff_left fun hc => h hc.2

theorem Hidden.of_join (h : (γ.join k q e b).Hidden p) : p ≠ q ∧ γ.Hidden p :=
  ⟨fun hc => (h k).2 ⟨rfl, hc⟩, fun l => (h l).1⟩

theorem Hidden.join (h : γ.Hidden p) (hp : p ≠ q) : (γ.join k q e b).Hidden p :=
  fun l => (join_pending_other hp).mpr (h l)

theorem Follows.join (h : γ.Follows l x y) (hq : γ.pending k q) : (γ.join k q e b).Follows l x y := by
  intro hp
  apply join_group_congr
  apply h
  by_cases hc : l = k ∧ γ.group l x = q
  · obtain ⟨rfl, hx⟩ := hc
    rwa [hx]
  · rw [join_group_of_not hc] at hp
    exact hp.1

variable (hγ : γ.Coherent on) (hj : γ.CanJoin on k q e)

include hγ hj

omit [DecidableEq α] in
/-- One that can be met is in the group of `q`, so `q` can be met too. -/
theorem CanJoin.on_of_seen (hx : ¬ γ.Hidden x) (hxq : γ.group k x = q) : ¬ γ.Hidden q ∧ on (k + 1) q := by
  have hq : ¬ γ.Hidden q := fun hq => hx (hγ.alone q hq k x hxq ▸ hq)
  exact ⟨hq, (hj.behind hq).1⟩

theorem Coherent.join (b : Nat) : (γ.join k q e b).Coherent on where
  own l p hp := by
    have hown := hγ.own l p hp.1
    rw [join_group_of_not fun hc => hp.2 ⟨hc.1, hown.symm.trans hc.2⟩, hown]
  alone p hp l x hx := by
    have hhidden := hp.of_join.2
    by_cases hc : l = k ∧ γ.group l x = q
    · obtain ⟨rfl, hxq⟩ := hc
      rw [join_group_self hxq] at hx
      exact absurd (hγ.alone p hhidden l e hx ▸ hhidden) hj.seen
    · rw [join_group_of_not hc] at hx
      exact hγ.alone p hhidden l x hx
  nested l x hx := by
    have hnested := hγ.nested l x hx
    by_cases hc : l = k ∧ γ.group l x = q
    · obtain ⟨rfl, hxq⟩ := hc
      have hon : on (l + 1) q := by
        by_cases hq : γ.Hidden q
        · exact hγ.alone q hq l x hxq ▸ hx
        · exact (hj.behind hq).1
      rw [join_group_self hxq]
      rw [hxq] at hnested
      exact ((hj.follows hon).trans hnested).join hj.pending
    · rw [join_group_of_not hc]
      exact hnested.join hj.pending
  bounded l := by
    obtain ⟨c, hc⟩ := hγ.bounded l
    refine ⟨c + b, fun x => ?_⟩
    have hx := hc x
    simp only [Groups.join]
    split_ifs <;> omega

/-- The others keep their place behind what they have met. -/
theorem Behind.join (h : γ.Behind l p x) (hx : ¬ γ.Hidden x) (b : Nat) : (γ.join k q e b).Behind l p x := by
  by_cases hc : l = k ∧ γ.group l x = q
  · obtain ⟨rfl, hxq⟩ := hc
    obtain ⟨hq, hon⟩ := hj.on_of_seen hγ hx hxq
    have hrank := h.rank_lt
    have hfollows := h.follows
    rw [hxq] at hrank hfollows
    refine ⟨?_, ?_⟩
    · rw [join_group_self hxq, join_rank_self, join_rank_self]
      exact (hj.behind hq).2.trans hrank
    · rw [join_group_self hxq]
      exact ((hj.follows hon).trans hfollows).join hj.pending
  · refine ⟨?_, ?_⟩
    · rw [join_group_of_not hc]
      have hrank := h.rank_lt
      simp only [Groups.join]
      by_cases hl : l + 1 = k ∧ γ.group k (γ.group l x) = q
      · -- the head is moved up, and `p` along with it
        obtain ⟨rfl, hhead⟩ := hl
        have hp : γ.group (l + 1) p = q := (h.follows (hhead.symm ▸ hj.pending)).trans hhead
        rw [if_pos ⟨rfl, hhead⟩, if_pos ⟨rfl, hp⟩]
        exact Nat.add_lt_add_right hrank b
      · rw [if_neg hl]
        split_ifs
        · exact hrank.trans_le (Nat.le_add_right _ _)
        · exact hrank
    · rw [join_group_of_not hc]
      exact h.follows.join hj.pending

theorem CanJoin.other {j : Nat} (h : γ.CanJoin on j p x) (hp : p ≠ q) (b : Nat) :
    (γ.join k q e b).CanJoin on j p x where
  pending := (join_pending_other hp).mpr h.pending
  seen hx := h.seen hx.of_join.2
  apart := by
    by_cases hc : j = k ∧ γ.group j x = q
    · obtain ⟨rfl, hxq⟩ := hc
      obtain ⟨hq, -⟩ := hj.on_of_seen hγ h.seen hxq
      rw [join_group_self hxq]
      intro hep
      by_cases hph : γ.Hidden p
      · exact hj.seen (hγ.alone p hph j e hep ▸ hph)
      · have hlt := (h.behind hph).2
        have hlt' := (hj.behind hq).2
        rw [hxq] at hlt
        rw [hep] at hlt'
        exact lt_asymm hlt hlt'
    · rw [join_group_of_not hc]
      exact h.apart
  follows hon := by
    by_cases hc : j = k ∧ γ.group j x = q
    · obtain ⟨rfl, hxq⟩ := hc
      have hfollows := h.follows hon
      rw [hxq] at hfollows
      rw [join_group_self hxq]
      exact ((hj.follows (hj.on_of_seen hγ h.seen hxq).2).trans hfollows).join hj.pending
    · rw [join_group_of_not hc]
      exact (h.follows hon).join hj.pending
  behind hph := by
    obtain ⟨hon, hlt⟩ := h.behind fun hc => hph (hc.join hp)
    exact ⟨hon, (Behind.join hγ hj ⟨hlt, h.follows hon⟩ h.seen b).rank_lt⟩

/-- What `q` has met on the layer where it has joined lies ahead of it on the layer below. -/
theorem CanJoin.joined (hk : l + 1 = k) (hb : ∀ x, γ.rank l x < b) (hx : on k x)
    (hgroup : γ.group k x = γ.group k e) : (γ.join k q e b).Behind l q x := by
  subst hk
  have hown := hγ.own (l + 1) q hj.pending
  have hnested := hγ.nested l x hx
  have hnot : γ.group (l + 1) (γ.group l x) ≠ q := by
    intro hc
    have hxq := (hnested (hc.symm ▸ hj.pending)).trans hc
    exact hj.apart (hgroup.symm.trans hxq)
  have hsame : (γ.join (l + 1) q e b).group l x = γ.group l x :=
    join_group_of_not fun hc => Nat.succ_ne_self l hc.1.symm
  refine ⟨?_, ?_⟩
  · rw [hsame]
    simp only [Groups.join]
    rw [if_neg fun hc => hnot hc.2, if_pos (And.intro trivial hown)]
    exact (hb _).trans_le (Nat.le_add_left _ _)
  · rw [hsame]
    intro hp
    rw [join_group_of_not fun hc => hnot hc.2] at hp ⊢
    rw [join_group_self hown, ← hgroup]
    exact hnested hp.1

end Join

end Groups

end NeuralDb.Library
