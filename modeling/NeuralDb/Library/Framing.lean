import Mathlib.Algebra.Order.Ring.Int
import Mathlib.Data.List.Sort
import Mathlib.Order.WithBot
import Mathlib.Tactic.Common

/-! Logs of self-delimiting records: decoding a whole log, and what a log cut at an arbitrary
length still holds. -/

namespace NeuralDb.Library

section Cut

variable {α β : Type}

/-- Take `n` cells off the front, if there are so many. -/
def cut (n : Nat) (bs : List β) : Option ({xs : List β // xs.length = n} × List β) :=
  if h : n ≤ bs.length then some (⟨bs.take n, List.length_take_of_le h⟩, bs.drop n) else none

theorem cut_append {n : Nat} {xs : List β} (h : xs.length = n) (rest : List β) :
    cut n (xs ++ rest) = some (⟨xs, h⟩, rest) := by
  have hle : n ≤ (xs ++ rest).length := by rw [List.length_append]; omega
  simp only [cut, dif_pos hle, List.take_left' h, List.drop_left' h]

/-- Cutting a field off a torn input succeeds exactly when the field is complete. -/
theorem cut_take {k : Nat} {xs : List β} (h : xs.length = k) (ys : List β) (n : Nat) :
    cut k ((xs ++ ys).take n) = if k ≤ n then some (⟨xs, h⟩, ys.take (n - k)) else none := by
  split_ifs with hk
  · rw [List.take_append, List.take_of_length_le (by omega), h]
    exact cut_append h _
  · rw [cut, dif_neg]
    rw [List.length_take]
    omega

theorem cut_length {n : Nat} {bs rest : List β} {xs : {xs : List β // xs.length = n}}
    (h : cut n bs = some (xs, rest)) : bs.length = n + rest.length := by
  unfold cut at h
  split_ifs at h with hle
  obtain ⟨-, rfl⟩ := Prod.mk.inj (Option.some.inj h)
  rw [List.length_drop]
  omega

/-- The records of `as` that lie entirely within the first `n` cells of their log. -/
def within (enc : α → List β) : Nat → List α → List α
  | _, [] => []
  | n, a :: as => if (enc a).length ≤ n then a :: within enc (n - (enc a).length) as else []

/-- The cells of the record that the cut at `n` falls into, none when it falls between records. -/
def torn (enc : α → List β) : Nat → List α → List β
  | _, [] => []
  | n, a :: as =>
    if (enc a).length ≤ n then torn enc (n - (enc a).length) as else (enc a).take n

theorem take_log (enc : α → List β) (n : Nat) (as : List α) :
    (as.flatMap enc).take n = (within enc n as).flatMap enc ++ torn enc n as := by
  induction as generalizing n with
  | nil => simp [within, torn]
  | cons a as ih =>
    rw [within, torn, List.flatMap_cons]
    split_ifs with h
    · rw [List.take_append, List.take_of_length_le h, ih, List.flatMap_cons, List.append_assoc]
    · exact List.take_append_of_le_length (by omega)

theorem torn_cases (enc : α → List β) (n : Nat) (as : List α) :
    torn enc n as = [] ∨ ∃ a ∈ as, ∃ k, 0 < k ∧ k < (enc a).length ∧ torn enc n as = (enc a).take k := by
  induction as generalizing n with
  | nil => exact .inl rfl
  | cons a as ih =>
    rw [torn]
    split_ifs with h
    · refine (ih (n - (enc a).length)).imp_right ?_
      rintro ⟨a', ha', hk⟩
      exact ⟨a', List.mem_cons_of_mem a ha', hk⟩
    · rcases Nat.eq_zero_or_pos n with rfl | hn
      · exact .inl List.take_zero
      · exact .inr ⟨a, List.mem_cons_self, n, hn, by omega, rfl⟩

theorem within_initial (enc : α → List β) (n : Nat) (as : List α) : within enc n as <+: as := by
  induction as generalizing n with
  | nil => exact List.prefix_rfl
  | cons a as ih =>
    rw [within]
    split_ifs
    · exact List.cons_prefix_cons.mpr ⟨rfl, ih _⟩
    · exact List.nil_prefix

/-- The complete records are the longest initial part of the log that lies within the cut. -/
theorem within_spec (enc : α → List β) (n : Nat) (as : List α) :
    ∃ k ≤ as.length, within enc n as = as.take k ∧ ((as.take k).flatMap enc).length ≤ n ∧
      (k < as.length → n < ((as.take (k + 1)).flatMap enc).length) := by
  induction as generalizing n with
  | nil => exact ⟨0, le_rfl, rfl, Nat.zero_le n, fun h => absurd h (lt_irrefl 0)⟩
  | cons a as ih =>
    rw [within]
    split_ifs with ha
    · obtain ⟨k, hk, hwithin, hle, hmax⟩ := ih (n - (enc a).length)
      refine ⟨k + 1, Nat.succ_le_succ hk, ?_, ?_, fun hlt => ?_⟩
      · rw [hwithin, List.take_succ_cons]
      · rw [List.take_succ_cons, List.flatMap_cons, List.length_append]
        omega
      · have hmax := hmax (Nat.lt_of_succ_lt_succ hlt)
        rw [List.take_succ_cons, List.flatMap_cons, List.length_append]
        omega
    · refine ⟨0, Nat.zero_le _, rfl, Nat.zero_le n, fun _ => ?_⟩
      rw [List.take_succ_cons, List.take_zero, List.flatMap_singleton]
      exact not_le.mp ha

end Cut

/-- A record format: an encoder and a decoder of one record, where no proper prefix of an encoded
record decodes. -/
structure Framing (α β : Type) where
  enc : α → List β
  dec : List β → Option (α × List β)
  dec_enc : ∀ a rest, dec (enc a ++ rest) = some (a, rest)
  dec_torn : ∀ a n, n < (enc a).length → dec ((enc a).take n) = none
  dec_shrinks : ∀ bs a rest, dec bs = some (a, rest) → rest.length < bs.length

namespace Framing

variable {α β : Type} (F : Framing α β)

/-- The read loop; `fuel` bounds the number of records. -/
def decodeLoop : Nat → List β → List α
  | 0, _ => []
  | fuel + 1, bs =>
    match F.dec bs with
    | none => []
    | some (a, rest) => a :: decodeLoop fuel rest

/-- Decode record after record until one is incomplete. -/
def decodeAll (bs : List β) : List α := F.decodeLoop bs.length bs

def encodeAll (as : List α) : List β := as.flatMap F.enc

theorem dec_nil : F.dec [] = none := by
  cases h : F.dec [] with
  | none => rfl
  | some p => exact absurd (F.dec_shrinks [] p.1 p.2 h) (Nat.not_lt_zero _)

theorem decodeLoop_fuel (fuel : Nat) (bs : List β) (h : bs.length ≤ fuel) :
    F.decodeLoop fuel bs = F.decodeAll bs := by
  induction fuel using Nat.strongRecOn generalizing bs with
  | ind fuel ih =>
    unfold decodeAll
    cases fuel with
    | zero => rw [Nat.le_zero.mp h]
    | succ fuel =>
      cases hlen : bs.length with
      | zero =>
        simp only [List.length_eq_zero_iff.mp hlen, decodeLoop, F.dec_nil]
      | succ n =>
        rw [decodeLoop, decodeLoop]
        cases hd : F.dec bs with
        | none => rfl
        | some p =>
          have hshort := F.dec_shrinks bs p.1 p.2 hd
          change p.1 :: F.decodeLoop fuel p.2 = p.1 :: F.decodeLoop n p.2
          rw [ih fuel (by omega) p.2 (by omega), ih n (by omega) p.2 (by omega)]

theorem decodeAll_none {bs : List β} (h : F.dec bs = none) : F.decodeAll bs = [] := by
  unfold decodeAll
  cases hlen : bs.length with
  | zero => rfl
  | succ n => rw [decodeLoop, h]

theorem decodeAll_some {bs rest : List β} {a : α} (h : F.dec bs = some (a, rest)) :
    F.decodeAll bs = a :: F.decodeAll rest := by
  have hshort := F.dec_shrinks bs a rest h
  obtain ⟨n, hn⟩ := Nat.exists_eq_succ_of_ne_zero (show bs.length ≠ 0 by omega)
  rw [decodeAll, hn, decodeLoop, h]
  exact congrArg (a :: ·) (F.decodeLoop_fuel n rest (by omega))

theorem decodeAll_encodeAll_append (as : List α) (bs : List β) :
    F.decodeAll (F.encodeAll as ++ bs) = as ++ F.decodeAll bs := by
  induction as with
  | nil => rfl
  | cons a as ih =>
    have hd : F.dec (F.encodeAll (a :: as) ++ bs) = some (a, F.encodeAll as ++ bs) := by
      rw [encodeAll, List.flatMap_cons, List.append_assoc]
      exact F.dec_enc a _
    rw [F.decodeAll_some hd, ih, List.cons_append]

theorem decodeAll_encodeAll (as : List α) : F.decodeAll (F.encodeAll as) = as := by
  have h := F.decodeAll_encodeAll_append as []
  rwa [List.append_nil, F.decodeAll_none F.dec_nil, List.append_nil] at h

theorem decodeAll_torn (n : Nat) (as : List α) : F.decodeAll (torn F.enc n as) = [] := by
  apply F.decodeAll_none
  rcases torn_cases F.enc n as with h | ⟨a, _, k, _, hk, h⟩
  · rw [h, F.dec_nil]
  · rw [h, F.dec_torn a k hk]

end Framing

end NeuralDb.Library
