import NeuralDb.Library.ByteCodec

/-! What the indexes take from outside: words, bytes, the similarity kernel and the sorting
routines of the standard library. -/

namespace NeuralDb

open Library

/-- The bit pattern of a `float`. -/
abbrev Word := UInt32

abbrev Vec := List Word

abbrev Bytes := List UInt8

/-- The four bytes of a `float` in memory and in files. -/
def wordBytes (w : Word) : Bytes := leBytes 4 w.toNat

def wordOfBytes (bs : Bytes) : Word := UInt32.ofNat (leVal bs)

@[simp] theorem wordBytes_length (w : Word) : (wordBytes w).length = 4 := leBytes_length 4 _

theorem wordOfBytes_wordBytes (w : Word) : wordOfBytes (wordBytes w) = w := by
  rw [wordOfBytes, wordBytes, leVal_leBytes_four, Nat.mod_eq_of_lt w.toNat_lt, UInt32.ofNat_toNat]

theorem unpack_zeros (dim m : Nat) (h : dim * 4 ≤ m) :
    unpack 4 wordOfBytes dim (List.replicate m 0) = List.replicate dim 0 := by
  induction dim generalizing m with
  | zero => rfl
  | succ dim ih =>
    have hhead : (List.replicate m (0 : UInt8)).take 4 = List.replicate 4 0 := by
      rw [List.take_replicate, Nat.min_eq_left (by omega)]
    rw [unpack, hhead, List.drop_replicate, ih (m - 4) (by omega)]
    rfl

/-- Vectors of the dimension of an index, as the pointer overloads are promised. -/
abbrev VecOf (dim : Nat) := { v : Vec // v.length = dim }

/-- `cosine_similarity_avx2` as a function into a linear order (no NaN), and the sorts by
descending score. The standard leaves the order of equal scores open, so a sort is any function
that meets its contract; minus infinity is the bottom of `WithBot σ`. -/
structure Runtime (σ : Type) [LinearOrder σ] where
  cosineSimilarity : Vec → Vec → σ
  sort : List (σ × Nat) → List (σ × Nat)
  sort_perm : ∀ l, (sort l).Perm l
  sort_ordered : ∀ l, (sort l).Pairwise fun a b => b.1 ≤ a.1
  partialSort : Nat → List (WithBot σ × Nat) → List (WithBot σ × Nat)
  partialSort_perm : ∀ k l, (partialSort k l).Perm l
  partialSort_ordered : ∀ k l, ((partialSort k l).take k).Pairwise fun a b => b.1 ≤ a.1
  partialSort_top : ∀ k l, ∀ a ∈ (partialSort k l).take k, ∀ b ∈ (partialSort k l).drop k, b.1 ≤ a.1

section Descending

variable {τ : Type} [LinearOrder τ]

def descending (a b : τ × Nat) : Prop := b.1 ≤ a.1

instance : DecidableRel (descending (τ := τ)) := fun a b => inferInstanceAs (Decidable (b.1 ≤ a.1))

instance : Std.Total (descending (τ := τ)) := ⟨fun a b => le_total b.1 a.1⟩

instance : IsTrans (τ × Nat) descending := ⟨fun _ _ _ hab hbc => le_trans hbc hab⟩

end Descending

/-- A runtime that sorts by insertion. -/
def Runtime.insertion {σ : Type} [LinearOrder σ] (sim : Vec → Vec → σ) : Runtime σ where
  cosineSimilarity := sim
  sort := List.insertionSort descending
  sort_perm := List.perm_insertionSort _
  sort_ordered := List.pairwise_insertionSort descending
  partialSort _ := List.insertionSort descending
  partialSort_perm _ := List.perm_insertionSort _
  partialSort_ordered _ l := (List.pairwise_insertionSort descending l).sublist (List.take_sublist _ _)
  partialSort_top k l a ha b hb := by
    have h := List.pairwise_insertionSort descending l
    rw [← List.take_append_drop k (l.insertionSort descending), List.pairwise_append] at h
    exact h.2.2 a ha b hb

/-- A runtime for runs on fixed inputs: vectors are compared by their first words. -/
def Runtime.sample : Runtime Nat :=
  .insertion fun a b => (a.headD 0).toNat * (b.headD 0).toNat

end NeuralDb
