import NeuralDb.Library.ByteCodec

/-! Writing over a list at an offset, and what is read back from which extent of it. -/

namespace NeuralDb.Library

variable {α : Type}

/-- The `n` entries from `off` on. -/
def extent (off n : Nat) (xs : List α) : List α := (xs.drop off).take n

/-- Write `ys` over `xs` from `off` on; a gap behind the end of `xs` is filled with `d`. -/
def overwrite (d : α) (xs : List α) (off : Nat) (ys : List α) : List α :=
  resize xs off d ++ ys ++ xs.drop (off + ys.length)

theorem extent_length {off n : Nat} {xs : List α} (h : off + n ≤ xs.length) : (extent off n xs).length = n := by
  rw [extent, List.length_take, List.length_drop]
  omega

theorem extent_extent {off n a k : Nat} (h : a + k ≤ n) (xs : List α) :
    extent a k (extent off n xs) = extent (off + a) k xs := by
  rw [extent, extent, extent, List.drop_take, List.take_take, List.drop_drop]
  congr 1
  omega

theorem overwrite_length (d : α) (xs : List α) (off : Nat) (ys : List α) :
    (overwrite d xs off ys).length = max xs.length (off + ys.length) := by
  rw [overwrite, List.length_append, List.length_append, resize_length, List.length_drop]
  omega

theorem extent_overwrite_self (d : α) (xs : List α) (off : Nat) (ys : List α) :
    extent off ys.length (overwrite d xs off ys) = ys := by
  rw [extent, overwrite, List.append_assoc, List.drop_left' (resize_length xs off d), List.take_left]

theorem extent_overwrite_before (d : α) {xs : List α} {off a k : Nat} (ys : List α) (h : a + k ≤ off)
    (hin : a + k ≤ xs.length) : extent a k (overwrite d xs off ys) = extent a k xs := by
  have hlen : (xs.take off).length = min off xs.length := List.length_take
  rw [extent, overwrite, resize, List.append_assoc, List.append_assoc,
    List.drop_append_of_le_length (by omega),
    List.take_append_of_le_length (by rw [List.length_drop]; omega), List.drop_take, List.take_take, extent]
  congr 1
  omega

theorem extent_overwrite_after (d : α) (xs : List α) {off a : Nat} {ys : List α} (h : off + ys.length ≤ a)
    (k : Nat) : extent a k (overwrite d xs off ys) = extent a k xs := by
  obtain ⟨b, rfl⟩ := Nat.exists_eq_add_of_le h
  have hlen : (resize xs off d ++ ys).length = off + ys.length := by rw [List.length_append, resize_length]
  rw [extent, overwrite, ← hlen, List.drop_append, List.drop_eq_nil_of_le (Nat.le_add_right _ b),
    List.nil_append, Nat.add_sub_cancel_left, List.drop_drop, hlen, extent]

end NeuralDb.Library
