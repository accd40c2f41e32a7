import Mathlib.Tactic.Common
import NeuralDb.Runtime

/-! The numpy arrays that Python passes for vectors. `get_ptr` looks at the shape of an array, but not at its
strides, and the index reads one float after the other from where the array begins. -/

namespace NeuralDb

open Library

/-- How a call of the module fails. -/
inductive PyError where
  | cast
  | unicode
  | invalidArgument (message : String)
  /-- an `int` overflows, or a read leaves the memory of an array -/
  | undefined
  deriving DecidableEq

theorem exists_of_map_ok {ε α β : Type} {x : Except ε α} {g : α → β} {b : β} (h : x.map g = .ok b) :
    ∃ a, x = .ok a ∧ g a = b := by
  cases x with
  | error e => contradiction
  | ok a => exact ⟨a, rfl, Except.ok.inj h⟩

/-- An array of `float32`, as a view of a block of memory. Other objects are converted to one that is contiguous. -/
structure NumpyArray where
  memory : Bytes
  /-- The place of the first element. -/
  ptr : Nat
  shape : List Nat
  /-- The bytes from one element of the first axis to the next. -/
  stride : Int
  inMemory : ∀ n, shape = [n] → ∀ i < n, 0 ≤ ptr + i * stride ∧ ptr + i * stride + 4 ≤ memory.length

namespace NumpyArray

variable (a : NumpyArray)

/-- The word `i` strides after the first. -/
def word (stride : Int) (i : Nat) : Word := wordOfBytes ((a.memory.drop (a.ptr + i * stride).toNat).take 4)

/-- The floats that numpy shows for an array with one axis. -/
def elements : Vec := (List.range (a.shape.headD 0)).map (a.word a.stride)

/-- The `n` floats that are read through the pointer, where they all lie in the memory of the array. -/
def pointed (n : Nat) : Option Vec :=
  if n = 0 ∨ a.ptr + n * 4 ≤ a.memory.length then some ((List.range n).map (a.word 4)) else none

/-- `get_ptr`, with the floats behind the pointer. -/
def getPtr (expectedDim : Nat) : Except PyError (Option Vec) :=
  if a.shape ≠ [expectedDim] then
    .error (.invalidArgument ("Expected 1D float32 array of size " ++ toString expectedDim))
  else .ok (a.pointed expectedDim)

def Contiguous : Prop := a.stride = 4 ∨ a.shape.headD 0 ≤ 1

instance : Decidable a.Contiguous := inferInstanceAs (Decidable (_ ∨ _))

def ofVec (v : Vec) : NumpyArray where
  memory := v.flatMap wordBytes
  ptr := 0
  shape := [v.length]
  stride := 4
  inMemory := by
    intro n hn i hi
    obtain rfl : v.length = n := (List.cons.inj hn).1
    rw [flatMap_length_const wordBytes_length]
    omega

variable {a} {n : Nat}

theorem elements_length (h : a.shape = [n]) : a.elements.length = n := by
  rw [elements, h, List.length_map, List.length_range]
  rfl

/-- Behind the pointer to a contiguous array are its elements. -/
theorem pointed_of_contiguous (h : a.Contiguous) (hshape : a.shape = [n]) : a.pointed n = some a.elements := by
  have helements : a.elements = (List.range n).map (a.word a.stride) := by
    rw [elements, hshape]
    rfl
  have hread : n = 0 ∨ a.ptr + n * 4 ≤ a.memory.length := by
    rcases Nat.eq_zero_or_pos n with h0 | hpos
    · exact .inl h0
    · have hlast := a.inMemory n hshape (n - 1) (by omega)
      rcases h with hstride | hone
      · rw [hstride] at hlast
        omega
      · have hn : n = 1 := by
          rw [hshape] at hone
          exact le_antisymm hone hpos
        subst hn
        have hfirst := hlast.2
        simp only [Nat.sub_self, Nat.cast_zero, Int.zero_mul, Int.add_zero] at hfirst
        omega
  rw [pointed, if_pos hread, helements]
  refine congrArg some (List.map_congr_left fun i hi => ?_)
  rcases h with hstride | hone
  · rw [hstride]
  · have hi0 : i = 0 := by
      rw [hshape] at hone
      have hlt := List.mem_range.mp hi
      change n ≤ 1 at hone
      omega
    rw [hi0, word, word, Nat.cast_zero, Int.zero_mul, Int.zero_mul]

theorem getPtr_of_shape (h : a.shape = [n]) : a.getPtr n = .ok (a.pointed n) := if_neg fun hne => hne h

theorem getPtr_of_ne (h : a.shape ≠ [n]) : ∃ message, a.getPtr n = .error (.invalidArgument message) := ⟨_, if_pos h⟩

end NumpyArray

end NeuralDb
