import NeuralDb.Runtime

/-! The brute-force index: a table of vector slots, searched by scoring every slot. -/

namespace NeuralDb

/-- The struct `Vector` of the source. -/
structure VectorSlot where
  id : UInt64
  metadata : Bytes
  data : Vec
  deleted : Bool
  deriving DecidableEq

structure SearchResult (σ : Type) where
  id : UInt64
  score : WithBot σ
  metadata : Bytes

structure FlatIndex where
  dim : Nat
  vectors : List VectorSlot

/-- The loop of `delete_vector`: the first slot with this id is marked, deleted before or not. -/
def markFirst (id : UInt64) : List VectorSlot → List VectorSlot
  | [] => []
  | v :: vs => if v.id = id then { v with deleted := true } :: vs else v :: markFirst id vs

/-- The slots that are not deleted. -/
def liveSlots (vs : List VectorSlot) : List VectorSlot := vs.filter fun v => !v.deleted

namespace FlatIndex

def new (dim : Nat) : FlatIndex := ⟨dim, []⟩

def insert (f : FlatIndex) (id : UInt64) (vec : Vec) (metadata : Bytes) : FlatIndex :=
  { f with vectors := f.vectors ++ [⟨id, metadata, vec, false⟩] }

def deleteVector (f : FlatIndex) (id : UInt64) : FlatIndex :=
  { f with vectors := markFirst id f.vectors }

def compact (f : FlatIndex) : FlatIndex :=
  { f with vectors := f.vectors.filter fun v => !v.deleted }

def size (f : FlatIndex) : Nat := f.vectors.length

def liveSize (f : FlatIndex) : Nat := f.vectors.countP fun v => !v.deleted

variable {σ : Type} [LinearOrder σ]

/-- The scoring loop: a slot that is not eligible keeps the minus-infinity sentinel. -/
def scores (rt : Runtime σ) (f : FlatIndex) (eligible : VectorSlot → Bool) (query : Vec) :
    List (WithBot σ × Nat) :=
  f.vectors.zipIdx.map fun p =>
    (if eligible p.1 then (rt.cosineSimilarity query p.1.data : WithBot σ) else ⊥, p.2)

/-- The part that `search` and `search_filtered` share: score, sort the best `k` to the front, and
collect until the sentinel shows up. A negative `k` is undefined in the source. -/
def searchWith (rt : Runtime σ) (f : FlatIndex) (eligible : VectorSlot → Bool) (query : Vec)
    (k : Int) : List (SearchResult σ) :=
  let actualK := min k.toNat f.vectors.length
  let sorted := rt.partialSort actualK (f.scores rt eligible query)
  ((sorted.take actualK).takeWhile fun p => decide (p.1 ≠ ⊥)).filterMap fun p =>
    f.vectors[p.2]?.map fun v => ⟨v.id, p.1, v.metadata⟩

def search (rt : Runtime σ) (f : FlatIndex) (query : Vec) (k : Int) : List (SearchResult σ) :=
  f.searchWith rt (fun v => !v.deleted) query k

def searchFiltered (rt : Runtime σ) (f : FlatIndex) (query : Vec) (k : Int) (filter : Bytes → Bool) :
    List (SearchResult σ) :=
  f.searchWith rt (fun v => !v.deleted && filter v.metadata) query k

end FlatIndex

/-- The slots of an id, in slot order. -/
def copies (x : UInt64) (vs : List VectorSlot) : List VectorSlot := vs.filter fun v => v.id == x

def tombstoned (v : VectorSlot) : VectorSlot := { v with deleted := true }

theorem markFirst_length (id : UInt64) (vs : List VectorSlot) : (markFirst id vs).length = vs.length := by
  induction vs with
  | nil => rfl
  | cons v vs ih =>
    rw [markFirst]
    split_ifs
    · rfl
    · exact congrArg (· + 1) ih

theorem copies_markFirst (x : UInt64) (vs : List VectorSlot) :
    copies x (markFirst x vs) = (copies x vs).modifyHead tombstoned := by
  induction vs with
  | nil => rfl
  | cons v vs ih =>
    rw [markFirst]
    split_ifs with hv
    · simp [copies, hv, tombstoned]
    · simpa [copies, hv] using ih

theorem copies_markFirst_ne {x id : UInt64} (h : id ≠ x) (vs : List VectorSlot) :
    copies x (markFirst id vs) = copies x vs := by
  induction vs with
  | nil => rfl
  | cons v vs ih =>
    rw [markFirst]
    split_ifs with hv
    · simp [copies, hv, h]
    · simp only [copies, List.filter_cons] at ih ⊢
      rw [ih]

end NeuralDb
