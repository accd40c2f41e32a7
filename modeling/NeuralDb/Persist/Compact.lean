import NeuralDb.Hnsw.Deletion
import NeuralDb.Persist.Wal

/-! `compact`: a fresh index of the live slots, saved over the index file before the log is
truncated; and recovery from the two files. -/

namespace NeuralDb

/-- What `random_layer` returns: an `int` that is not negative. -/
abbrev Level := Fin (2 ^ 31)

/-- What the application sees of a slot. -/
abbrev Entry := UInt64 × Vec × Bytes

def VectorSlot.entry (v : VectorSlot) : Entry := (v.id, v.data, v.metadata)

/-- The live entries in slot order. -/
def live (vs : List VectorSlot) : List Entry := (liveSlots vs).map VectorSlot.entry

/-- The two files. -/
structure Disk where
  index : Option Bytes
  wal : Option Bytes

namespace HNSWIndex

variable {σ : Type} [LinearOrder σ] (rt : Runtime σ)

/-- The loop of `compact` over the slots `is`; `levels i` is drawn for the copy of slot `i`. -/
def compactLoop (s : HNSWIndex) (levels : Nat → Level) : List Nat → HNSWIndex → HNSWIndex
  | [], fresh => fresh
  | i :: is, fresh =>
    if s.isTombstoned i then compactLoop s levels is fresh
    else compactLoop s levels is
      (fresh.insertRaw rt (s.idMap.getD i 0) (s.rawVec i) (s.metadata.getD i []) (levels i))

def compacted (s : HNSWIndex) (levels : Nat → Level) : HNSWIndex :=
  compactLoop rt s levels (List.range s.numVectors) (new s.dim s.cfg)

/-- `compact`, when every file operation succeeds. -/
def compact (s : HNSWIndex) (levels : Nat → Level) (disk : Disk) : Disk :=
  let index := (s.compacted rt levels).save
  let (_, wal) := WAL.new disk.wal
  ⟨some index, some wal.checkpoint.1⟩

/-- The overload of `insert` that checks the size of the vector. -/
def insertVec (s : HNSWIndex) (id : UInt64) (vec : Vec) (metadata : Bytes) (level : Nat) :
    Except String HNSWIndex :=
  if vec.length = s.dim then .ok (s.insertRaw rt id vec metadata level)
  else .error "dimension mismatch"

/-- The `on_insert` of a recovery. The number counts the levels drawn so far. -/
def onInsert (levels : Nat → Level) (a : Except String (HNSWIndex × Nat)) (rec : WALRecord) :
    Except String (HNSWIndex × Nat) := do
  let (s, n) ← a
  let s ← s.insertVec rt rec.id rec.vec rec.metadata (levels n)
  pure (s, n + 1)

def onDelete (a : Except String (HNSWIndex × Nat)) (id : UInt64) : Except String (HNSWIndex × Nat) :=
  a.map fun (s, n) => (s.deleteVector id, n)

/-- Load the index file into a new index, which stays empty when there is no file. -/
def loadNew (dim : Nat) (cfg : HNSWConfig) (path : String) (junk : Nat → UInt8) (disk : Disk) :
    Except String HNSWIndex :=
  if disk.index.isNone then .ok (new dim cfg) else load (new dim cfg) path disk.index junk

/-- Load the index file and replay the log on it. -/
def recover (dim : Nat) (cfg : HNSWConfig) (path : String) (junk : Nat → UInt8) (levels : Nat → Level)
    (disk : Disk) : Except String HNSWIndex := do
  let base ← loadNew dim cfg path junk disk
  let out ← replay (onInsert rt levels) (some onDelete) disk.wal (.ok (base, 0))
  pure out.1

section Compacted

variable {s : HNSWIndex}

theorem insertRaw_maxLayer (s : HNSWIndex) (id : UInt64) (vec : Vec) (metadata : Bytes) (level : Nat) :
    (s.insertRaw rt id vec metadata level).maxLayer =
      if s.numVectors = 0 then (level : Int) else max s.maxLayer level := by
  split_ifs with h0
  · rw [insertRaw_first rt h0]
    exact if_pos h0
  · have happ : (s.append id vec metadata level).maxLayer = s.maxLayer := if_neg h0
    have hlink : ∀ n ep, (linkLayers (m := Id) rt rawAccess s.numVectors vec n ep
        (s.append id vec metadata level)).maxLayer = s.maxLayer := by
      intro n ep
      rw [(regraphed_linkLayers rt _ _ _ _ _).frame]
      exact happ
    rw [insertRaw_linked rt h0]
    exact (raise_maxLayer _ _ _).trans (by rw [hlink])

/-- What the loop of `compact` keeps, for the copy that it builds. -/
structure Copied (s fresh : HNSWIndex) (vs : List VectorSlot) : Prop extends Inv fresh where
  dim_eq : fresh.dim = s.dim
  cfg_eq : fresh.cfg = s.cfg
  maxLayer_lt : fresh.maxLayer < 2 ^ 31
  slots_eq : fresh.slots = vs

theorem Copied.insertRaw {fresh : HNSWIndex} {vs : List VectorSlot} (h : Copied s fresh vs)
    (id : UInt64) {vec : Vec} (hvec : vec.length = s.dim) (metadata : Bytes) (level : Level) :
    Copied s (fresh.insertRaw rt id vec metadata level) (vs ++ [⟨id, metadata, vec, false⟩]) where
  toInv := h.toInv.insertRaw rt id (hvec.trans h.dim_eq.symm) metadata level
  dim_eq := (insertRaw_table rt fresh id vec metadata level).dim_eq.trans h.dim_eq
  cfg_eq := (insertRaw_table rt fresh id vec metadata level).cfg_eq.trans h.cfg_eq
  maxLayer_lt := by
    have hlt := h.maxLayer_lt
    have hlevel := level.isLt
    rw [insertRaw_maxLayer]
    split_ifs <;> omega
  slots_eq := by
    rw [h.toAligned.slots_insertRaw rt id (hvec.trans h.dim_eq.symm), h.slots_eq]

theorem compactLoop_copied (hs : s.Aligned) (levels : Nat → Level) (is : List Nat)
    (his : ∀ i ∈ is, i < s.numVectors) {fresh : HNSWIndex} {vs : List VectorSlot}
    (h : Copied s fresh vs) :
    Copied s (compactLoop rt s levels is fresh) (vs ++ liveSlots (is.map s.slot)) := by
  induction is generalizing fresh vs with
  | nil => simpa [compactLoop, liveSlots] using h
  | cons i is ih =>
    have hrest : ∀ j ∈ is, j < s.numVectors := fun j hj => his j (List.mem_cons_of_mem i hj)
    rw [compactLoop]
    split_ifs with hi
    · have hskip : liveSlots ((i :: is).map s.slot) = liveSlots (is.map s.slot) := by
        simp [liveSlots, slot, hi]
      rw [hskip]
      exact ih hrest h
    · have hkeep : liveSlots ((i :: is).map s.slot) = s.slot i :: liveSlots (is.map s.slot) := by
        simp [liveSlots, slot, hi]
      have hslot : s.slot i = ⟨s.idMap.getD i 0, s.metadata.getD i [], s.rawVec i, false⟩ := by
        simp [slot, hi]
      rw [hkeep, List.append_cons, hslot]
      exact ih hrest (h.insertRaw rt _ (hs.rawVec_length (his i List.mem_cons_self)) _ _)

/-- The fresh index is in order and holds the live slots, in slot order. -/
theorem compacted_copied (hs : s.Aligned) (levels : Nat → Level) :
    Copied s (s.compacted rt levels) (liveSlots s.slots) := by
  have hnew : Copied s (new s.dim s.cfg) [] :=
    { inv_new s.dim s.cfg with
      dim_eq := rfl
      cfg_eq := rfl
      maxLayer_lt := (show (0 : Int) < 2 ^ 31 by decide)
      slots_eq := rfl }
  exact compactLoop_copied rt hs levels _ (fun i hi => List.mem_range.mp hi) hnew

end Compacted

end HNSWIndex

end NeuralDb
