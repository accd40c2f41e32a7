import NeuralDb.Hnsw.State
import NeuralDb.Library.BeamSearch

/-! The operations of the HNSW index. Vectors are read through an accessor in an arbitrary monad:
the plain index reads `raw_vectors_`, the paged index goes through its page cache. -/

namespace NeuralDb

open Library

/-- `get_vec_` and the later reading of `dim_` floats through the pointer it returned. -/
structure VecAccess (m : Type → Type) where
  Ptr : Type
  get : Nat → m Ptr
  read : Ptr → m Vec

namespace HNSWIndex

/-- Without a custom accessor a pointer is a position in `raw_vectors_`. -/
def rawAccess (s : HNSWIndex) : VecAccess Id := ⟨Nat, fun i => i, fun i => s.rawVec i⟩

section Operations

variable {m : Type → Type} [Monad m] {σ : Type} [LinearOrder σ] (rt : Runtime σ)

def simTo (acc : VecAccess m) (query : Vec) (x : Nat) : m σ := do
  let p ← acc.get x
  let v ← acc.read p
  pure (rt.cosineSimilarity query v)

/-- `search_layer_`: a beam search on the links of one layer, its results sorted. The loop leaves by
itself after at most one pass for each node, which is the fuel it gets. -/
def searchLayer (acc : VecAccess m) (s : HNSWIndex) (query : Vec) (ep : Nat) (ef : Int) (layer : Nat) :
    m (List (σ × Nat)) := do
  let out ← Beam.search (s.links layer) (simTo rt acc query) ef s.graph.length ep
  pure (rt.sort out)

/-- `select_neighbours_`: the best `M` of the candidates. -/
def selectNeighbours (candidates : List (σ × Nat)) (M : Int) : List Nat :=
  ((rt.sort candidates).take M.toNat).map Prod.snd

/-- `if (!candidates.empty()) ep = candidates.front().second`. -/
def front (candidates : List (σ × Nat)) (ep : Nat) : Nat :=
  match candidates with
  | [] => ep
  | c :: _ => c.2

/-- The greedy descent over the layers `floor + n`, …, `floor + 1`. -/
def descend (acc : VecAccess m) (s : HNSWIndex) (query : Vec) (floor : Nat) : Nat → Nat → m Nat
  | 0, ep => pure ep
  | n + 1, ep => do
    let candidates ← searchLayer rt acc s query ep 1 (floor + (n + 1))
    descend acc s query floor n (front candidates ep)

def maxLinks (s : HNSWIndex) (lc : Nat) : Int := if lc = 0 then s.cfg.M * 2 else s.cfg.M

/-- Score the links of `nb` against its own vector, whose pointer is fetched once. -/
def scoreLinks (acc : VecAccess m) (nbVec : acc.Ptr) : List Nat → m (List (σ × Nat))
  | [] => pure []
  | x :: xs => do
    let p ← acc.get x
    let a ← acc.read nbVec
    let b ← acc.read p
    let rest ← scoreLinks acc nbVec xs
    pure ((rt.cosineSimilarity a b, x) :: rest)

/-- The locked region that adds the back link from `nb` to `q` and prunes the list of `nb`. -/
def backLink (acc : VecAccess m) (s : HNSWIndex) (lc q nb : Nat) : m HNSWIndex :=
  let s := s.pushLink lc nb q
  if s.maxLinks lc < (s.links lc nb).length then do
    let nbVec ← acc.get nb
    let cands ← scoreLinks rt acc nbVec (s.links lc nb)
    pure (s.setLinks lc nb (selectNeighbours rt cands (s.maxLinks lc)))
  else pure s

def backLinks (access : HNSWIndex → VecAccess m) (lc q : Nat) : List Nat → HNSWIndex → m HNSWIndex
  | [], s => pure s
  | nb :: nbs, s => do
    let s ← backLink rt (access s) s lc q nb
    backLinks access lc q nbs s

/-- The linking loop over the layers `n - 1`, …, `0`. -/
def linkLayers (access : HNSWIndex → VecAccess m) (q : Nat) (vec : Vec) : Nat → Nat → HNSWIndex → m HNSWIndex
  | 0, _, s => pure s
  | lc + 1, ep, s => do
    let candidates ← searchLayer rt (access s) s vec ep (max s.cfg.efConstruction s.cfg.M) lc
    let neighbours := selectNeighbours rt candidates s.cfg.M
    let s ← backLinks rt access lc q neighbours (s.setLinks lc q neighbours)
    linkLayers access q vec lc (front candidates ep) s

/-- `insert`, where `level` is the layer that `random_layer` drew. -/
def insert (access : HNSWIndex → VecAccess m) (s : HNSWIndex) (id : UInt64) (vec : Vec)
    (metadata : Bytes) (level : Nat) : m HNSWIndex :=
  let q := s.numVectors
  let s := s.append id vec metadata level
  if q = 0 then pure s
  else do
    let curMax := s.maxLayer
    let ep ← descend rt (access s) s vec level (curMax - level).toNat s.entryPoint
    let s ← linkLayers rt access q vec (min (level : Int) curMax + 1).toNat ep s
    pure (s.raise q level)

/-- The entry point of a search: the first live slot when the entry point is deleted. -/
def liveEntry (s : HNSWIndex) : Option Nat :=
  if s.isTombstoned s.entryPoint then (List.range s.numVectors).find? fun i => !s.isTombstoned i
  else some s.entryPoint

/-- The collecting loop of `search`; the stop test comes after an append. -/
def collect (s : HNSWIndex) (k : Int) : List (σ × Nat) → List (σ × UInt64) → List (σ × UInt64)
  | [], out => out
  | c :: cs, out =>
    if s.isTombstoned c.2 then collect s k cs out
    else
      let out := out ++ [(c.1, s.idMap.getD c.2 0)]
      if (out.length : Int) = k then out else collect s k cs out

def search (acc : VecAccess m) (s : HNSWIndex) (query : Vec) (k : Int) : m (List (σ × UInt64)) :=
  if s.numVectors = 0 then pure []
  else
    match s.liveEntry with
    | none => pure []
    | some ep => do
      let ep ← descend rt acc s query 0 s.maxLayer.toNat ep
      let candidates ← searchLayer rt acc s query ep s.cfg.efSearch 0
      pure (s.collect k candidates [])

end Operations

section Plain

variable {σ : Type} [LinearOrder σ] (rt : Runtime σ)

/-- `insert` on an index without a custom accessor. -/
def insertRaw (s : HNSWIndex) (id : UInt64) (vec : Vec) (metadata : Bytes) (level : Nat) : HNSWIndex :=
  insert (m := Id) rt rawAccess s id vec metadata level

/-- `search` on an index without a custom accessor. -/
def searchRaw (s : HNSWIndex) (query : Vec) (k : Int) : List (σ × UInt64) :=
  search (m := Id) rt s.rawAccess s query k

variable {s : HNSWIndex} {id : UInt64} {vec : Vec} {metadata : Bytes} {level : Nat}

theorem insertRaw_first (h : s.numVectors = 0) :
    s.insertRaw rt id vec metadata level = s.append id vec metadata level := if_pos h

theorem insertRaw_linked (h : s.numVectors ≠ 0) :
    s.insertRaw rt id vec metadata level =
      let t := s.append id vec metadata level
      let ep := descend (m := Id) rt t.rawAccess t vec level (t.maxLayer - level).toNat t.entryPoint
      raise (linkLayers (m := Id) rt rawAccess s.numVectors vec (min (level : Int) t.maxLayer + 1).toNat
        ep t) s.numVectors level := if_neg h

end Plain

end HNSWIndex

end NeuralDb
