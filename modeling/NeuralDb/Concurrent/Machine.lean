import NeuralDb.Hnsw.GraphInvariant
import NeuralDb.Library.Interleaving

/-! Threads that call `insert`, `search` and `delete_vector` on one index. A step is one region held
under `index_mutex_`, one load of `num_vectors_`, or thread-local work between two of these. -/

namespace NeuralDb

open Library HNSWIndex

namespace Concurrent

section Frames

variable {σ : Type} [LinearOrder σ]

/-- Where a call of `search_layer_` stands. -/
inductive LayerPc (σ : Type) where
  /-- before the load of `num_vectors_` that sizes `visited_buf` -/
  | load
  /-- before the region that scores the entry point -/
  | score
  /-- at the head of the `while` loop -/
  | loop (b : Beam σ Nat)
  /-- in the neighbour loop, with the neighbours still to come -/
  | expand (xs : List Nat) (b : Beam σ Nat)
  | done (out : List (σ × Nat))

structure LayerArgs where
  query : Vec
  ep : Nat
  ef : Int
  layer : Nat

def LayerPc.step (rt : Runtime σ) (s : HNSWIndex) (a : LayerArgs) : LayerPc σ → LayerPc σ
  | .load => .score
  | .score => .loop (Beam.start a.ep (s.simRaw rt a.query a.ep))
  | .loop b =>
    match b.cands with
    | [] => .done (rt.sort b.results)
    | c :: cs =>
      if b.stops a.ef c then .done (rt.sort b.results)
      else .expand (s.links a.layer c.2) { b with cands := cs }
  | .expand [] b => .loop b
  | .expand (x :: xs) b =>
    if x ∈ b.visited then .expand xs b
    else .expand xs ((b.visit x).offer a.ef (s.simRaw rt a.query x, x))
  | .done out => .done out

/-- The node that the next step uses as an index into `visited_buf`. -/
def LayerPc.stamp (ep : Nat) : LayerPc σ → Option Nat
  | .score => some ep
  | .expand (x :: _) _ => some x
  | _ => none

/-- `visited_buf` after the load: `if (visited_buf.size() < nv) visited_buf.resize(nv + 10000, 0)`. -/
def sizeBuffer (nv size : Nat) : Nat := if size < nv then nv + 10000 else size

inductive InsertPc (σ : Type) where
  | append
  | entry
  | descend (lc : Nat) (pc : LayerPc σ)
  | link (lc : Nat) (pc : LayerPc σ)
  | assign (lc : Nat) (cands : List (σ × Nat))
  /-- in the back-link loop, with the neighbours still to come -/
  | back (lc : Nat) (cands : List (σ × Nat)) (nbs : List Nat)
  | raise

/-- The arguments and local variables of an `insert`. -/
structure InsertFrame (σ : Type) where
  id : UInt64
  vec : Vec
  metadata : Bytes
  level : Nat
  q : Nat := 0
  ep : Nat := 0
  curMax : Int := 0
  pc : InsertPc σ := .append

/-- The linking loop with `n` layers to go. -/
def linkFrom : Nat → InsertPc σ
  | 0 => .raise
  | lc + 1 => .link lc .load

namespace InsertFrame

/-- The layers that the linking loop starts with: `min(level, cur_max_layer)` and below. -/
def linkPc (f : InsertFrame σ) : InsertPc σ := linkFrom (min (f.level : Int) f.curMax + 1).toNat

def descendArgs (f : InsertFrame σ) (lc : Nat) : LayerArgs := ⟨f.vec, f.ep, 1, lc⟩

def linkArgs (s : HNSWIndex) (f : InsertFrame σ) (lc : Nat) : LayerArgs :=
  ⟨f.vec, f.ep, max s.cfg.efConstruction s.cfg.M, lc⟩

/-- One step of an insert; without a frame it has returned. -/
def step (rt : Runtime σ) (s : HNSWIndex) (f : InsertFrame σ) : HNSWIndex × Option (InsertFrame σ) :=
  match f.pc with
  | .append =>
    (s.append f.id f.vec f.metadata f.level,
      if s.numVectors = 0 then none else some { f with q := s.numVectors, pc := .entry })
  | .entry =>
    let f := { f with ep := s.entryPoint, curMax := s.maxLayer }
    (s, some { f with pc := if (f.level : Int) < f.curMax then .descend f.curMax.toNat .load else f.linkPc })
  | .descend lc (.done out) =>
    let f := { f with ep := front out f.ep }
    (s, some { f with pc := if f.level < lc - 1 then .descend (lc - 1) .load else f.linkPc })
  | .descend lc pc => (s, some { f with pc := .descend lc (pc.step rt s (f.descendArgs lc)) })
  | .link lc (.done out) => (s, some { f with pc := .assign lc out })
  | .link lc pc => (s, some { f with pc := .link lc (pc.step rt s (f.linkArgs s lc)) })
  | .assign lc cands =>
    let neighbours := selectNeighbours rt cands s.cfg.M
    (s.setLinks lc f.q neighbours, some { f with pc := .back lc cands neighbours })
  | .back lc cands (nb :: nbs) =>
    (backLink (m := Id) rt s.rawAccess s lc f.q nb, some { f with pc := .back lc cands nbs })
  | .back lc cands [] => (s, some { f with ep := front cands f.ep, pc := linkFrom lc })
  | .raise => (s.raise f.q f.level, none)

/-- The `search_layer_` call that an insert is in, with its entry point. -/
def layerCall (f : InsertFrame σ) : Option (LayerPc σ × Nat) :=
  match f.pc with
  | .descend _ pc => some (pc, f.ep)
  | .link _ pc => some (pc, f.ep)
  | _ => none

end InsertFrame

inductive SearchPc (σ : Type) where
  | load
  | entry
  | descend (lc : Nat) (pc : LayerPc σ)
  | bottom (pc : LayerPc σ)
  | collect (cands : List (σ × Nat))

/-- The arguments and local variables of a `search`. -/
structure SearchFrame (σ : Type) where
  query : Vec
  k : Int
  nv : Nat := 0
  ep : Nat := 0
  pc : SearchPc σ := .load

namespace SearchFrame

/-- The descent with `n` layers above the bottom to go. -/
def descendFrom : Nat → SearchPc σ
  | 0 => .bottom .load
  | lc + 1 => .descend (lc + 1) .load

/-- One step of a search: it goes on, or returns its hits. -/
def step (rt : Runtime σ) (s : HNSWIndex) (f : SearchFrame σ) : SearchFrame σ ⊕ List (σ × UInt64) :=
  match f.pc with
  | .load => if s.numVectors = 0 then .inr [] else .inl { f with nv := s.numVectors, pc := .entry }
  | .entry =>
    let live :=
      if s.isTombstoned s.entryPoint then (List.range f.nv).find? fun i => !s.isTombstoned i
      else some s.entryPoint
    match live with
    | none => .inr []
    | some ep => .inl { f with ep, pc := descendFrom s.maxLayer.toNat }
  | .descend lc (.done out) => .inl { f with ep := front out f.ep, pc := descendFrom (lc - 1) }
  | .descend lc pc => .inl { f with pc := .descend lc (pc.step rt s ⟨f.query, f.ep, 1, lc⟩) }
  | .bottom (.done out) => .inl { f with pc := .collect out }
  | .bottom pc => .inl { f with pc := .bottom (pc.step rt s ⟨f.query, f.ep, s.cfg.efSearch, 0⟩) }
  | .collect cands => .inr (s.collect f.k cands [])

def layerCall (f : SearchFrame σ) : Option (LayerPc σ × Nat) :=
  match f.pc with
  | .descend _ pc => some (pc, f.ep)
  | .bottom pc => some (pc, f.ep)
  | _ => none

end SearchFrame

/-- A call in progress. `delete_vector` is a single region. -/
inductive Call (σ : Type) where
  | insert (f : InsertFrame σ)
  | search (f : SearchFrame σ)
  | delete (id : UInt64)

def Call.layerCall : Call σ → Option (LayerPc σ × Nat)
  | .insert f => f.layerCall
  | .search f => f.layerCall
  | .delete _ => none

/-- A thread: the size of its `visited_buf`, which outlives the calls, the call it is in and the hits
of its last search. -/
structure Thread (σ : Type) where
  bufSize : Nat := 0
  call : Option (Call σ) := none
  hits : List (σ × UInt64) := []

structure Machine (σ : Type) where
  index : HNSWIndex
  threads : Nat → Thread σ

/-- What the schedule lets a thread do: enter a call when it is in none, or take a step of its call. -/
inductive Action (dim : Nat) where
  | insert (id : UInt64) (vec : VecOf dim) (metadata : Bytes) (level : Nat)
  | search (query : VecOf dim) (k : Int)
  | delete (id : UInt64)
  | step

def Action.call? {dim : Nat} : Action dim → Option (Call σ)
  | .insert id vec metadata level => some (.insert { id, vec, metadata, level })
  | .search query k => some (.search { query, k })
  | .delete id => some (.delete id)
  | .step => none

namespace Machine

def new (dim : Nat) (cfg : HNSWConfig) : Machine σ := ⟨.new dim cfg, fun _ => {}⟩

def setThread (m : Machine σ) (t : Nat) (th : Thread σ) : Machine σ :=
  { m with threads := Function.update m.threads t th }

/-- The effect of a step of the call `c` on the index, the call and the hits. -/
def callStep (rt : Runtime σ) (s : HNSWIndex) (hits : List (σ × UInt64)) :
    Call σ → HNSWIndex × Option (Call σ) × List (σ × UInt64)
  | .insert f =>
    let r := f.step rt s
    (r.1, r.2.map .insert, hits)
  | .search f =>
    match f.step rt s with
    | .inl f => (s, some (.search f), hits)
    | .inr out => (s, none, out)
  | .delete id => (s.deleteVector id, none, hits)

/-- The buffer of a thread whose call is at the load of `search_layer_` is resized there. -/
def callBuffer (s : HNSWIndex) (size : Nat) (c : Call σ) : Nat :=
  match c.layerCall with
  | some (.load, _) => sizeBuffer s.numVectors size
  | _ => size

def next {dim : Nat} (rt : Runtime σ) (m : Machine σ) (e : Nat × Action dim) : Machine σ :=
  let th := m.threads e.1
  match th.call with
  | none =>
    match e.2.call? with
    | none => m
    | some c => m.setThread e.1 { th with call := some c }
  | some c =>
    match e.2 with
    | .step =>
      let r := callStep rt m.index th.hits c
      { m with index := r.1 }.setThread e.1 ⟨callBuffer m.index th.bufSize c, r.2.1, r.2.2⟩
    | _ => m

variable {dim : Nat} (rt : Runtime σ)

/-- A run from an empty index and threads that have made no call. -/
def run (cfg : HNSWConfig) (es : List (Nat × Action dim)) : Machine σ :=
  runFrom (next rt) (new dim cfg) es

end Machine

end Frames

end Concurrent

end NeuralDb
