import NeuralDb.Library.Returns
import NeuralDb.Paged.ReadBack

/-! `PagedIndex::insert` from several callers. The push to the store and the insert into the graph are two
steps, each counts for itself, and the slot that the push returns is not looked at. -/

namespace NeuralDb

open Library PagedVectorStore HNSWIndex

section Operations

variable {σ : Type} [LinearOrder σ] (rt : Runtime σ) {st₀ : PagedVectorStore}

/-- The store is `st₀` with another cache, which is in order if the one of `st₀` is. -/
def OnlyRead (st₀ st : PagedVectorStore) : Prop := Recached st₀ st ∧ (st₀.CacheOk → st.CacheOk)

theorem onlyRead_refl (st : PagedVectorStore) : OnlyRead st st := ⟨⟨rfl, rfl, rfl, rfl, rfl⟩, fun h => h⟩

theorem OnlyRead.serves {dim base : Nat} {vecs : List Vec} {st : PagedVectorStore} (h : OnlyRead st₀ st)
    (hs : st₀.Serves dim base vecs) : st.Serves dim base vecs :=
  ⟨h.1.stores hs.toStores, h.2 hs.cache⟩

theorem ensures_get (slot : Nat) : Ensures (OnlyRead st₀) (fun _ => True) (PagedVectorStore.get slot) := by
  intro st hst p st' h
  obtain ⟨cp, -, hcp⟩ := Option.map_eq_some_iff.mp h
  obtain ⟨-, rfl⟩ := Prod.mk.inj hcp
  refine ⟨⟨hst.1.trans (recached_touch st _), fun h₀ => ?_⟩, trivial⟩
  exact ((hst.2 h₀).touch _).1

theorem ensures_read (p : PagePointer) : Ensures (OnlyRead st₀) (fun _ => True) (PagedVectorStore.read p) := by
  intro st hst v st' h
  obtain ⟨bytes, -, hbytes⟩ := Option.map_eq_some_iff.mp h
  obtain ⟨-, rfl⟩ := Prod.mk.inj hbytes
  exact ⟨hst, trivial⟩

theorem ensures_simTo (query : Vec) (x : Nat) :
    Ensures (OnlyRead st₀) (fun _ => True) (simTo rt pagedAccess query x) :=
  (ensures_get x).bind fun p _ => (ensures_read p).bind fun _ _ => ensures_pure trivial

theorem ensures_searchLayer (s : HNSWIndex) (query : Vec) (ep : Nat) (ef : Int) (layer : Nat) :
    Ensures (OnlyRead st₀) (fun _ => True) (searchLayer rt pagedAccess s query ep ef layer) :=
  (Beam.ensures_search (ensures_simTo rt query) _ _).bind fun _ _ => ensures_pure trivial

theorem ensures_descend (s : HNSWIndex) (query : Vec) (floor n ep : Nat) :
    Ensures (OnlyRead st₀) (fun _ => True) (descend rt pagedAccess s query floor n ep) := by
  induction n generalizing ep with
  | zero => exact ensures_pure trivial
  | succ n ih => exact (ensures_searchLayer rt s query ep 1 _).bind fun c _ => ih _

theorem ensures_scoreLinks (p : PagePointer) (xs : List Nat) :
    Ensures (OnlyRead st₀) (fun _ => True) (scoreLinks rt pagedAccess p xs) := by
  induction xs with
  | nil => exact ensures_pure trivial
  | cons x xs ih =>
    exact (ensures_get x).bind fun q _ => (ensures_read p).bind fun _ _ => (ensures_read q).bind fun _ _ =>
      ih.bind fun _ _ => ensures_pure trivial

theorem ensures_backLink (s : HNSWIndex) (lc q nb : Nat) :
    Ensures (OnlyRead st₀) (Regraphed s) (backLink rt pagedAccess s lc q nb) := by
  have hpush := regraphed_pushLink s lc nb q
  unfold backLink
  dsimp only
  split_ifs
  · refine (ensures_get nb).bind fun p _ => (ensures_scoreLinks rt p _).bind fun cands _ => ?_
    exact ensures_pure (hpush.trans (regraphed_setLinks _ _ _ _))
  · exact ensures_pure hpush

theorem ensures_backLinks (lc q : Nat) (nbs : List Nat) (s : HNSWIndex) :
    Ensures (OnlyRead st₀) (Regraphed s) (backLinks rt (fun _ => pagedAccess) lc q nbs s) := by
  induction nbs generalizing s with
  | nil => exact ensures_pure (regraphed_refl s)
  | cons nb nbs ih =>
    exact (ensures_backLink rt s lc q nb).bind fun t ht => (ih t).mono fun u hu => ht.trans hu

theorem ensures_linkLayers (q : Nat) (vec : Vec) (n ep : Nat) (s : HNSWIndex) :
    Ensures (OnlyRead st₀) (Regraphed s) (linkLayers rt (fun _ => pagedAccess) q vec n ep s) := by
  induction n generalizing s ep with
  | zero => exact ensures_pure (regraphed_refl s)
  | succ lc ih =>
    refine (ensures_searchLayer rt s vec ep _ lc).bind fun cands _ => ?_
    refine (ensures_backLinks rt lc q _ _).bind fun t ht => (ih _ t).mono fun u hu => ?_
    exact (regraphed_setLinks s lc q _).trans (ht.trans hu)

/-- An insert through the page store does to the slot table what a plain one does, and only reads. -/
theorem ensures_insert (s : HNSWIndex) (id : UInt64) (vec : Vec) (metadata : Bytes) (level : Nat) :
    Ensures (OnlyRead st₀) (SameTable (s.append id vec metadata level))
      (HNSWIndex.insert rt (fun _ => pagedAccess) s id vec metadata level) := by
  unfold HNSWIndex.insert
  dsimp only
  split_ifs
  · exact ensures_pure (regraphed_refl _).table
  · refine (ensures_descend rt _ vec level _ _).bind fun ep _ => (ensures_linkLayers rt _ vec _ ep _).bind fun t ht => ?_
    exact ensures_pure (ht.table.trans (sameTable_raise _ _ _))

end Operations

theorem PagedIndex.openFile_eq {dim : Nat} (hdim : FitsPage dim) (file : Bytes) (cacheBytes : Nat) (cfg : HNSWConfig) :
    PagedIndex.openFile file dim cacheBytes cfg = .ok ⟨opened file dim cacheBytes, .new dim cfg⟩ := by
  rw [PagedIndex.openFile, PagedVectorStore.openFile_eq hdim]
  rfl

/-! ### Calls between their two steps -/

/-- A call whose push has returned `slot`. -/
structure PendingInsert (dim : Nat) where
  slot : Nat
  insertion : Insertion dim

/-- A call that has returned. -/
structure FinishedInsert (dim : Nat) extends PendingInsert dim where
  internalId : Nat

structure InsertRun (dim : Nat) where
  index : PagedIndex
  pending : List (PendingInsert dim) := []
  finished : List (FinishedInsert dim) := []

/-- A call begins with its push, or the `k`-th of the pending calls goes on, the oldest push first. -/
inductive InsertStep (dim : Nat) where
  | push (i : Insertion dim)
  | link (k : Nat)

namespace InsertRun

variable {dim : Nat} {σ : Type} [LinearOrder σ] (rt : Runtime σ)

/-- A step is undefined when there is no such call, or where the insert into the graph is. -/
def step (r : InsertRun dim) : InsertStep dim → Option (InsertRun dim)
  | .push i => some { r with
      index := { r.index with store := r.index.store.push i.vec }
      pending := r.pending ++ [⟨r.index.store.nVectors, i⟩] }
  | .link k => do
    let c ← r.pending[k]?
    let i := c.insertion
    let linked ← HNSWIndex.insert rt (fun _ => pagedAccess) r.index.hnsw i.id i.vec i.metadata i.level r.index.store
    pure {
      index := ⟨linked.2, linked.1⟩
      pending := r.pending.eraseIdx k
      finished := r.finished ++ [⟨c, r.index.hnsw.numVectors⟩] }

def run (index : PagedIndex) (steps : List (InsertStep dim)) : Option (InsertRun dim) :=
  steps.foldlM (step rt) { index }

theorem run_concat {index : PagedIndex} {steps : List (InsertStep dim)} {s : InsertStep dim} {r : InsertRun dim}
    (h : run rt index (steps ++ [s]) = some r) : ∃ r₀, run rt index steps = some r₀ ∧ r₀.step rt s = some r := by
  rw [run, foldlM_concat] at h
  exact Option.bind_eq_some_iff.mp h

theorem step_link {r r' : InsertRun dim} {k : Nat} (h : r.step rt (.link k) = some r') :
    ∃ c, r.pending[k]? = some c ∧ r'.pending = r.pending.eraseIdx k ∧
      r'.finished = r.finished ++ [⟨c, r.index.hnsw.numVectors⟩] ∧
      OnlyRead r.index.store r'.index.store ∧
      SameTable (r.index.hnsw.append c.insertion.id c.insertion.vec c.insertion.metadata c.insertion.level)
        r'.index.hnsw := by
  obtain ⟨c, hc, h⟩ := Option.bind_eq_some_iff.mp h
  obtain ⟨linked, hlinked, h⟩ := Option.bind_eq_some_iff.mp h
  obtain rfl := Option.some.inj h
  obtain ⟨hread, htable⟩ := ensures_insert rt r.index.hnsw _ _ _ _ _ (onlyRead_refl _) linked.1 linked.2 hlinked
  exact ⟨c, hc, rfl, rfl, hread, htable⟩

/-- The two counters: the store counts pushes from where the file left off, the graph its inserts. -/
structure Counted (count : Nat) (r : InsertRun dim) : Prop where
  store : r.index.store.nVectors = count + (r.finished.length + r.pending.length)
  hnsw : r.index.hnsw.numVectors = r.finished.length
  graph : r.index.hnsw.graph.length = r.finished.length

theorem push_nVectors (st : PagedVectorStore) (vec : Vec) : (st.push vec).nVectors = st.nVectors + 1 := by
  unfold PagedVectorStore.push PagedVectorStore.invalidate
  dsimp only
  split <;> rfl

theorem Counted.step {count : Nat} {r r' : InsertRun dim} (h : r.Counted count) {s : InsertStep dim}
    (hstep : r.step rt s = some r') : r'.Counted count := by
  cases s with
  | push i =>
    obtain rfl := Option.some.inj hstep
    refine ⟨?_, h.hnsw, h.graph⟩
    change (r.index.store.push i.vec).nVectors = count + (r.finished.length + (r.pending ++ [_]).length)
    rw [push_nVectors, h.store, List.length_append, List.length_singleton]
    rfl
  | link k =>
    obtain ⟨c, hc, hpending, hfinished, hread, htable⟩ := step_link rt hstep
    have hk : k < r.pending.length := (List.getElem?_eq_some_iff.mp hc).1
    refine ⟨?_, ?_, ?_⟩
    · rw [hread.1.count_eq, h.store, hpending, hfinished, List.length_append, List.length_singleton,
        List.length_eraseIdx_of_lt hk]
      omega
    · rw [htable.numVectors_eq, hfinished, List.length_append, ← h.hnsw]
      rfl
    · rw [htable.graph_length, hfinished, List.length_append, ← h.graph]
      simp [HNSWIndex.append]

/-- The pending calls have the slots that follow those of the finished ones. -/
def Queued (r : InsertRun dim) : Prop :=
  r.pending.map PendingInsert.slot = List.range' r.finished.length r.pending.length

theorem Queued.push {r r' : InsertRun dim} (h : r.Queued) (hcount : r.Counted 0) {i : Insertion dim}
    (hstep : r.step rt (.push i) = some r') : r'.Queued := by
  obtain rfl := Option.some.inj hstep
  show (r.pending ++ [_]).map PendingInsert.slot = List.range' r.finished.length (r.pending ++ [_]).length
  rw [List.map_append, h, List.length_append, List.length_singleton, List.range'_concat, Nat.one_mul]
  simp only [List.map_singleton, hcount.store, Nat.zero_add]

theorem Queued.link {r r' : InsertRun dim} (h : r.Queued) (hstep : r.step rt (.link 0) = some r') : r'.Queued := by
  obtain ⟨c, hc, hpending, hfinished, -, -⟩ := step_link rt hstep
  unfold Queued at h ⊢
  rw [hpending, hfinished]
  cases hp : r.pending with
  | nil =>
    rw [hp] at hc
    contradiction
  | cons d ds =>
    rw [hp, List.map_cons, List.length_cons, List.range'_succ] at h
    rw [List.eraseIdx_zero, List.tail_cons, List.length_append, List.length_singleton]
    exact (List.cons.inj h).2

/-- The file holds the vectors of all calls, each in the slot that its push returned. -/
structure Holding (dim base : Nat) (r : InsertRun dim) (vecs : List Vec) : Prop where
  serves : r.index.store.Serves dim base vecs
  pending : ∀ c ∈ r.pending, vecs[c.slot]? = some c.insertion.vec.1
  finished : ∀ f ∈ r.finished, vecs[f.slot]? = some f.insertion.vec.1

theorem Holding.step {base : Nat} {r r' : InsertRun dim} {vecs : List Vec} (h : Holding dim base r vecs)
    (hdim : FitsPage dim) (hbase : base ≤ pagedPageSize) {s : InsertStep dim} (hstep : r.step rt s = some r') :
    ∃ vecs', Holding dim base r' vecs' := by
  cases s with
  | push i =>
    obtain rfl := Option.some.inj hstep
    have hkeep : ∀ (slot : Nat) (v : Vec), vecs[slot]? = some v → (vecs ++ [i.vec.1])[slot]? = some v := by
      intro slot v hv
      rw [List.getElem?_append_left (List.getElem?_eq_some_iff.mp hv).1]
      exact hv
    refine ⟨vecs ++ [i.vec.1], h.serves.push hdim hbase i.vec.2, ?_, fun f hf => hkeep _ _ (h.finished f hf)⟩
    refine List.forall_mem_append.mpr ⟨fun c hc => hkeep _ _ (h.pending c hc), List.forall_mem_singleton.mpr ?_⟩
    change (vecs ++ [i.vec.1])[r.index.store.nVectors]? = _
    rw [h.serves.count_eq]
    exact List.getElem?_concat_length
  | link k =>
    obtain ⟨c, hc, hpending, hfinished, hread, -⟩ := step_link rt hstep
    refine ⟨vecs, hread.serves h.serves, fun d hd => ?_, ?_⟩
    · rw [hpending] at hd
      exact h.pending d (List.mem_of_mem_eraseIdx hd)
    · rw [hfinished]
      exact List.forall_mem_append.mpr
        ⟨h.finished, List.forall_mem_singleton.mpr (h.pending c (List.mem_of_getElem? hc))⟩

end InsertRun

end NeuralDb
