import NeuralDb.Library.Returns
import NeuralDb.Paged.ReadBack

/-! A page store that is watched: for each vector read through a pointer, which slots were got since the
pointer was handed out, and whether the page it points into is still there. -/

namespace NeuralDb

open Library

/-- One reading of a vector for the similarity kernel, by an index as it stood. -/
structure PointerUse where
  index : HNSWIndex
  slot : Nat
  since : List Nat
  resident : Bool

structure Audit where
  store : PagedVectorStore
  gets : List Nat := []
  uses : List PointerUse := []

/-- A pointer with the slot it was got for and the number of gets up to then. -/
structure AuditPointer where
  pointer : PagePointer
  slot : Nat
  position : Nat

namespace Audit

def get (slot : Nat) : StateT Audit Option AuditPointer := fun a =>
  (PagedVectorStore.get slot a.store).map fun r =>
    (⟨r.1, slot, a.gets.length + 1⟩, { a with store := r.2, gets := a.gets ++ [slot] })

/-- The page of the pointer was neither evicted nor invalidated: it is cached where the pointer points. -/
def resident (a : Audit) (p : AuditPointer) : Bool :=
  (a.store.pageCache.lookup (p.slot / a.store.vectorsPerPage)).any fun cp => cp.mapping == p.pointer.address

/-- The words behind a pointer, any words when its memory is gone. -/
def words (junk : Nat → Vec) (a : Audit) (p : AuditPointer) : Vec :=
  match PagedVectorStore.read p.pointer a.store with
  | some r => r.1
  | none => junk a.uses.length

def read (junk : Nat → Vec) (index : HNSWIndex) (p : AuditPointer) : StateT Audit Option Vec := fun a =>
  some (a.words junk p, { a with uses := a.uses ++ [⟨index, p.slot, a.gets.drop p.position, a.resident p⟩] })

def access (junk : Nat → Vec) (index : HNSWIndex) : VecAccess (StateT Audit Option) :=
  ⟨AuditPointer, get, read junk index⟩

end Audit

namespace PagedVectorStore

section Touch

variable {st : PagedVectorStore} {x y : Nat} {cp : CachedPage}

/-- Every cached page has a block, whatever is in it. -/
def HasBlocks (st : PagedVectorStore) : Prop :=
  Backed (fun _ _ _ => True) st.pageCache st.memory st.nextAddress

theorem HasBlocks.touch (h : st.HasBlocks) (x : Nat) : (st.touch x).HasBlocks :=
  backed_touch h fun _ => trivial

theorem HasBlocks.push (h : st.HasBlocks) (vec : Vec) : (st.push vec).HasBlocks := by
  unfold PagedVectorStore.push
  apply Backed.invalidate
  exact h

theorem push_frame (st : PagedVectorStore) (vec : Vec) :
    (st.push vec).maxCachedPages = st.maxCachedPages ∧ (st.push vec).vectorsPerPage = st.vectorsPerPage := by
  unfold PagedVectorStore.push
  dsimp only
  obtain ⟨ids, cache, memory, heq⟩ := invalidate_frame _ _
  rw [heq]
  exact ⟨rfl, rfl⟩

theorem HasBlocks.address_lt (h : st.HasBlocks) (hcp : st.pageCache.lookup y = some cp) :
    cp.mapping < st.nextAddress := by
  obtain ⟨bytes, hbytes, -⟩ := h.block y cp hcp
  exact h.fresh _ (AList.lookup_isSome.mp (Option.isSome_of_eq_some hbytes))

end Touch

/-- `address` is where the page `y` was mapped when it was last in front, and the pages `since` were
used after that. -/
structure Handed (st : PagedVectorStore) (y address : Nat) (since : List Nat) : Prop where
  address_lt : address < st.nextAddress
  order : ∃ rest, Lru.InOrder st.maxCachedPages (y :: rest) ∧
    st.lruOrder = Lru.run st.maxCachedPages (y :: rest) since
  cached_iff : (∃ cp, st.pageCache.lookup y = some cp ∧ cp.mapping = address) ↔
    Lru.outlives st.maxCachedPages y [] since = true

section Handed

variable {st : PagedVectorStore} {y address : Nat} {since : List Nat}

/-- The page just touched is cached, and its mapping is handed out. -/
theorem LruOk.handed (h : st.LruOk) (hblocks : st.HasBlocks) (y : Nat) :
    ∃ cp, (st.touch y).pageCache.lookup y = some cp ∧ (st.touch y).Handed y cp.mapping [] := by
  obtain ⟨hok, horder, -⟩ := h.touch y
  have hfront : (st.touch y).lruOrder = y :: _ := horder
  obtain ⟨cp, hcp⟩ := h.lookup_touch y
  refine ⟨cp, hcp, (hblocks.touch y).address_lt hcp, ⟨_, hfront ▸ hok.inOrder, hfront⟩, ?_⟩
  exact iff_of_true ⟨cp, hcp, rfl⟩ rfl

/-- One more use: the page keeps its place exactly when it outlives that use too. -/
theorem Handed.touch (h : st.Handed y address since) (hok : st.LruOk) (x : Nat) :
    (st.touch x).Handed y address (since ++ [x]) := by
  obtain ⟨rest, hrest, hrun⟩ := h.order
  obtain ⟨hok', horder, hkeep⟩ := hok.touch x
  have hcap := (recached_touch st x).cap_eq
  have hlast : (st.touch x).lruOrder = Lru.run st.maxCachedPages (y :: rest) (since ++ [x]) := by
    rw [horder, hrun, Lru.run_concat]
  refine ⟨h.address_lt.trans_le (nextAddress_le_touch st x), ⟨rest, hcap ▸ hrest, hcap ▸ hlast⟩, ?_⟩
  have hconcat : Lru.outlives st.maxCachedPages y [] (since ++ [x]) = true ↔
      Lru.outlives st.maxCachedPages y [] since = true ∧
        y ∈ Lru.touch st.maxCachedPages x (Lru.run st.maxCachedPages (y :: rest) since) :=
    Lru.outlives_concat hok.cap_pos hrest
  rw [← hrun, ← horder] at hconcat
  rw [hcap, hconcat, ← h.cached_iff]
  constructor
  · rintro ⟨cp, hcp, rfl⟩
    have hin : y ∈ (st.touch x).pageCache := AList.lookup_isSome.mp (Option.isSome_of_eq_some hcp)
    -- the handed address was given out before this touch
    have hold := (lookup_of_touch hcp).resolve_right h.address_lt.ne
    exact ⟨⟨cp, hold, rfl⟩, hok'.mem_cache.mp hin⟩
  · rintro ⟨⟨cp, hcp, rfl⟩, hstays⟩
    have hin : y ∈ st.lruOrder := hok.mem_cache.mp (AList.lookup_isSome.mp (Option.isSome_of_eq_some hcp))
    exact ⟨cp, (hkeep y hin hstays).trans hcp, rfl⟩

end Handed

end PagedVectorStore

/-- The page of the slot outlives the gets since the pointer was handed out. -/
def PointerUse.Outlives (cap vpp : Nat) (use : PointerUse) : Prop :=
  Lru.outlives cap (use.slot / vpp) [] (use.since.map (· / vpp)) = true

/-- The use is one of the loop that prunes the list of `slot` after the link to `q` was added to it, and
the gets since are those of the first links. -/
def PointerUse.FromPruning (use : PointerUse) : Prop :=
  ∃ lc q, let t := use.index.pushLink lc use.slot q
    t.maxLinks lc < (t.links lc use.slot).length ∧ use.since <+: t.links lc use.slot

/-- What the audit shows of a use. -/
structure PointerUse.Sound (cap vpp : Nat) (cfg : HNSWConfig) (use : PointerUse) : Prop where
  resident_iff : use.resident = true ↔ use.Outlives cap vpp
  origin : use.since = [] ∨ use.FromPruning
  short : use.since = [] ∨ 0 < cfg.M ∧ (use.since.length : Int) ≤ 2 * cfg.M + 1

namespace Audit

def Resident (a : Audit) : Prop := ∀ use ∈ a.uses, use.resident = true

structure Ok (cap vpp : Nat) (cfg : HNSWConfig) (a : Audit) : Prop where
  lru : a.store.LruOk
  blocks : a.store.HasBlocks
  cap_eq : a.store.maxCachedPages = cap
  perPage_eq : a.store.vectorsPerPage = vpp
  sound : ∀ use ∈ a.uses, use.Sound cap vpp cfg

/-- `p` was got for `slot`, and the slots `since` were got after it. -/
structure Tracks (a : Audit) (p : AuditPointer) (slot : Nat) (since : List Nat) : Prop where
  slot_eq : p.slot = slot
  since_eq : a.gets.drop p.position = since
  position_le : p.position ≤ a.gets.length
  handed : a.store.Handed (slot / a.store.vectorsPerPage) p.pointer.address
    (since.map (· / a.store.vectorsPerPage))

section Access

variable {cap vpp : Nat} {cfg : HNSWConfig} {a : Audit} {p : AuditPointer} {slot : Nat} {since : List Nat}

theorem Ok.get (h : a.Ok cap vpp cfg) (x : Nat) :
    ∃ p a', Audit.get x a = some (p, a') ∧ a'.Ok cap vpp cfg ∧ a'.Tracks p x [] ∧ a'.uses = a.uses ∧
      PagedVectorStore.get x a.store = some (p.pointer, a'.store) ∧
      ∀ q slot since, a.Tracks q slot since → a'.Tracks q slot (since ++ [x]) := by
  let pageId := x / a.store.vectorsPerPage
  have hframe := PagedVectorStore.recached_touch a.store pageId
  obtain ⟨cp, hcp, hhanded⟩ := h.lru.handed h.blocks pageId
  let pointer : PagePointer := ⟨cp.mapping, 8 + x % a.store.vectorsPerPage * (a.store.touch pageId).dim * 4⟩
  have hget : PagedVectorStore.get x a.store = some (pointer, a.store.touch pageId) := congrArg (Option.map _) hcp
  refine ⟨⟨pointer, x, a.gets.length + 1⟩, { a with store := a.store.touch pageId, gets := a.gets ++ [x] },
    congrArg (Option.map _) hget, ?_, ⟨rfl, ?_, ?_, ?_⟩, rfl, hget, fun q slot since hq => ?_⟩
  · exact ⟨(h.lru.touch pageId).1, h.blocks.touch pageId, hframe.cap_eq.trans h.cap_eq,
      hframe.perPage_eq.trans h.perPage_eq, h.sound⟩
  · exact List.drop_eq_nil_of_le (by simp)
  · simp
  · rw [hframe.perPage_eq]
    exact hhanded
  · refine ⟨hq.slot_eq, ?_, hq.position_le.trans (by simp), ?_⟩
    · rw [List.drop_append_of_le_length hq.position_le, hq.since_eq]
    · have hnext := hq.handed.touch h.lru pageId
      rw [hframe.perPage_eq, List.map_append]
      exact hnext

theorem Tracks.log (h : a.Tracks p slot since) {uses : List PointerUse} :
    Tracks { a with uses := uses } p slot since := ⟨h.slot_eq, h.since_eq, h.position_le, h.handed⟩

theorem Tracks.resident_iff (h : a.Tracks p slot since) : a.resident p = true ↔
    Lru.outlives a.store.maxCachedPages (slot / a.store.vectorsPerPage) []
      (since.map (· / a.store.vectorsPerPage)) = true := by
  rw [← h.handed.cached_iff, Audit.resident, Option.any_eq_true, h.slot_eq]
  simp only [beq_iff_eq]

theorem Ok.read (h : a.Ok cap vpp cfg) (hp : a.Tracks p slot since) (junk : Nat → Vec) {index : HNSWIndex}
    (horigin : since = [] ∨ PointerUse.FromPruning ⟨index, slot, since, a.resident p⟩)
    (hshort : since = [] ∨ 0 < cfg.M ∧ (since.length : Int) ≤ 2 * cfg.M + 1) :
    ∃ use, Audit.read junk index p a = some (a.words junk p, { a with uses := a.uses ++ [use] }) ∧
      use.Sound cap vpp cfg ∧
      (use.resident = true → PagedVectorStore.read p.pointer a.store = some (a.words junk p, a.store)) := by
  let use : PointerUse := ⟨index, slot, since, a.resident p⟩
  have hlog : (⟨index, p.slot, a.gets.drop p.position, a.resident p⟩ : PointerUse) = use := by
    rw [hp.slot_eq, hp.since_eq]
  have hresident := hp.resident_iff
  rw [h.cap_eq, h.perPage_eq] at hresident
  refine ⟨use, ?_, ⟨hresident, horigin, hshort⟩, fun hin => ?_⟩
  · unfold Audit.read
    rw [hlog]
  · -- a cached page has a block to read from
    obtain ⟨cp, hcp, haddress⟩ := (Option.any_eq_true _ _).mp hin
    obtain ⟨bytes, hbytes, -⟩ := h.blocks.block _ cp hcp
    have hread : PagedVectorStore.read p.pointer a.store =
        some (unpack 4 wordOfBytes a.store.dim (bytes.drop p.pointer.offset), a.store) := by
      unfold PagedVectorStore.read
      rw [← beq_iff_eq.mp haddress, hbytes]
      rfl
    rw [Audit.words, hread]

theorem Ok.log (h : a.Ok cap vpp cfg) {use : PointerUse} (huse : use.Sound cap vpp cfg) :
    Ok cap vpp cfg { a with uses := a.uses ++ [use] } where
  lru := h.lru
  blocks := h.blocks
  cap_eq := h.cap_eq
  perPage_eq := h.perPage_eq
  sound u hu := by
    rcases List.mem_append.mp hu with hu | hu
    · exact h.sound u hu
    · exact List.mem_singleton.mp hu ▸ huse

theorem Ok.push (h : a.Ok cap vpp cfg) (vec : Vec) :
    Ok cap vpp cfg { a with store := a.store.push vec } where
  lru := h.lru.push vec
  blocks := h.blocks.push vec
  cap_eq := (PagedVectorStore.push_frame a.store vec).1.trans h.cap_eq
  perPage_eq := (PagedVectorStore.push_frame a.store vec).2.trans h.perPage_eq
  sound := h.sound

theorem resident_concat {use : PointerUse} (h : Resident { a with uses := a.uses ++ [use] }) :
    a.Resident ∧ use.resident = true :=
  ⟨fun u hu => h u (List.mem_append_left _ hu), h use (List.mem_append_right _ (List.mem_singleton_self use))⟩

end Access

end Audit

end NeuralDb
