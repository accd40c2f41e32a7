import Mathlib.Data.List.AList
import NeuralDb.Hnsw.History

/-! The page store of the paged index: vectors in pages of a file, read through a cache of
mappings. `none` stands for undefined behaviour, such as a read through a mapping that is gone. -/

namespace NeuralDb

open Library

def pagedPageSize : Nat := 4096

/-- A cached page: the address of its mapping and the mapped length, 0 for a heap stub. -/
structure CachedPage where
  mapping : Nat
  mappedLen : Nat

/-- The store, its file, and the blocks of memory that its mappings can be read from. An address is
never given out twice, so a stale pointer does not read a later page by accident. -/
structure PagedVectorStore where
  dim : Nat
  vectorsPerPage : Nat
  maxCachedPages : Nat
  nVectors : Nat
  lruOrder : List Nat := []
  pageCache : AList (fun _ : Nat => CachedPage) := ∅
  file : Bytes
  memory : AList (fun _ : Nat => Bytes) := ∅
  nextAddress : Nat := 0

/-- A `const float*`: a mapping and an offset in bytes. -/
structure PagePointer where
  address : Nat
  offset : Nat

/-- `pwrite`: a gap before the written bytes is filled with zeros. -/
def pwrite (file : Bytes) (offset : Nat) (data : Bytes) : Bytes :=
  resize file offset 0 ++ data ++ file.drop (offset + data.length)

namespace PagedVectorStore

/-- The constructor, for a file that holds `file`. -/
def openFile (file : Bytes) (dim cacheBytes : Nat) : Except String PagedVectorStore :=
  let usable := pagedPageSize - 8
  let vectorsPerPage := usable / (dim * 4)
  if vectorsPerPage = 0 then .error "PagedVectorStore: dim too large for 4KB pages"
  else
    let pagesOnDisk := file.length / pagedPageSize
    .ok { dim, vectorsPerPage, maxCachedPages := max 1 (cacheBytes / pagedPageSize),
          nVectors := pagesOnDisk * vectorsPerPage, file }

/-- Drop a page from the cache after a write to it. A stub has mapped length 0, and unmapping
nothing leaves its block in memory. -/
def invalidate (st : PagedVectorStore) (pageId : Nat) : PagedVectorStore :=
  match st.pageCache.lookup pageId with
  | none => st
  | some cp =>
    { st with
      memory := if 0 < cp.mappedLen then st.memory.erase cp.mapping else st.memory
      lruOrder := st.lruOrder.erase pageId
      pageCache := st.pageCache.erase pageId }

def push (st : PagedVectorStore) (vec : Vec) : PagedVectorStore :=
  let slot := st.nVectors
  let pageId := slot / st.vectorsPerPage
  let slotInPage := slot % st.vectorsPerPage
  let pageOffset := pageId * pagedPageSize
  let file := pwrite st.file (pageOffset + (8 + slotInPage * st.dim * 4)) (vec.flatMap wordBytes)
  let file := if slotInPage = 0 then pwrite file pageOffset (leBytes 4 pageId) else file
  { st with nVectors := slot + 1, file := file }.invalidate pageId

/-- `evict_lru_`: both `munmap` and `free` end the block of the page. -/
def evictLru (st : PagedVectorStore) : PagedVectorStore :=
  match st.lruOrder.getLast? with
  | none => st
  | some evictId =>
    match st.pageCache.lookup evictId with
    | none => { st with lruOrder := st.lruOrder.dropLast }
    | some cp =>
      { st with
        lruOrder := st.lruOrder.dropLast
        memory := st.memory.erase cp.mapping
        pageCache := st.pageCache.erase evictId }

/-- The bytes that `load_page_` puts behind a new mapping: the page itself when it lies wholly in the
file, otherwise zeros. -/
def pageImage (file : Bytes) (pageId : Nat) : Bytes :=
  let pageOffset := pageId * pagedPageSize
  if file.length < pageOffset + pagedPageSize then List.replicate pagedPageSize 0
  else (file.drop pageOffset).take pagedPageSize

/-- `load_page_` once there is room: map the page under a new address. -/
def mapPage (st : PagedVectorStore) (pageId : Nat) : PagedVectorStore :=
  let stub := st.file.length < pageId * pagedPageSize + pagedPageSize
  { st with
    nextAddress := st.nextAddress + 1
    memory := st.memory.insert st.nextAddress (pageImage st.file pageId)
    lruOrder := pageId :: st.lruOrder
    pageCache := st.pageCache.insert pageId ⟨st.nextAddress, if stub then 0 else pagedPageSize⟩ }

def loadPage (st : PagedVectorStore) (pageId : Nat) : PagedVectorStore :=
  if st.maxCachedPages ≤ st.pageCache.keys.length then st.evictLru.mapPage pageId
  else st.mapPage pageId

/-- The page moves to the front of the LRU order, loaded if it was not cached. -/
def touch (st : PagedVectorStore) (pageId : Nat) : PagedVectorStore :=
  if pageId ∈ st.pageCache then { st with lruOrder := pageId :: st.lruOrder.erase pageId }
  else st.loadPage pageId

def get (slot : Nat) : StateT PagedVectorStore Option PagePointer := fun st =>
  let pageId := slot / st.vectorsPerPage
  let slotInPage := slot % st.vectorsPerPage
  let st := st.touch pageId
  (st.pageCache.lookup pageId).map fun cp => (⟨cp.mapping, 8 + slotInPage * st.dim * 4⟩, st)

/-- Reading the `dim_` floats behind a pointer. -/
def read (p : PagePointer) : StateT PagedVectorStore Option Vec := fun st =>
  (st.memory.lookup p.address).map fun bytes => (unpack 4 wordOfBytes st.dim (bytes.drop p.offset), st)

end PagedVectorStore

/-- The accessor that `PagedIndex` installs in its HNSW index. -/
def pagedAccess : VecAccess (StateT PagedVectorStore Option) :=
  ⟨PagePointer, PagedVectorStore.get, PagedVectorStore.read⟩

structure PagedIndex where
  store : PagedVectorStore
  hnsw : HNSWIndex

/-- The arguments of an `insert`, with the level that `random_layer` draws. -/
structure Insertion (dim : Nat) where
  id : UInt64
  vec : VecOf dim
  metadata : Bytes
  level : Nat

def Insertion.op {dim : Nat} (i : Insertion dim) : Op dim := .insert i.id i.vec i.metadata i.level

namespace PagedIndex

def openFile (file : Bytes) (dim cacheBytes : Nat) (cfg : HNSWConfig) : Except String PagedIndex :=
  (PagedVectorStore.openFile file dim cacheBytes).map fun store => ⟨store, .new dim cfg⟩

variable {σ : Type} [LinearOrder σ] (rt : Runtime σ)

def insert {dim : Nat} (p : PagedIndex) (i : Insertion dim) : Option PagedIndex :=
  (HNSWIndex.insert rt (fun _ => pagedAccess) p.hnsw i.id i.vec i.metadata i.level
    (p.store.push i.vec)).map fun r => ⟨r.2, r.1⟩

/-- A search returns its hits and the index with the cache as it left it. -/
def search (p : PagedIndex) (query : Vec) (k : Int) : Option (List (σ × UInt64) × PagedIndex) :=
  (HNSWIndex.search rt pagedAccess p.hnsw query k p.store).map fun r => (r.1, ⟨r.2, p.hnsw⟩)

end PagedIndex

end NeuralDb
