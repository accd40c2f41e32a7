import NeuralDb.Library.Interleaving
import NeuralDb.Paged.Blocks
import NeuralDb.Paged.Layout
import NeuralDb.Paged.Recency

/-! Reading back what was pushed. A page is mapped only when it lies wholly in the file; otherwise its
cache entry is a stub of zeros, which stays until the page is evicted or written again. -/

namespace NeuralDb

open Library

/-- What the block of a cached page holds: the page when it is mapped, zeros when it is a stub. -/
structure PageBlock (file : Bytes) (pageId : Nat) (cp : CachedPage) (bytes : Bytes) : Prop where
  bytes_eq : bytes =
    if 0 < cp.mappedLen then extent (pageId * pagedPageSize) pagedPageSize file else List.replicate pagedPageSize 0
  whole : 0 < cp.mappedLen → (pageId + 1) * pagedPageSize ≤ file.length

section PageBlock

variable {dim base : Nat} {vecs : List Vec} {file : Bytes}

theorem FileHolds.length_le (h : FileHolds dim base vecs file) (hdim : FitsPage dim) (hbase : base ≤ pagedPageSize) :
    file.length ≤ (vecs.length / perPage dim + 1) * pagedPageSize := by
  rw [h.length, max_le_iff]
  constructor
  · exact hbase.trans (Nat.le_mul_of_pos_left _ (Nat.succ_pos _))
  · cases hn : vecs.length with
    | zero => exact Nat.zero_le _
    | succ n =>
      refine (slotOffset_end_le hdim n).trans (Nat.mul_le_mul_right _ (Nat.succ_le_succ ?_))
      exact Nat.div_le_div_right (Nat.le_succ n)

theorem PageBlock.push {vec : Vec} {y : Nat} {cp : CachedPage} {bytes : Bytes} (h : PageBlock file y cp bytes)
    (hholds : FileHolds dim base vecs file) (hdim : FitsPage dim) (hbase : base ≤ pagedPageSize)
    (hvec : vec.length = dim) (hy : y ≠ vecs.length / perPage dim) :
    PageBlock (pushFile dim file vecs.length vec) y cp bytes := by
  have hlen : file.length ≤ (pushFile dim file vecs.length vec).length := by
    rw [pushFile_length hvec]
    exact le_max_left _ _
  refine ⟨h.bytes_eq.trans ?_, fun hmapped => (h.whole hmapped).trans hlen⟩
  split_ifs with hmapped
  · -- a whole page other than the one written lies in front of it
    have hwhole := h.whole hmapped
    have hbound := Nat.le_of_mul_le_mul_right (hwhole.trans (hholds.length_le hdim hbase)) (by decide)
    have hfront : y + 1 ≤ vecs.length / perPage dim := by omega
    have hend : y * pagedPageSize + pagedPageSize ≤ vecs.length / perPage dim * pagedPageSize := by
      rw [← Nat.succ_mul]
      exact Nat.mul_le_mul_right _ hfront
    rw [Nat.succ_mul] at hwhole
    exact (pushFile_before_page hend hwhole).symm
  · rfl

end PageBlock

namespace PagedVectorStore

/-- The next `get` on the page sees the file: the page is mapped, or it will be because it is whole. -/
def SeesFile (st : PagedVectorStore) (pageId : Nat) : Prop :=
  match st.pageCache.lookup pageId with
  | some cp => 0 < cp.mappedLen
  | none => (pageId + 1) * pagedPageSize ≤ st.file.length

def CacheOk (st : PagedVectorStore) : Prop :=
  Backed (PageBlock st.file) st.pageCache st.memory st.nextAddress

section Get

variable {st : PagedVectorStore} {x : Nat}

/-- A new mapping shows the page when it is whole in the file, and zeros otherwise. -/
theorem pageBlock_image (file : Bytes) (x address : Nat) : PageBlock file x
    ⟨address, if file.length < x * pagedPageSize + pagedPageSize then 0 else pagedPageSize⟩ (pageImage file x) := by
  refine ⟨?_, fun hmapped => ?_⟩
  · unfold pageImage
    dsimp only
    by_cases hstub : file.length < x * pagedPageSize + pagedPageSize
    · simp only [if_pos hstub, lt_irrefl, if_false]
    · rw [if_neg hstub, if_neg hstub]
      rfl
  · by_contra hshort
    have hstub : file.length < x * pagedPageSize + pagedPageSize := by
      rw [← Nat.succ_mul]
      exact not_le.mp hshort
    simp only [if_pos hstub, lt_irrefl] at hmapped

/-- After a touch the page is cached, mapped exactly when the touch could see the file. -/
theorem CacheOk.touch (h : st.CacheOk) (x : Nat) :
    (st.touch x).CacheOk ∧
      ∃ cp, (st.touch x).pageCache.lookup x = some cp ∧ (0 < cp.mappedLen ↔ st.SeesFile x) := by
  constructor
  · have hback := backed_touch h (pageBlock_image st.file x)
    rwa [← (recached_touch st x).file_eq] at hback
  by_cases hx : x ∈ st.pageCache
  · obtain ⟨cp, hcp⟩ := Option.isSome_iff_exists.mp (AList.lookup_isSome.mpr hx)
    have htouch : st.touch x = { st with lruOrder := x :: st.lruOrder.erase x } := if_pos hx
    rw [htouch]
    refine ⟨cp, hcp, ?_⟩
    rw [SeesFile, hcp]
  · have hmiss : st.SeesFile x ↔ (x + 1) * pagedPageSize ≤ st.file.length := by
      rw [SeesFile, AList.lookup_eq_none.mpr hx]
    have hmap : ∀ t : PagedVectorStore, t.file = st.file →
        ∃ cp, (t.mapPage x).pageCache.lookup x = some cp ∧ (0 < cp.mappedLen ↔ st.SeesFile x) := by
      intro t hfile
      refine ⟨_, AList.lookup_insert _, ?_⟩
      rw [hmiss, Nat.succ_mul, ← hfile]
      dsimp only
      split_ifs with hstub
      · exact iff_of_false (lt_irrefl 0) (not_le.mpr hstub)
      · exact iff_of_true (by decide) (not_lt.mp hstub)
    have htouch : st.touch x = st.loadPage x := if_neg hx
    rw [htouch]
    unfold loadPage
    split_ifs
    · exact hmap _ (recached_evictLru st).file_eq
    · exact hmap st rfl

end Get

section Push

variable {dim base : Nat} {vecs : List Vec} {st : PagedVectorStore}

theorem CacheOk.push (h : st.CacheOk) (hs : st.Stores dim base vecs) (hdim : FitsPage dim)
    (hbase : base ≤ pagedPageSize) {vec : Vec} (hvec : vec.length = dim) : (st.push vec).CacheOk := by
  let pageId := st.nVectors / perPage dim
  let file := pushFile dim st.file st.nVectors vec
  have hother : ∀ y cp bytes, y ≠ pageId → PageBlock st.file y cp bytes → PageBlock file y cp bytes := by
    intro y cp bytes hy hblock
    have hpush := hblock.push hs.file hdim hbase hvec (by rwa [← hs.count_eq])
    rwa [← hs.count_eq] at hpush
  let t : PagedVectorStore := { st with nVectors := st.nVectors + 1, file := file }
  have ht : Backed (PageBlock st.file) t.pageCache t.memory t.nextAddress := h
  have hdrop := ht.invalidate pageId
  have hfile : (t.invalidate pageId).file = file := by
    obtain ⟨ids, cache, memory, heq⟩ := invalidate_frame t pageId
    rw [heq]
  rw [push_eq hs.dim_eq hs.perPage_eq]
  unfold CacheOk
  rw [hfile]
  exact hdrop.mono fun y cp bytes hcp => hother y cp bytes (ne_of_lookup_invalidate hcp)

end Push

/-- A store whose file holds `vecs`, with a cache that is true to the file. -/
structure Serves (dim base : Nat) (vecs : List Vec) (st : PagedVectorStore) : Prop extends
    Stores dim base vecs st where
  cache : st.CacheOk

section Read

variable {dim base : Nat} {vecs : List Vec} {st : PagedVectorStore}

theorem Recached.stores {t : PagedVectorStore} (h : Recached st t) (hs : st.Stores dim base vecs) :
    t.Stores dim base vecs where
  dim_eq := h.dim_eq.trans hs.dim_eq
  perPage_eq := h.perPage_eq.trans hs.perPage_eq
  count_eq := h.count_eq.trans hs.count_eq
  file := h.file_eq ▸ hs.file

theorem Serves.push (h : st.Serves dim base vecs) (hdim : FitsPage dim) (hbase : base ≤ pagedPageSize) {vec : Vec}
    (hvec : vec.length = dim) : (st.push vec).Serves dim base (vecs ++ [vec]) :=
  ⟨h.toStores.push hdim hvec, h.cache.push h.toStores hdim hbase hvec⟩

theorem Serves.touch (h : st.Serves dim base vecs) (x : Nat) : (st.touch x).Serves dim base vecs :=
  ⟨(recached_touch st x).stores h.toStores, (h.cache.touch x).1⟩

/-- `get` caches the page of the slot and points behind its header. -/
theorem Serves.get (h : st.Serves dim base vecs) (slot : Nat) :
    ∃ cp, (st.touch (slot / perPage dim)).pageCache.lookup (slot / perPage dim) = some cp ∧
      (0 < cp.mappedLen ↔ st.SeesFile (slot / perPage dim)) ∧
      PagedVectorStore.get slot st =
        some (⟨cp.mapping, 8 + slot % perPage dim * dim * 4⟩, st.touch (slot / perPage dim)) := by
  obtain ⟨-, cp, hcp, hsees⟩ := h.cache.touch (slot / perPage dim)
  refine ⟨cp, hcp, hsees, ?_⟩
  unfold PagedVectorStore.get
  dsimp only
  rw [h.perPage_eq, hcp, Option.map_some, (h.touch _).dim_eq]

/-- `get` of a slot and the reading of the words behind its pointer. -/
def readSlot (slot : Nat) : StateT PagedVectorStore Option Vec := do
  let p ← PagedVectorStore.get slot
  PagedVectorStore.read p

theorem Stores.unpack_page (h : st.Stores dim base vecs) (hdim : FitsPage dim) {slot : Nat} (hslot : slot < vecs.length) :
    unpack 4 wordOfBytes dim ((extent (slot / perPage dim * pagedPageSize) pagedPageSize st.file).drop
      (8 + slot % perPage dim * dim * 4)) = vecs[slot] := by
  have hend := slot_end_le hdim slot
  have hvec := h.file.vector slot hslot
  have hwords : vecs[slot].length = dim := by
    have hlen := congrArg List.length hvec
    rw [extent_length (h.file.end_le hdim hslot), flatMap_length_const wordBytes_length] at hlen
    omega
  rw [← unpack_take]
  change unpack 4 wordOfBytes dim (extent _ (dim * 4) (extent _ _ st.file)) = _
  rw [extent_extent hend, ← slotOffset, hvec]
  conv_lhs => rw [← hwords]
  rw [unpack_flatMap wordBytes_length wordOfBytes_wordBytes, List.map_id']

/-- A read gives the vector when the page is seen in the file, and zeros otherwise. -/
theorem Serves.readSlot (h : st.Serves dim base vecs) (hdim : FitsPage dim) {slot : Nat} (hslot : slot < vecs.length) :
    ∃ words, PagedVectorStore.readSlot slot st = some (words, st.touch (slot / perPage dim)) ∧
      (st.SeesFile (slot / perPage dim) → words = vecs[slot]) ∧
      (¬ st.SeesFile (slot / perPage dim) → words = List.replicate dim 0) := by
  obtain ⟨cp, hcp, hsees, hget⟩ := h.get slot
  have htouch := h.touch (slot / perPage dim)
  obtain ⟨bytes, hbytes, hblock⟩ := htouch.cache.block _ cp hcp
  let offset := 8 + slot % perPage dim * dim * 4
  have hread : PagedVectorStore.readSlot slot st =
      some (unpack 4 wordOfBytes dim (bytes.drop offset), st.touch (slot / perPage dim)) := by
    change (PagedVectorStore.get slot st).bind (fun r => PagedVectorStore.read r.1 r.2) = _
    rw [hget, Option.bind_some]
    change ((st.touch _).memory.lookup cp.mapping).map _ = _
    rw [hbytes, Option.map_some, htouch.dim_eq]
  refine ⟨_, hread, fun hfile => ?_, fun hstub => ?_⟩
  · rw [hblock.bytes_eq, if_pos (hsees.mpr hfile)]
    exact htouch.toStores.unpack_page hdim hslot
  · have hend : offset + dim * 4 ≤ pagedPageSize := slot_end_le hdim slot
    rw [hblock.bytes_eq, if_neg (fun hmapped => hstub (hsees.mp hmapped)), List.drop_replicate]
    exact unpack_zeros dim _ (by omega)

/-- A read gives the vector exactly when the page is seen in the file, or the vector is zeros anyway. -/
theorem Serves.reads_iff (h : st.Serves dim base vecs) (hdim : FitsPage dim) {slot : Nat} (hslot : slot < vecs.length) :
    (∃ st', PagedVectorStore.readSlot slot st = some (vecs[slot], st')) ↔
      st.SeesFile (slot / perPage dim) ∨ ∀ w ∈ vecs[slot], w = 0 := by
  obtain ⟨words, hread, hfile, hstub⟩ := h.readSlot hdim hslot
  have hwords : (∃ st', PagedVectorStore.readSlot slot st = some (vecs[slot], st')) ↔ words = vecs[slot] := by
    rw [hread]
    exact ⟨fun ⟨_, he⟩ => (Prod.mk.inj (Option.some.inj he)).1, fun he => ⟨_, by rw [he]⟩⟩
  rw [hwords]
  by_cases hsees : st.SeesFile (slot / perPage dim)
  · exact iff_of_true (hfile hsees) (.inl hsees)
  · have hlen : vecs[slot].length = dim := by
      rw [← h.unpack_page hdim hslot, unpack_length]
    rw [hstub hsees, eq_comm, List.eq_replicate_iff]
    constructor
    · exact fun h => .inr h.2
    · rintro (h | h)
      · exact absurd h hsees
      · exact ⟨hlen, h⟩

end Read

section Runs

variable {dim : Nat}

/-- A call on the store. -/
inductive PageCall (dim : Nat) where
  | push (vec : VecOf dim)
  | get (slot : Nat)

def PageCall.pushed : PageCall dim → Option Vec
  | .push vec => some vec
  | .get _ => none

def stepCall (st : PagedVectorStore) : PageCall dim → Option PagedVectorStore
  | .push vec => some (st.push vec)
  | .get slot => (PagedVectorStore.get slot st).map Prod.snd

def runCalls (st : PagedVectorStore) (calls : List (PageCall dim)) : Option PagedVectorStore :=
  calls.foldlM stepCall st

theorem Serves.stepCall {base : Nat} {vecs : List Vec} {st : PagedVectorStore} (h : st.Serves dim base vecs)
    (hdim : FitsPage dim) (hbase : base ≤ pagedPageSize) (call : PageCall dim) :
    ∃ st', st.stepCall call = some st' ∧ st'.Serves dim base (vecs ++ call.pushed.toList) := by
  cases call with
  | push vec => exact ⟨_, rfl, h.push hdim hbase vec.2⟩
  | get slot =>
    obtain ⟨cp, -, -, hget⟩ := h.get slot
    refine ⟨_, congrArg (Option.map Prod.snd) hget, ?_⟩
    change (st.touch (slot / perPage dim)).Serves dim base (vecs ++ [])
    rw [List.append_nil]
    exact h.touch _

theorem pushed_concat (calls : List (PageCall dim)) (call : PageCall dim) (vecs : List Vec) :
    vecs ++ (calls ++ [call]).filterMap PageCall.pushed =
      vecs ++ calls.filterMap PageCall.pushed ++ call.pushed.toList := by
  rw [List.filterMap_append, List.append_assoc]
  cases call <;> rfl

theorem Serves.runCalls {base : Nat} {vecs : List Vec} {st : PagedVectorStore} (h : st.Serves dim base vecs)
    (hdim : FitsPage dim) (hbase : base ≤ pagedPageSize) (calls : List (PageCall dim)) :
    ∃ st', st.runCalls calls = some st' ∧ st'.Serves dim base (vecs ++ calls.filterMap PageCall.pushed) := by
  have hstart : st.Serves dim base (vecs ++ ([] : List (PageCall dim)).filterMap PageCall.pushed) := by
    rwa [List.filterMap_nil, List.append_nil]
  let I (calls : List (PageCall dim)) (t : PagedVectorStore) : Prop :=
    t.Serves dim base (vecs ++ calls.filterMap PageCall.pushed)
  have hstep : ∀ calls t call, I calls t → ∃ t', t.stepCall call = some t' ∧ I (calls ++ [call]) t' := by
    intro calls t call ht
    dsimp only [I]
    rw [pushed_concat]
    exact Serves.stepCall ht hdim hbase call
  exact invariant_foldlM hstep hstart calls

theorem serves_opened {file : Bytes} (h : file.length < pagedPageSize) (dim cacheBytes : Nat) :
    (opened file dim cacheBytes).Serves dim file.length [] :=
  ⟨stores_opened h dim cacheBytes, backed_empty _ _⟩

/-- After any run of pushes and gets, `get` of a slot that was pushed gives its words exactly when the
page is seen in the file, or the words are zeros anyway. -/
theorem read_your_writes_iff (hdim : FitsPage dim) (cacheBytes : Nat) (calls : List (PageCall dim)) :
    let vecs := calls.filterMap PageCall.pushed
    ∃ st₀ st, openFile [] dim cacheBytes = .ok st₀ ∧ st₀.runCalls calls = some st ∧ st.nVectors = vecs.length ∧
      ∀ (slot : Nat) (h : slot < vecs.length),
        (∃ words st', PagedVectorStore.readSlot slot st = some (words, st')) ∧
        ((∃ st', PagedVectorStore.readSlot slot st = some (vecs[slot], st')) ↔
          st.SeesFile (slot / perPage dim) ∨ ∀ w ∈ vecs[slot], w = 0) := by
  intro vecs
  have hempty : (opened [] dim cacheBytes).Serves dim 0 [] :=
    serves_opened (show ([] : Bytes).length < pagedPageSize by decide) dim cacheBytes
  obtain ⟨st, hrun, hst⟩ := hempty.runCalls hdim (Nat.zero_le _) calls
  rw [List.nil_append] at hst
  refine ⟨_, st, openFile_eq hdim [] cacheBytes, hrun, hst.count_eq, fun slot hslot => ⟨?_, hst.reads_iff hdim hslot⟩⟩
  obtain ⟨words, hread, -⟩ := hst.readSlot hdim hslot
  exact ⟨words, _, hread⟩

/-- A vector that fills its page is seen in the file as soon as it is pushed. -/
theorem sees_first_whole (vec : VecOf 1022) : ((opened [] 1022 0).push vec).SeesFile 0 := by
  have hstores := (stores_opened (show ([] : Bytes).length < pagedPageSize by decide) 1022 0).push
    ⟨by decide, by decide⟩ vec.2
  change pagedPageSize ≤ ((opened [] 1022 0).push vec).file.length
  rw [hstores.file.length]
  change pagedPageSize ≤ max 0 (fileLength 1022 1)
  decide

theorem read_your_writes_whole :
    ∃ st₀ st st', openFile [] 1022 0 = .ok st₀ ∧
      st₀.runCalls [(.push ⟨List.replicate 1022 1, List.length_replicate⟩ : PageCall 1022)] = some st ∧
      PagedVectorStore.readSlot 0 st = some (List.replicate 1022 1, st') := by
  have hdim : FitsPage 1022 := ⟨by decide, by decide⟩
  let vec : VecOf 1022 := ⟨List.replicate 1022 1, List.length_replicate⟩
  obtain ⟨st₀, st, hopen, hrun, -, hread⟩ := read_your_writes_iff hdim 0 [PageCall.push vec]
  obtain ⟨-, hiff⟩ := hread 0 Nat.one_pos
  rw [openFile_eq hdim] at hopen
  obtain rfl := Except.ok.inj hopen
  obtain rfl : (opened [] 1022 0).push vec = st := Option.some.inj hrun
  obtain ⟨st', hwords⟩ := hiff.mpr (.inl (sees_first_whole vec))
  exact ⟨_, _, st', openFile_eq hdim [] 0, hrun, hwords⟩

/-- The page of a short vector is not whole in the file, and its words are read as zeros. -/
theorem read_loses :
    ∃ st₀ st st', openFile [] 2 0 = .ok st₀ ∧
      st₀.runCalls [(.push ⟨[1, 2], rfl⟩ : PageCall 2)] = some st ∧
      PagedVectorStore.readSlot 0 st = some ([0, 0], st') :=
  ⟨_, _, _, rfl, rfl, rfl⟩

end Runs

end PagedVectorStore

end NeuralDb
