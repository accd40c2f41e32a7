import NeuralDb.Library.Interleaving
import NeuralDb.Library.NodeList
import NeuralDb.Paged.Blocks
import NeuralDb.Paged.Offsets
import NeuralDb.Paged.Recency

/-! The page store with its list and its map as they are: the map holds iterators into the list, and a
`get` can fail to map its page. `none` stands for undefined behaviour, such as a stale iterator. -/

namespace NeuralDb

open Library

structure ListedPage extends CachedPage where
  pageId : Nat
  lruIt : Nat

structure ListedStore where
  dim : Nat
  vectorsPerPage : Nat
  maxCachedPages : Nat
  nVectors : Nat
  lruOrder : NodeList Nat := .empty
  pageCache : AList (fun _ : Nat => ListedPage) := ∅
  file : Bytes
  memory : AList (fun _ : Nat => Bytes) := ∅
  nextAddress : Nat := 0

namespace ListedStore

def openFile (file : Bytes) (dim cacheBytes : Nat) : Except String ListedStore :=
  let usable := pagedPageSize - 8
  let vectorsPerPage := usable / (dim * 4)
  if vectorsPerPage = 0 then .error "PagedVectorStore: dim too large for 4KB pages"
  else
    let pagesOnDisk := file.length / pagedPageSize
    .ok { dim, vectorsPerPage, maxCachedPages := max 1 (cacheBytes / pagedPageSize),
          nVectors := pagesOnDisk * vectorsPerPage, file }

def invalidate (s : ListedStore) (pageId : Nat) : Option ListedStore :=
  match s.pageCache.lookup pageId with
  | none => some s
  | some cp => (s.lruOrder.erase cp.lruIt).map fun order =>
    { s with
      memory := if 0 < cp.mappedLen then s.memory.erase cp.mapping else s.memory
      lruOrder := order
      pageCache := s.pageCache.erase pageId }

def push (s : ListedStore) (vec : Vec) : Option (UInt32 × ListedStore) :=
  let site := pushSite (.ofNat s.dim) (.ofNat s.vectorsPerPage) (.ofNat s.nVectors)
  let file := pwrite s.file site.fileWriteOffset.toNat (vec.flatMap wordBytes)
  let file := if site.slotInPage = 0 then pwrite file site.pageOffset.toNat (wordBytes site.pageId) else file
  let s := { s with nVectors := (UInt64.ofNat s.nVectors + 1).toNat, file }
  (s.invalidate site.pageId.toNat).map fun s => (site.slot, s)

/-- `evict_lru_` finds the page by its id, not through an iterator. -/
def evictLru (s : ListedStore) : ListedStore :=
  match s.lruOrder.back with
  | none => s
  | some evictId =>
    match s.pageCache.lookup evictId with
    | none => { s with lruOrder := s.lruOrder.popBack }
    | some cp =>
      { s with
        lruOrder := s.lruOrder.popBack
        memory := s.memory.erase cp.mapping
        pageCache := s.pageCache.erase evictId }

/-- The end of `load_page_`, once `cp` has a mapping; `emplace` keeps an entry that is there. -/
def enterPage (s : ListedStore) (pageId mappedLen : Nat) : ListedStore :=
  let order := s.lruOrder.pushFront pageId
  let cp : ListedPage := { mapping := s.nextAddress, mappedLen, pageId, lruIt := order.front }
  { s with
    nextAddress := s.nextAddress + 1
    memory := s.memory.insert s.nextAddress (PagedVectorStore.pageImage s.file pageId)
    lruOrder := order
    pageCache := if pageId ∈ s.pageCache then s.pageCache else s.pageCache.insert pageId cp }

/-- `load_page_`: when `mmap` fails the page that made room is gone all the same. -/
def loadPage (s : ListedStore) (mmapFails : Bool) (pageId : Nat) : Except String Unit × ListedStore :=
  let s := if s.maxCachedPages ≤ s.pageCache.keys.length then s.evictLru else s
  if s.file.length < pageId * pagedPageSize + pagedPageSize then (.ok (), s.enterPage pageId 0)
  else if mmapFails then (.error "PagedVectorStore: mmap failed", s)
  else (.ok (), s.enterPage pageId pagedPageSize)

/-- `get` up to the address: the page is loaded, or moved to the front through its iterator. -/
def findPage (s : ListedStore) (mmapFails : Bool) (pageId : Nat) : Option (Except String Unit × ListedStore) :=
  match s.pageCache.lookup pageId with
  | none => some (s.loadPage mmapFails pageId)
  | some cp => (s.lruOrder.erase cp.lruIt).map fun order =>
    let order := order.pushFront pageId
    (.ok (), { s with
      lruOrder := order
      pageCache := s.pageCache.insert pageId { cp with lruIt := order.front } })

def get (s : ListedStore) (slot : UInt32) (mmapFails : Bool) : Option (Except String PagePointer × ListedStore) :=
  let pageId := slot.toNat / s.vectorsPerPage
  let slotInPage := slot.toNat % s.vectorsPerPage
  match s.findPage mmapFails pageId with
  | none => none
  | some (.error message, s) => some (.error message, s)
  | some (.ok _, s) => (s.pageCache.lookup pageId).map fun cp => (.ok ⟨cp.mapping, 8 + slotInPage * s.dim * 4⟩, s)

/-- A call, with what `mmap` does if the call comes to it. -/
inductive Request (dim : Nat) where
  | push (vec : VecOf dim)
  | get (slot : UInt32) (mmapFails : Bool)

def step {dim : Nat} (s : ListedStore) : Request dim → Option ListedStore
  | .push vec => (s.push vec).map Prod.snd
  | .get slot mmapFails => (s.get slot mmapFails).map Prod.snd

def run {dim : Nat} (s : ListedStore) (requests : List (Request dim)) : Option ListedStore :=
  requests.foldlM step s

/-- The page that a call gets, for pages of `vectorsPerPage` vectors. -/
def Request.page {dim : Nat} (vectorsPerPage : Nat) : Request dim → Option Nat
  | .push _ => none
  | .get slot _ => some (slot.toNat / vectorsPerPage)

/-- When the page was got last, in calls from the start; 0 when it never was. -/
def lastGet {dim : Nat} (vectorsPerPage : Nat) (requests : List (Request dim)) (pageId : Nat) : Nat :=
  requests.length - requests.reverse.findIdx fun r => r.page vectorsPerPage == some pageId

section LastGet

variable {dim vpp : Nat} {requests : List (Request dim)}

theorem lastGet_le (requests : List (Request dim)) (y : Nat) : lastGet vpp requests y ≤ requests.length :=
  Nat.sub_le _ _

theorem lastGet_concat_self {r : Request dim} {y : Nat} (h : r.page vpp = some y) :
    lastGet vpp (requests ++ [r]) y = requests.length + 1 := by
  rw [lastGet, List.reverse_append, List.reverse_singleton, List.singleton_append, List.findIdx_cons, h]
  simp

theorem lastGet_concat_of_ne {r : Request dim} {y : Nat} (h : r.page vpp ≠ some y) :
    lastGet vpp (requests ++ [r]) y = lastGet vpp requests y := by
  have hne : (r.page vpp == some y) = false := beq_eq_false_iff_ne.mpr h
  rw [lastGet, List.reverse_append, List.reverse_singleton, List.singleton_append, List.findIdx_cons, hne,
    cond_false, List.length_append, List.length_singleton, Nat.add_sub_add_right]
  rfl

end LastGet

/-! ### The list and the map together -/

/-- The store with the iterators left out. -/
def plain (s : ListedStore) (cache : PageCache) : PagedVectorStore where
  dim := s.dim
  vectorsPerPage := s.vectorsPerPage
  maxCachedPages := s.maxCachedPages
  nVectors := s.nVectors
  lruOrder := s.lruOrder.values
  pageCache := cache
  file := s.file
  memory := s.memory
  nextAddress := s.nextAddress

/-- `st` is `s` without its iterators, in order, and the iterators of `s` designate their pages. -/
structure Listed (s : ListedStore) (st : PagedVectorStore) : Prop extends PagedVectorStore.LruOk st where
  store : s.plain st.pageCache = st
  lookup : ∀ y, st.pageCache.lookup y = (s.pageCache.lookup y).map ListedPage.toCachedPage
  own : ∀ y cp, s.pageCache.lookup y = some cp → cp.pageId = y ∧ s.lruOrder.Designates cp.lruIt y

section Listed

variable {s : ListedStore} {st : PagedVectorStore}

theorem Listed.order (h : s.Listed st) : s.lruOrder.values = st.lruOrder :=
  congrArg PagedVectorStore.lruOrder h.store

theorem Listed.nodup (h : s.Listed st) : s.lruOrder.values.Nodup := h.order ▸ h.inOrder.nodup

theorem Listed.mem_iff (h : s.Listed st) (y : Nat) : y ∈ s.pageCache ↔ y ∈ st.pageCache := by
  rw [← AList.lookup_isSome, ← AList.lookup_isSome, h.lookup, Option.isSome_map]

theorem Listed.keys_perm' (h : s.Listed st) : s.pageCache.keys.Perm st.pageCache.keys := by
  apply (List.perm_ext_iff_of_nodup s.pageCache.keys_nodup st.pageCache.keys_nodup).mpr
  intro y
  rw [← AList.mem_keys, ← AList.mem_keys]
  exact h.mem_iff y

theorem Listed.full_iff (h : s.Listed st) :
    s.maxCachedPages ≤ s.pageCache.keys.length ↔ st.maxCachedPages ≤ st.pageCache.keys.length := by
  rw [h.keys_perm'.length_eq, ← congrArg PagedVectorStore.maxCachedPages h.store]
  rfl

/-- The page that loses its place at the back is the one that leaves the map. -/
theorem Listed.evictLru (h : s.Listed st) : s.evictLru.Listed st.evictLru := by
  obtain ⟨hok, horder, -⟩ := h.toLruOk.evictLru
  have hback : s.lruOrder.back = st.lruOrder.getLast? := by rw [NodeList.back_eq, h.order]
  rcases h.toLruOk.evictLru_cases with ⟨hnil, hst⟩ | ⟨ids, evictId, dp, hids, -, hdp, hst⟩
  · have hs : s.evictLru = s := by
      rw [ListedStore.evictLru, hback, hnil]
      rfl
    rw [hs, hst]
    exact h
  · have hfound := h.lookup evictId
    rw [hdp] at hfound
    obtain ⟨cp, hcp, rfl⟩ := Option.map_eq_some_iff.mp hfound.symm
    have hs : s.evictLru = { s with
        lruOrder := s.lruOrder.popBack
        memory := s.memory.erase cp.mapping
        pageCache := s.pageCache.erase evictId } := by
      simp only [ListedStore.evictLru, hback, hids, List.getLast?_concat, hcp]
    have hdrop : st.lruOrder.dropLast = ids := by rw [hids, List.dropLast_concat]
    refine ⟨hok, ?_, fun y => ?_, fun y ep hep => ?_⟩
    · rw [hst, hs, ← hdrop, ← h.store]
      simp only [plain, NodeList.values_popBack]
    · rw [hst, hs]
      by_cases hy : y = evictId
      · subst hy
        rw [AList.lookup_erase, AList.lookup_erase]
        rfl
      · rw [AList.lookup_erase_ne hy, AList.lookup_erase_ne hy, h.lookup]
    · rw [hs] at hep ⊢
      have hy : y ≠ evictId := by
        rintro rfl
        rw [AList.lookup_erase] at hep
        contradiction
      rw [AList.lookup_erase_ne hy] at hep
      obtain ⟨hid, hit⟩ := h.own y ep hep
      -- the other pages are still in the order, so not at its back
      have hin : y ∈ st.evictLru.lruOrder := by
        rw [← hok.mem_cache, hst, AList.mem_erase, ← h.mem_iff]
        exact ⟨hy, AList.lookup_isSome.mp (by rw [hep]; rfl)⟩
      rw [horder, ← h.order] at hin
      exact ⟨hid, hit.popBack hin h.nodup⟩

theorem Listed.enterPage (h : s.Listed st) {x : Nat} (hnew : x ∉ st.pageCache)
    (hroom : st.lruOrder.length < st.maxCachedPages) :
    (s.enterPage x (if s.file.length < x * pagedPageSize + pagedPageSize then 0 else pagedPageSize)).Listed
      (st.mapPage x) := by
  have hnew' : x ∉ s.pageCache := (h.mem_iff x).not.mpr hnew
  obtain ⟨hok, -⟩ := h.toLruOk.mapPage hnew hroom
  have hfile : st.file = s.file := (congrArg PagedVectorStore.file h.store).symm
  have hnext : st.nextAddress = s.nextAddress := (congrArg PagedVectorStore.nextAddress h.store).symm
  refine ⟨hok, ?_, fun y => ?_, fun y cp hcp => ?_⟩
  · rw [← h.store]
    rfl
  · rw [PagedVectorStore.mapPage, ListedStore.enterPage]
    dsimp only
    rw [if_neg hnew']
    by_cases hy : y = x
    · subst hy
      rw [AList.lookup_insert, AList.lookup_insert, hfile, hnext]
      rfl
    · rw [AList.lookup_insert_ne hy, AList.lookup_insert_ne hy, h.lookup]
  · rw [ListedStore.enterPage] at hcp ⊢
    dsimp only at hcp ⊢
    rw [if_neg hnew'] at hcp
    by_cases hy : y = x
    · subst hy
      rw [AList.lookup_insert] at hcp
      obtain rfl := Option.some.inj hcp
      exact ⟨rfl, NodeList.designates_pushFront _ _⟩
    · rw [AList.lookup_insert_ne hy] at hcp
      obtain ⟨hid, hit⟩ := h.own y cp hcp
      exact ⟨hid, hit.pushFront x⟩

/-- What `load_page_` leaves when it throws. -/
def evictIfFull (st : PagedVectorStore) : PagedVectorStore :=
  if st.maxCachedPages ≤ st.pageCache.keys.length then st.evictLru else st

theorem evictIfFull_room (h : st.LruOk) :
    (evictIfFull st).lruOrder.length < (evictIfFull st).maxCachedPages := by
  unfold evictIfFull
  split_ifs with hfull
  · have hle := h.length_le
    have hpos := h.cap_pos
    rw [h.evictLru.2.1, (PagedVectorStore.recached_evictLru st).cap_eq, List.length_dropLast]
    omega
  · rw [h.keys_length] at hfull
    exact not_le.mp hfull

theorem evictIfFull_sublist (h : st.LruOk) : (evictIfFull st).lruOrder.Sublist st.lruOrder := by
  unfold evictIfFull
  split_ifs
  · rw [h.evictLru.2.1]
    exact List.dropLast_sublist _
  · exact List.Sublist.refl _

theorem loadPage_eq (st : PagedVectorStore) (x : Nat) : st.loadPage x = (evictIfFull st).mapPage x := by
  unfold PagedVectorStore.loadPage evictIfFull
  split_ifs <;> rfl

/-- `load_page_` maps the page as `PagedVectorStore.loadPage` does, or throws after the eviction. -/
theorem Listed.loadPage (h : s.Listed st) (mmapFails : Bool) {x : Nat} (hnew : x ∉ st.pageCache) :
    ∃ result s', s.loadPage mmapFails x = (result, s') ∧
      (result = .ok () ∧ s'.Listed (st.loadPage x) ∨
        mmapFails = true ∧ result = .error "PagedVectorStore: mmap failed" ∧ s'.Listed (evictIfFull st)) := by
  let t := if s.maxCachedPages ≤ s.pageCache.keys.length then s.evictLru else s
  have ht : t.Listed (evictIfFull st) := by
    change (if s.maxCachedPages ≤ s.pageCache.keys.length then s.evictLru else s).Listed _
    unfold evictIfFull
    by_cases hfull : st.maxCachedPages ≤ st.pageCache.keys.length
    · rw [if_pos hfull, if_pos (h.full_iff.mpr hfull)]
      exact h.evictLru
    · rw [if_neg hfull, if_neg (h.full_iff.not.mpr hfull)]
      exact h
  have hout : x ∉ (evictIfFull st).pageCache := by
    unfold evictIfFull
    split_ifs
    · exact PagedVectorStore.evictLru_notMem hnew
    · exact hnew
  have hload : s.loadPage mmapFails x =
      if t.file.length < x * pagedPageSize + pagedPageSize then (.ok (), t.enterPage x 0)
      else if mmapFails then (.error "PagedVectorStore: mmap failed", t)
      else (.ok (), t.enterPage x pagedPageSize) := rfl
  have henter := ht.enterPage hout (evictIfFull_room h.toLruOk)
  rw [hload, loadPage_eq]
  by_cases hstub : t.file.length < x * pagedPageSize + pagedPageSize
  · rw [if_pos hstub] at henter ⊢
    exact ⟨_, _, rfl, .inl ⟨rfl, henter⟩⟩
  · rw [if_neg hstub] at henter ⊢
    cases mmapFails with
    | true => exact ⟨_, _, rfl, .inr ⟨rfl, rfl, ht⟩⟩
    | false => exact ⟨_, _, rfl, .inl ⟨rfl, henter⟩⟩

theorem Listed.findPage (h : s.Listed st) (mmapFails : Bool) (x : Nat) :
    ∃ result s', s.findPage mmapFails x = some (result, s') ∧
      (result = .ok () ∧ s'.Listed (st.touch x) ∨
        (x ∉ st.pageCache ∧ mmapFails = true) ∧ result = .error "PagedVectorStore: mmap failed" ∧
          s'.Listed (evictIfFull st)) := by
  unfold ListedStore.findPage
  cases hcp : s.pageCache.lookup x with
  | none =>
    have hnew : x ∉ st.pageCache := (h.mem_iff x).not.mp (AList.lookup_eq_none.mp hcp)
    obtain ⟨result, s', hload, hcases⟩ := h.loadPage mmapFails hnew
    refine ⟨result, s', congrArg some hload, ?_⟩
    rw [PagedVectorStore.touch, if_neg hnew]
    rcases hcases with hok | ⟨hfails, herror, hlisted⟩
    · exact .inl hok
    · exact .inr ⟨⟨hnew, hfails⟩, herror, hlisted⟩
  | some cp =>
    have hin : x ∈ st.pageCache := (h.mem_iff x).mp (AList.lookup_isSome.mp (by rw [hcp]; rfl))
    obtain ⟨hid, hit⟩ := h.own x cp hcp
    obtain ⟨order, herase, hvalues, -, hothers⟩ := hit.erase h.nodup
    have htouch : st.touch x = { st with lruOrder := x :: st.lruOrder.erase x } := if_pos hin
    have hmoved : (s.lruOrder.erase cp.lruIt).map (fun order =>
        ((.ok () : Except String Unit), { s with
          lruOrder := order.pushFront x
          pageCache := s.pageCache.insert x { cp with lruIt := (order.pushFront x).front } })) =
        some (.ok (), { s with
          lruOrder := order.pushFront x
          pageCache := s.pageCache.insert x { cp with lruIt := (order.pushFront x).front } }) := by
      rw [herase]
      rfl
    -- the page moves to a fresh node; the iterators of the other pages outlive the erased one
    refine ⟨_, _, hmoved, .inl ⟨rfl, (h.toLruOk.touch x).1, ?_, fun y => ?_, fun y ep hep => ?_⟩⟩
    · rw [htouch, ← h.store]
      simp only [plain, NodeList.values_pushFront, hvalues]
    · rw [htouch]
      by_cases hy : y = x
      · subst hy
        rw [AList.lookup_insert, h.lookup, hcp]
        rfl
      · rw [AList.lookup_insert_ne hy, h.lookup]
    · by_cases hy : y = x
      · subst hy
        rw [AList.lookup_insert] at hep
        obtain rfl := Option.some.inj hep
        exact ⟨hid, NodeList.designates_pushFront _ _⟩
      · rw [AList.lookup_insert_ne hy] at hep
        obtain ⟨hid', hit'⟩ := h.own y ep hep
        exact ⟨hid', (hothers _ _ hy hit').pushFront x⟩

theorem Listed.invalidate (h : s.Listed st) (x : Nat) :
    ∃ s', s.invalidate x = some s' ∧ s'.Listed (st.invalidate x) := by
  unfold ListedStore.invalidate
  cases hcp : s.pageCache.lookup x with
  | none =>
    have hst : st.invalidate x = st := by
      rw [PagedVectorStore.invalidate, h.lookup, hcp]
      rfl
    rw [hst]
    exact ⟨s, rfl, h⟩
  | some cp =>
    obtain ⟨hid, hit⟩ := h.own x cp hcp
    obtain ⟨order, herase, hvalues, -, hothers⟩ := hit.erase h.nodup
    have hst : st.invalidate x = { st with
        memory := if 0 < cp.mappedLen then st.memory.erase cp.mapping else st.memory
        lruOrder := st.lruOrder.erase x
        pageCache := st.pageCache.erase x } := by
      rw [PagedVectorStore.invalidate, h.lookup, hcp]
      rfl
    dsimp only
    rw [herase, Option.map_some]
    refine ⟨_, rfl, h.toLruOk.invalidate x, ?_, fun y => ?_, fun y ep hep => ?_⟩
    · rw [hst, ← h.store]
      simp only [plain, hvalues]
    · rw [hst]
      by_cases hy : y = x
      · subst hy
        rw [AList.lookup_erase, AList.lookup_erase]
        rfl
      · rw [AList.lookup_erase_ne hy, AList.lookup_erase_ne hy, h.lookup]
    · have hy : y ≠ x := by
        rintro rfl
        rw [AList.lookup_erase] at hep
        contradiction
      rw [AList.lookup_erase_ne hy] at hep
      obtain ⟨hid', hit'⟩ := h.own y ep hep
      exact ⟨hid', hothers _ _ hy hit'⟩

theorem Listed.push (h : s.Listed st) (vec : Vec) :
    ∃ s', s.push vec = some ((st.push64 vec).1, s') ∧ s'.Listed (st.push64 vec).2 := by
  let site := pushSite (.ofNat s.dim) (.ofNat s.vectorsPerPage) (.ofNat s.nVectors)
  let file := pwrite s.file site.fileWriteOffset.toNat (vec.flatMap wordBytes)
  let written := if site.slotInPage = 0 then pwrite file site.pageOffset.toNat (wordBytes site.pageId) else file
  let count := (UInt64.ofNat s.nVectors + 1).toNat
  have hok : (s.plain st.pageCache).LruOk := h.store.symm ▸ h.toLruOk
  have hwritten : Listed { s with nVectors := count, file := written }
      { s.plain st.pageCache with nVectors := count, file := written } :=
    ⟨⟨hok.keys_perm, hok.length_le, hok.cap_pos⟩, rfl, h.lookup, h.own⟩
  obtain ⟨s', hinvalidate, hlisted⟩ := hwritten.invalidate site.pageId.toNat
  rw [← h.store]
  exact ⟨s', congrArg (Option.map fun s => (site.slot, s)) hinvalidate, hlisted⟩

/-- `get` returns what `PagedVectorStore.get` does, unless the page has to be mapped and that fails. -/
theorem Listed.get (h : s.Listed st) (slot : UInt32) (mmapFails : Bool) :
    ∃ result s', s.get slot mmapFails = some (result, s') ∧
      ((∃ p, result = .ok p ∧ PagedVectorStore.get slot.toNat st = some (p, st.touch (slot.toNat / s.vectorsPerPage))) ∧
          s'.Listed (st.touch (slot.toNat / s.vectorsPerPage)) ∨
        (slot.toNat / s.vectorsPerPage ∉ st.pageCache ∧ mmapFails = true) ∧
          result = .error "PagedVectorStore: mmap failed" ∧ s'.Listed (evictIfFull st)) := by
  let x := slot.toNat / s.vectorsPerPage
  obtain ⟨result, s', hfind, ⟨rfl, hlisted⟩ | ⟨hfails, rfl, hlisted⟩⟩ := h.findPage mmapFails x
  · obtain ⟨rest, horder, -, -⟩ := h.inOrder.touch_eq x
    have hin : x ∈ s'.pageCache := by
      rw [hlisted.mem_iff, hlisted.mem_cache, (h.toLruOk.touch x).2.1, horder]
      exact List.mem_cons_self
    obtain ⟨cp, hcp⟩ := Option.isSome_iff_exists.mp (AList.lookup_isSome.mpr hin)
    have hdim : (st.touch x).dim = s'.dim := (congrArg PagedVectorStore.dim hlisted.store).symm
    have hvpp : st.vectorsPerPage = s.vectorsPerPage := (congrArg PagedVectorStore.vectorsPerPage h.store).symm
    refine ⟨.ok ⟨cp.mapping, 8 + slot.toNat % s.vectorsPerPage * s'.dim * 4⟩, s', ?_, .inl ⟨⟨_, rfl, ?_⟩, hlisted⟩⟩
    · rw [ListedStore.get, hfind]
      dsimp only
      rw [hcp]
      rfl
    · rw [PagedVectorStore.get, hvpp, hlisted.lookup, hcp, hdim]
      rfl
  · refine ⟨_, s', ?_, .inr ⟨hfails, rfl, hlisted⟩⟩
    rw [ListedStore.get, hfind]

end Listed

/-! ### Runs -/

/-- A store after the calls `requests`: the cached pages are those got last, the last one in front. -/
structure Recorded {dim : Nat} (s : ListedStore) (requests : List (Request dim)) (st : PagedVectorStore) : Prop
    extends Listed s st where
  perPage_eq : s.vectorsPerPage = perPage dim
  gotten : ∀ y ∈ st.lruOrder, 0 < lastGet (perPage dim) requests y
  recent : Lru.Ranked (lastGet (perPage dim) requests) st.lruOrder

section Runs

variable {dim : Nat} {s : ListedStore} {st : PagedVectorStore} {requests : List (Request dim)}

theorem invalidate_sublist (st : PagedVectorStore) (x : Nat) : (st.invalidate x).lruOrder.Sublist st.lruOrder := by
  unfold PagedVectorStore.invalidate
  split
  · exact List.Sublist.refl _
  · exact List.erase_sublist

theorem invalidate_pages (st : PagedVectorStore) (x : Nat) :
    (st.invalidate x).vectorsPerPage = st.vectorsPerPage ∧ (st.invalidate x).maxCachedPages = st.maxCachedPages := by
  unfold PagedVectorStore.invalidate
  split <;> exact ⟨rfl, rfl⟩

theorem Listed.cap_eq (h : s.Listed st) : s.maxCachedPages = st.maxCachedPages :=
  congrArg PagedVectorStore.maxCachedPages h.store

theorem Listed.vectorsPerPage_eq (h : s.Listed st) : s.vectorsPerPage = st.vectorsPerPage :=
  congrArg PagedVectorStore.vectorsPerPage h.store

/-- Pages that leave the cache, in a call that gets none of those that stay. -/
theorem Recorded.drop (h : s.Recorded requests st) {s' : ListedStore} {st' : PagedVectorStore} {r : Request dim}
    (hlisted : s'.Listed st') (hvpp : st'.vectorsPerPage = st.vectorsPerPage)
    (hsub : st'.lruOrder.Sublist st.lruOrder) (hother : ∀ y ∈ st.lruOrder, r.page (perPage dim) ≠ some y) :
    s'.Recorded (requests ++ [r]) st' where
  toListed := hlisted
  perPage_eq := hlisted.vectorsPerPage_eq.trans (hvpp.trans (h.vectorsPerPage_eq.symm.trans h.perPage_eq))
  gotten y hy := by
    rw [lastGet_concat_of_ne (hother y (hsub.subset hy))]
    exact h.gotten y (hsub.subset hy)
  recent := h.recent.sublist hsub fun y hy => lastGet_concat_of_ne (hother y (hsub.subset hy))

/-- The page of a `get` goes to the front. -/
theorem Recorded.touch (h : s.Recorded requests st) {s' : ListedStore} {r : Request dim} {x : Nat}
    (hr : r.page (perPage dim) = some x) (hlisted : s'.Listed (st.touch x)) :
    s'.Recorded (requests ++ [r]) (st.touch x) := by
  have hsame : ∀ y, y ≠ x → lastGet (perPage dim) (requests ++ [r]) y = lastGet (perPage dim) requests y := by
    intro y hy
    apply lastGet_concat_of_ne
    rw [hr]
    exact fun he => hy (Option.some.inj he).symm
  have hlast : lastGet (perPage dim) (requests ++ [r]) x = requests.length + 1 := lastGet_concat_self hr
  have horder := (h.toLruOk.touch x).2.1
  have hvpp := (PagedVectorStore.recached_touch st x).perPage_eq
  refine ⟨hlisted, hlisted.vectorsPerPage_eq.trans (hvpp.trans (h.vectorsPerPage_eq.symm.trans h.perPage_eq)),
    fun y hy => ?_, ?_⟩
  · by_cases hyx : y = x
    · rw [hyx, hlast]
      exact Nat.succ_pos _
    · rw [hsame y hyx]
      have hmem := Lru.touch_subset _ x _ (horder ▸ hy)
      exact h.gotten y ((List.mem_cons.mp hmem).resolve_left hyx)
  · rw [horder]
    apply h.recent.touch h.inOrder hsame
    intro y
    rw [hlast]
    exact Nat.lt_succ_of_le (lastGet_le requests y)

theorem evictIfFull_recached (st : PagedVectorStore) : PagedVectorStore.Recached st (evictIfFull st) := by
  unfold evictIfFull
  split_ifs
  · exact PagedVectorStore.recached_evictLru st
  · exact ⟨rfl, rfl, rfl, rfl, rfl⟩

theorem Recorded.step (h : s.Recorded requests st) (r : Request dim) :
    ∃ s' st', s.step r = some s' ∧ s'.Recorded (requests ++ [r]) st' ∧ s'.maxCachedPages = s.maxCachedPages := by
  cases r with
  | push vec =>
    obtain ⟨s', hpush, hlisted⟩ := h.toListed.push vec
    have hsame : (st.push64 vec).2.vectorsPerPage = st.vectorsPerPage ∧
        (st.push64 vec).2.maxCachedPages = st.maxCachedPages := invalidate_pages _ _
    have hsub : (st.push64 vec).2.lruOrder.Sublist st.lruOrder := invalidate_sublist _ _
    refine ⟨s', _, congrArg (Option.map Prod.snd) hpush, h.drop hlisted hsame.1 hsub fun y _ => ?_,
      hlisted.cap_eq.trans (hsame.2.trans h.cap_eq.symm)⟩
    exact Option.some_ne_none y |>.symm
  | get slot mmapFails =>
    have hpage : (Request.get slot mmapFails : Request dim).page (perPage dim) = some (slot.toNat / s.vectorsPerPage) := by
      rw [h.perPage_eq]
      rfl
    obtain ⟨result, s', hget, ⟨-, hlisted⟩ | ⟨⟨hnew, -⟩, -, hlisted⟩⟩ := h.toListed.get slot mmapFails
    · have hcap := (PagedVectorStore.recached_touch st (slot.toNat / s.vectorsPerPage)).cap_eq
      exact ⟨s', _, congrArg (Option.map Prod.snd) hget, h.touch hpage hlisted,
        hlisted.cap_eq.trans (hcap.trans h.cap_eq.symm)⟩
    · have hsame := evictIfFull_recached st
      refine ⟨s', _, congrArg (Option.map Prod.snd) hget,
        h.drop hlisted hsame.perPage_eq (evictIfFull_sublist h.toLruOk) fun y hy => ?_,
        hlisted.cap_eq.trans (hsame.cap_eq.trans h.cap_eq.symm)⟩
      rw [hpage]
      rintro ⟨⟩
      exact hnew (h.mem_cache.mpr hy)

theorem Recorded.run (h : s.Recorded ([] : List (Request dim)) st) (requests : List (Request dim)) :
    ∃ s' st', s.run requests = some s' ∧ s'.Recorded requests st' ∧ s'.maxCachedPages = s.maxCachedPages := by
  let I (requests : List (Request dim)) (t : ListedStore) : Prop :=
    ∃ st', t.Recorded requests st' ∧ t.maxCachedPages = s.maxCachedPages
  have hstep : ∀ requests t r, I requests t → ∃ s', t.step r = some s' ∧ I (requests ++ [r]) s' := by
    rintro requests t r ⟨st', ht, hcap⟩
    obtain ⟨s', st'', hr, h', hcap'⟩ := ht.step r
    exact ⟨s', hr, st'', h', hcap'.trans hcap⟩
  obtain ⟨s', hrun, st', h', hcap⟩ := invariant_foldlM hstep ⟨st, h, rfl⟩ requests
  exact ⟨s', st', hrun, h', hcap⟩

/-- The cache of a store after the calls `requests`. -/
structure LruInvariant (s : ListedStore) (requests : List (Request dim)) : Prop where
  nodup : s.lruOrder.values.Nodup
  keys_perm : s.lruOrder.values.Perm s.pageCache.keys
  own : ∀ y cp, s.pageCache.lookup y = some cp → cp.pageId = y ∧ s.lruOrder.Designates cp.lruIt y
  size_le : s.pageCache.keys.length ≤ s.maxCachedPages
  gotten : ∀ y ∈ s.lruOrder.values, 0 < lastGet (perPage dim) requests y
  recent : Lru.Ranked (lastGet (perPage dim) requests) s.lruOrder.values

theorem Recorded.invariant (h : s.Recorded requests st) : s.LruInvariant requests where
  nodup := h.nodup
  keys_perm := by
    rw [h.order]
    exact h.keys_perm.trans h.keys_perm'.symm
  own := h.own
  size_le := by
    rw [h.keys_perm'.length_eq, h.keys_length, h.cap_eq]
    exact h.length_le
  gotten y hy := h.gotten y (h.order ▸ hy)
  recent := h.order ▸ h.recent

/-- A miss on a full cache drops the page at the back, whether the new page can be mapped or not. -/
theorem Recorded.evicts (h : s.Recorded requests st) (slot : UInt32) (mmapFails : Bool)
    (hmiss : slot.toNat / perPage dim ∉ s.pageCache) (hfull : s.pageCache.keys.length = s.maxCachedPages) :
    ∃ victim s', s.step (.get slot mmapFails : Request dim) = some s' ∧ victim ∈ s.pageCache ∧
      (∀ y ∈ s.pageCache, y ≠ victim →
        lastGet (perPage dim) requests victim < lastGet (perPage dim) requests y) ∧
      ∀ y ∈ s.pageCache, (y ∈ s'.pageCache ↔ y ≠ victim) := by
  have hmiss' : slot.toNat / s.vectorsPerPage ∉ st.pageCache := by
    rwa [h.perPage_eq, ← h.mem_iff]
  have hfull' : st.maxCachedPages ≤ st.pageCache.keys.length := h.full_iff.mp hfull.ge
  have hpos : st.lruOrder ≠ [] := by
    intro hnil
    have hcap := h.cap_pos
    rw [h.keys_length, hnil] at hfull'
    exact absurd hfull' (not_le.mpr hcap)
  obtain ⟨init, victim, hinit⟩ := (List.eq_nil_or_concat st.lruOrder).resolve_left hpos
  rw [List.concat_eq_append] at hinit
  have hdrop : (evictIfFull st).lruOrder = init := by
    rw [evictIfFull, if_pos hfull', h.toLruOk.evictLru.2.1, hinit, List.dropLast_concat]
  have hnodup := h.inOrder.nodup
  have hranked := h.recent
  rw [hinit] at hnodup hranked
  have hnot : victim ∉ init :=
    fun hmem => (List.nodup_append.mp hnodup).2.2 _ hmem _ (List.mem_singleton_self _) rfl
  have hcached : ∀ y, y ∈ s.pageCache ↔ y ∈ init ∨ y = victim := by
    intro y
    rw [h.mem_iff, h.mem_cache, hinit, List.mem_append, List.mem_singleton]
  have hothers : ∀ y ∈ s.pageCache, (y ∈ init ↔ y ≠ victim) := by
    intro y hy
    constructor
    · rintro hin rfl
      exact hnot hin
    · exact ((hcached y).mp hy).resolve_right
  obtain ⟨result, s', hget, hcases⟩ := h.toListed.get slot mmapFails
  refine ⟨victim, s', congrArg (Option.map Prod.snd) hget, (hcached victim).mpr (.inr rfl), fun y hy hne => ?_,
    fun y hy => ?_⟩
  · exact (List.pairwise_append.mp hranked).2.2 y ((hothers y hy).mpr hne) victim (List.mem_singleton_self _)
  · rw [← hothers y hy]
    rcases hcases with ⟨-, hlisted⟩ | ⟨-, -, hlisted⟩
    · have hne : y ≠ slot.toNat / s.vectorsPerPage := by
        rintro rfl
        exact hmiss' ((h.mem_iff _).mp hy)
      have hload : (st.touch (slot.toNat / s.vectorsPerPage)).lruOrder = slot.toNat / s.vectorsPerPage :: init := by
        rw [PagedVectorStore.touch, if_neg hmiss', loadPage_eq, PagedVectorStore.mapPage, hdrop]
      rw [hlisted.mem_iff, hlisted.mem_cache, hload, List.mem_cons, or_iff_right hne]
    · rw [hlisted.mem_iff, hlisted.mem_cache, hdrop]

theorem recorded_openFile (hdim : FitsPage dim) (file : Bytes) (cacheBytes : Nat) :
    ∃ s, openFile file dim cacheBytes = .ok s ∧ s.maxCachedPages = max 1 (cacheBytes / pagedPageSize) ∧
      s.Recorded ([] : List (Request dim)) (PagedVectorStore.opened file dim cacheBytes) := by
  refine ⟨_, if_neg (perPage_pos hdim).ne', rfl, ⟨⟨⟨?_, ?_, ?_⟩, rfl, fun y => ?_, fun y cp hcp => ?_⟩, rfl, ?_, ?_⟩⟩
  · exact List.Perm.refl _
  · exact Nat.zero_le _
  · exact lt_of_lt_of_le Nat.one_pos (le_max_left _ _)
  · rfl
  · exact absurd hcp (by rw [AList.lookup_empty]; simp)
  · exact fun y hy => absurd hy List.not_mem_nil
  · exact List.Pairwise.nil

/-- Any calls on a store opened on any file, with any failures of `mmap`: no iterator is ever stale, the
list and the map have the same pages and no more than the cache has room for, the pages stand in the order
of their last `get`, and a miss on a full cache drops the page whose last `get` is the oldest. -/
theorem lru_invariant (hdim : FitsPage dim) (file : Bytes) (cacheBytes : Nat) (requests : List (Request dim)) :
    ∃ s₀ s, openFile file dim cacheBytes = .ok s₀ ∧ s₀.run requests = some s ∧
      s.maxCachedPages = max 1 (cacheBytes / pagedPageSize) ∧ s.LruInvariant requests ∧
      ∀ (slot : UInt32) (mmapFails : Bool), slot.toNat / perPage dim ∉ s.pageCache →
        s.pageCache.keys.length = s.maxCachedPages →
        ∃ victim s', s.step (.get slot mmapFails : Request dim) = some s' ∧ victim ∈ s.pageCache ∧
          (∀ y ∈ s.pageCache, y ≠ victim →
            lastGet (perPage dim) requests victim < lastGet (perPage dim) requests y) ∧
          ∀ y ∈ s.pageCache, (y ∈ s'.pageCache ↔ y ≠ victim) := by
  obtain ⟨s₀, hopen, hcap₀, h₀⟩ := recorded_openFile hdim file cacheBytes
  obtain ⟨s, st, hrun, h, hcap⟩ := h₀.run requests
  exact ⟨s₀, s, hopen, hrun, hcap.trans hcap₀, h.invariant, h.evicts⟩

/-- One vector a page, room for two pages, and a page that cannot be mapped. -/
theorem lru_invariant_fails :
    ∃ s₀ s, openFile (List.replicate 16384 0) 1021 8192 = .ok s₀ ∧
      s₀.run [(.get 0 false : Request 1021), .get 1 false, .get 0 false, .get 2 true, .get 3 false] = some s ∧
      s.LruInvariant [(.get 0 false : Request 1021), .get 1 false, .get 0 false, .get 2 true, .get 3 false] := by
  obtain ⟨s₀, s, hopen, hrun, -, hinvariant, -⟩ := lru_invariant (⟨by decide, by decide⟩ : FitsPage 1021)
    (List.replicate 16384 0) 8192 [.get 0 false, .get 1 false, .get 0 false, .get 2 true, .get 3 false]
  exact ⟨s₀, s, hopen, hrun, hinvariant⟩

end Runs

end ListedStore

end NeuralDb
