import NeuralDb.Library.Paging
import NeuralDb.Paged.Audit

/-! How often the store maps a page. A larger cache holds what a smaller one does and more, so that it never maps more
pages, and one with room for all pages maps a page again only after a push to it. -/

namespace NeuralDb

open Library

namespace PagedVectorStore

variable {dim : Nat} {st st' : PagedVectorStore}

/-- How many pages were mapped so far, stubs included. Each took an address of its own. -/
def loads (st : PagedVectorStore) : Nat := st.nextAddress

theorem LruOk.loads_touch (h : st.LruOk) (x : Nat) :
    (st.touch x).loads = st.loads + if x ∈ st.lruOrder then 0 else 1 := by
  simp only [loads, PagedVectorStore.touch, PagedVectorStore.loadPage, ← h.mem_cache]
  split_ifs
  · rfl
  · exact congrArg (· + 1) (evictLru_nextAddress st)
  · rfl

theorem invalidate_loads (st : PagedVectorStore) (x : Nat) : (st.invalidate x).loads = st.loads := by
  unfold invalidate
  split <;> rfl

theorem LruOk.invalidate_order (h : st.LruOk) (x : Nat) : (st.invalidate x).lruOrder = st.lruOrder.erase x := by
  unfold PagedVectorStore.invalidate
  split
  · next hnone =>
    have hout : x ∉ st.lruOrder := fun hx => AList.lookup_eq_none.mp hnone (h.mem_cache.mpr hx)
    exact (List.erase_of_not_mem hout).symm
  · rfl

/-- A push takes the page that it writes to out of the order. -/
theorem LruOk.push_order (h : st.LruOk) (vec : Vec) :
    (st.push vec).lruOrder = st.lruOrder.erase (st.nVectors / st.vectorsPerPage) ∧ (st.push vec).loads = st.loads ∧
      (st.push vec).nVectors = st.nVectors + 1 := by
  obtain ⟨file, hfile⟩ : ∃ file, st.push vec =
      { st with nVectors := st.nVectors + 1, file }.invalidate (st.nVectors / st.vectorsPerPage) := ⟨_, rfl⟩
  have hwritten : { st with nVectors := st.nVectors + 1, file }.LruOk := ⟨h.keys_perm, h.length_le, h.cap_pos⟩
  rw [hfile]
  refine ⟨hwritten.invalidate_order _, invalidate_loads _ _, ?_⟩
  obtain ⟨ids, cache, memory, heq⟩ := invalidate_frame _ _
  rw [heq]

theorem opened_empty {file : Bytes} {cacheBytes : Nat} (h : openFile file dim cacheBytes = .ok st) :
    st.LruOk ∧ st.lruOrder = [] ∧ st.loads = 0 ∧ st.vectorsPerPage = (pagedPageSize - 8) / (dim * 4) ∧
      st.nVectors = file.length / pagedPageSize * ((pagedPageSize - 8) / (dim * 4)) ∧
      st.maxCachedPages = max 1 (cacheBytes / pagedPageSize) := by
  unfold openFile at h
  dsimp only at h
  split_ifs at h
  obtain rfl := Except.ok.inj h
  exact ⟨⟨List.Perm.refl _, Nat.zero_le _, lt_of_lt_of_le Nat.one_pos (le_max_left _ _)⟩, rfl, rfl, rfl, rfl, rfl⟩

theorem LruOk.stepCall_get (h : st.LruOk) (slot : Nat) :
    st.stepCall (.get slot : PageCall dim) = some (st.touch (slot / st.vectorsPerPage)) := by
  obtain ⟨cp, hcp⟩ := h.lookup_touch (slot / st.vectorsPerPage)
  simp [PagedVectorStore.stepCall, PagedVectorStore.get, hcp]

section Larger

/-- Two stores after the same calls, the second with the larger cache. -/
structure Includes (st st' : PagedVectorStore) : Prop where
  lru : st.LruOk
  lru' : st'.LruOk
  perPage_eq : st'.vectorsPerPage = st.vectorsPerPage
  count_eq : st'.nVectors = st.nVectors
  cap_le : st.maxCachedPages ≤ st'.maxCachedPages
  order : st.lruOrder <+: st'.lruOrder
  loads_le : st'.loads ≤ st.loads

theorem Includes.stepCall (h : st.Includes st') (call : PageCall dim) :
    ∃ t t', st.stepCall call = some t ∧ st'.stepCall call = some t' ∧ t.Includes t' := by
  cases call with
  | push vec =>
    obtain ⟨horder, hloads, hcount⟩ := h.lru.push_order vec.1
    obtain ⟨horder', hloads', hcount'⟩ := h.lru'.push_order vec.1
    obtain ⟨hcap, hper⟩ := push_frame st vec.1
    obtain ⟨hcap', hper'⟩ := push_frame st' vec.1
    refine ⟨_, _, rfl, rfl, h.lru.push vec.1, h.lru'.push vec.1, ?_, ?_, ?_, ?_, ?_⟩
    · rw [hper, hper', h.perPage_eq]
    · rw [hcount, hcount', h.count_eq]
    · rw [hcap, hcap']
      exact h.cap_le
    · rw [horder, horder', h.perPage_eq, h.count_eq]
      exact h.order.erase _
    · rw [hloads, hloads']
      exact h.loads_le
  | get slot =>
    refine ⟨_, _, h.lru.stepCall_get slot, h.lru'.stepCall_get slot, ?_⟩
    rw [h.perPage_eq]
    generalize slot / st.vectorsPerPage = x
    have hframe := recached_touch st x
    have hframe' := recached_touch st' x
    obtain ⟨hok, horder, -⟩ := h.lru.touch x
    obtain ⟨hok', horder', -⟩ := h.lru'.touch x
    refine ⟨hok, hok', ?_, ?_, ?_, ?_, ?_⟩
    · rw [hframe.perPage_eq, hframe'.perPage_eq, h.perPage_eq]
    · rw [hframe.count_eq, hframe'.count_eq, h.count_eq]
    · rw [hframe.cap_eq, hframe'.cap_eq]
      exact h.cap_le
    · rw [horder, horder']
      exact Lru.touch_prefix h.cap_le h.order x
    · have hmem : x ∈ st.lruOrder → x ∈ st'.lruOrder := fun hx => h.order.subset hx
      have hloads := h.loads_le
      rw [h.lru.loads_touch, h.lru'.loads_touch]
      split_ifs with hx' hx
      · omega
      · omega
      · exact absurd (hmem ‹_›) hx'
      · omega

theorem Includes.runCalls (h : st.Includes st') (calls : List (PageCall dim)) :
    ∃ t t', st.runCalls calls = some t ∧ st'.runCalls calls = some t' ∧ t.Includes t' := by
  induction calls generalizing st st' with
  | nil => exact ⟨st, st', rfl, rfl, h⟩
  | cons call calls ih =>
    obtain ⟨mid, mid', hmid, hmid', hnext⟩ := h.stepCall call
    obtain ⟨t, t', ht, ht', hlast⟩ := ih hnext
    refine ⟨t, t', ?_, ?_, hlast⟩
    · rw [PagedVectorStore.runCalls, List.foldlM_cons, hmid]
      exact ht
    · rw [PagedVectorStore.runCalls, List.foldlM_cons, hmid']
      exact ht'

end Larger

section Roomy

variable {pages : Finset Nat} {pushes perPage : Nat}

/-- A store with room for all `pages`, none of which was mapped twice but for the `pushes`. -/
structure Roomy (pages : Finset Nat) (pushes perPage : Nat) (st : PagedVectorStore) : Prop where
  lru : st.LruOk
  perPage_eq : st.vectorsPerPage = perPage
  room : pages.card ≤ st.maxCachedPages
  order_in : ∀ x ∈ st.lruOrder, x ∈ pages
  loads_le : st.loads ≤ st.lruOrder.length + pushes

theorem Roomy.push (h : st.Roomy pages pushes perPage) (vec : Vec) : (st.push vec).Roomy pages (pushes + 1) perPage := by
  obtain ⟨horder, hloads, -⟩ := h.lru.push_order vec
  obtain ⟨hcap, hper⟩ := push_frame st vec
  refine ⟨h.lru.push vec, hper.trans h.perPage_eq, hcap ▸ h.room, fun x hx => ?_, ?_⟩
  · rw [horder] at hx
    exact h.order_in x (List.mem_of_mem_erase hx)
  · have hle := h.loads_le
    rw [horder, hloads, List.length_erase]
    split_ifs <;> omega

theorem Roomy.touch (h : st.Roomy pages pushes perPage) {x : Nat} (hx : x ∈ pages) :
    (st.touch x).Roomy pages pushes perPage := by
  have hframe := recached_touch st x
  obtain ⟨hok, horder, -⟩ := h.lru.touch x
  have hle := h.loads_le
  refine ⟨hok, hframe.perPage_eq.trans h.perPage_eq, hframe.cap_eq ▸ h.room, fun y hy => ?_, ?_⟩
  · rcases List.mem_cons.mp (Lru.touch_subset _ x _ (horder ▸ hy)) with rfl | hy
    · exact hx
    · exact h.order_in y hy
  · rw [horder, h.lru.loads_touch, Lru.touch]
    split_ifs with hin hfull
    · rw [List.length_cons, List.length_erase_of_mem hin]
      omega
    · -- the page and those in the cache are more than there is room for
      have hnodup : (x :: st.lruOrder).Nodup := List.nodup_cons.mpr ⟨hin, h.lru.inOrder.nodup⟩
      have hsub : (x :: st.lruOrder).toFinset ⊆ pages := by
        intro y hy
        rcases List.mem_cons.mp (List.mem_toFinset.mp hy) with rfl | hy
        · exact hx
        · exact h.order_in y hy
      have hcard := Finset.card_le_card hsub
      have hroom := h.room
      rw [List.toFinset_card_of_nodup hnodup, List.length_cons] at hcard
      omega
    · rw [List.length_cons]
      omega

theorem Roomy.runCalls (h : st.Roomy pages pushes perPage) (calls : List (PageCall dim))
    (hpages : ∀ slot, PageCall.get slot ∈ calls → slot / perPage ∈ pages) :
    ∃ t, st.runCalls calls = some t ∧ t.Roomy pages (pushes + (calls.filterMap PageCall.pushed).length) perPage := by
  induction calls generalizing st pushes with
  | nil => exact ⟨st, rfl, h⟩
  | cons call calls ih =>
    have hlater : ∀ slot, PageCall.get slot ∈ calls → slot / perPage ∈ pages :=
      fun slot hslot => hpages slot (List.mem_cons_of_mem call hslot)
    cases call with
    | push vec =>
      obtain ⟨t, ht, hroomy⟩ := ih (h.push vec.1) hlater
      rw [Nat.add_assoc, Nat.add_comm 1] at hroomy
      exact ⟨t, ht, hroomy⟩
    | get slot =>
      have hpage := hpages slot List.mem_cons_self
      rw [← h.perPage_eq] at hpage
      obtain ⟨t, ht, hroomy⟩ := ih (h.touch hpage) hlater
      refine ⟨t, ?_, hroomy⟩
      rw [PagedVectorStore.runCalls, List.foldlM_cons, h.lru.stepCall_get slot]
      exact ht

end Roomy

/-- Two stores that were opened on the same file and receive the same calls, where every `mmap` succeeds. Whatever the
smaller cache holds the larger one holds too, and it never maps more pages. A cache with room for all pages that are
read maps no more than these and one for each push. -/
theorem larger_cache {file : Bytes} {cacheBytes cacheBytes' : Nat} {st₀ st₀' : PagedVectorStore}
    (hopen : openFile file dim cacheBytes = .ok st₀) (hopen' : openFile file dim cacheBytes' = .ok st₀')
    (hle : cacheBytes ≤ cacheBytes') (calls : List (PageCall dim)) :
    ∃ st st', st₀.runCalls calls = some st ∧ st₀'.runCalls calls = some st' ∧
      (∀ page ∈ st.pageCache, page ∈ st'.pageCache) ∧ st'.loads ≤ st.loads ∧
      ∀ pages : Finset Nat, (∀ slot, PageCall.get slot ∈ calls → slot / st₀.vectorsPerPage ∈ pages) →
        pages.card ≤ st₀'.maxCachedPages → st'.loads ≤ pages.card + (calls.filterMap PageCall.pushed).length := by
  obtain ⟨hlru, horder, hloads, hper, hcount, hcap⟩ := opened_empty hopen
  obtain ⟨hlru', horder', hloads', hper', hcount', hcap'⟩ := opened_empty hopen'
  have hstart : st₀.Includes st₀' := by
    refine ⟨hlru, hlru', hper'.trans hper.symm, hcount'.trans hcount.symm, ?_, ?_, ?_⟩
    · rw [hcap, hcap']
      exact max_le_max_left 1 (Nat.div_le_div_right hle)
    · rw [horder, horder']
    · rw [hloads, hloads']
  obtain ⟨st, st', hrun, hrun', hend⟩ := hstart.runCalls calls
  refine ⟨st, st', hrun, hrun', fun page hpage => ?_, hend.loads_le, fun pages hpages hroom => ?_⟩
  · exact hend.lru'.mem_cache.mpr (hend.order.subset (hend.lru.mem_cache.mp hpage))
  · have hroomy : st₀'.Roomy pages 0 st₀.vectorsPerPage := by
      refine ⟨hlru', hstart.perPage_eq, hroom, fun x hx => ?_, ?_⟩
      · rw [horder'] at hx
        exact absurd hx List.not_mem_nil
      · rw [hloads']
        exact Nat.zero_le _
    obtain ⟨t, ht, hlast⟩ := hroomy.runCalls calls hpages
    obtain rfl := Option.some.inj (hrun'.symm.trans ht)
    have hbound := hlast.loads_le
    have hcached : st'.lruOrder.length ≤ pages.card := by
      rw [← List.toFinset_card_of_nodup hlast.lru.inOrder.nodup]
      exact Finset.card_le_card fun x hx => hlast.order_in x (List.mem_toFinset.mp hx)
    omega

/-- A cache for one page and a cache for two. -/
theorem larger_cache_two :
    let calls : List (PageCall 1022) := [.get 0, .get 1, .get 0]
    ∃ st st', (opened [] 1022 4096).runCalls calls = some st ∧ (opened [] 1022 8192).runCalls calls = some st' ∧
      (∀ page ∈ st.pageCache, page ∈ st'.pageCache) ∧ st'.loads ≤ 2 := by
  intro calls
  have hdim : FitsPage 1022 := ⟨by decide, by decide⟩
  obtain ⟨st, st', hrun, hrun', hin, -, hroom⟩ :=
    larger_cache (openFile_eq hdim [] 4096) (openFile_eq hdim [] 8192) (by decide) calls
  refine ⟨st, st', hrun, hrun', hin, hroom {0, 1} (fun slot hslot => ?_) (by decide)⟩
  have hslots : slot = 0 ∨ slot = 1 ∨ slot = 0 := by simpa [calls] using hslot
  rcases hslots with rfl | rfl | rfl <;> decide

theorem LruOk.loads_gets (dim : Nat) (h : st.LruOk) (slots : List Nat) :
    ∃ t, st.runCalls (slots.map fun slot => (.get slot : PageCall dim)) = some t ∧
      t.loads = st.loads +
        Lru.misses st.maxCachedPages st.lruOrder (slots.map fun slot => slot / st.vectorsPerPage) := by
  induction slots generalizing st with
  | nil => exact ⟨st, rfl, rfl⟩
  | cons slot slots ih =>
    have hframe := recached_touch st (slot / st.vectorsPerPage)
    obtain ⟨hok, horder, -⟩ := h.touch (slot / st.vectorsPerPage)
    obtain ⟨t, ht, hloads⟩ := ih hok
    rw [hframe.cap_eq, hframe.perPage_eq, horder, h.loads_touch] at hloads
    refine ⟨t, ?_, ?_⟩
    · rw [PagedVectorStore.runCalls, List.map_cons, List.foldlM_cons, h.stepCall_get slot]
      exact ht
    · rw [hloads, List.map_cons, Lru.misses, Nat.add_assoc]

theorem LruOk.runCalls (h : st.LruOk) (calls : List (PageCall dim)) :
    ∃ t, st.runCalls calls = some t ∧ t.LruOk ∧ t.maxCachedPages = st.maxCachedPages ∧
      t.vectorsPerPage = st.vectorsPerPage := by
  induction calls generalizing st with
  | nil => exact ⟨st, rfl, h, rfl, rfl⟩
  | cons call calls ih =>
    obtain ⟨mid, hmid, hok, hcap, hper⟩ : ∃ mid, st.stepCall call = some mid ∧ mid.LruOk ∧
        mid.maxCachedPages = st.maxCachedPages ∧ mid.vectorsPerPage = st.vectorsPerPage := by
      cases call with
      | push vec => exact ⟨_, rfl, h.push vec.1, push_frame st vec.1⟩
      | get slot =>
        have hframe := recached_touch st (slot / st.vectorsPerPage)
        exact ⟨_, h.stepCall_get slot, (h.touch _).1, hframe.cap_eq, hframe.perPage_eq⟩
    obtain ⟨t, ht, hok', hcap', hper'⟩ := ih hok
    refine ⟨t, ?_, hok', hcap'.trans hcap, hper'.trans hper⟩
    rw [PagedVectorStore.runCalls, List.foldlM_cons, hmid]
    exact ht

/-- Gets on a store in any state that it can reach, beside any other way to keep up to `room` pages in memory that has
the same pages there when they are read. Up to a constant the store maps no more than
`cap / (cap - room + 1)` times as many pages, whatever the other one knows of the gets to come. -/
theorem loads_competitive {file : Bytes} {cacheBytes : Nat} {st₀ : PagedVectorStore}
    (hopen : openFile file dim cacheBytes = .ok st₀) (calls : List (PageCall dim)) (slots : List Nat) :
    ∃ st st', st₀.runCalls calls = some st ∧
      st.runCalls (slots.map fun slot => (.get slot : PageCall dim)) = some st' ∧
      ∀ (room : Nat) (held : Finset Nat) (other : List (Nat × Finset Nat)), room ≤ st₀.maxCachedPages →
        other.map Prod.fst = (slots.map fun slot => slot / st₀.vectorsPerPage) → Lru.Serves room held other →
        (st₀.maxCachedPages - room + 1) * (st'.loads - st.loads) ≤
          st₀.maxCachedPages * Lru.served held other + st₀.maxCachedPages * (st₀.maxCachedPages + 1 + held.card) := by
  obtain ⟨hlru, -⟩ := opened_empty hopen
  obtain ⟨st, hrun, hok, hcap, hper⟩ := hlru.runCalls calls
  obtain ⟨st', hgets, hloads⟩ := hok.loads_gets dim slots
  refine ⟨st, st', hrun, hgets, fun room held other hroom hother hserves => ?_⟩
  have hmisses := hok.inOrder.misses_le hok.cap_pos (hcap ▸ hroom) other hserves
  rw [hother, ← hper, hcap] at hmisses
  rw [hcap] at hloads
  rw [hloads, Nat.add_sub_cancel_left]
  exact hmisses

theorem loads_competitive_two :
    let slots := [0, 1, 0]
    ∃ st', (opened [] 1022 4096).runCalls (slots.map fun slot => (.get slot : PageCall 1022)) = some st' ∧
      st'.loads ≤ 5 := by
  intro slots
  have hdim : FitsPage 1022 := ⟨by decide, by decide⟩
  obtain ⟨st, st', hrun, hgets, hbound⟩ := loads_competitive (openFile_eq hdim [] 4096) [] slots
  obtain rfl := Option.some.inj hrun
  refine ⟨st', hgets, ?_⟩
  have hle := hbound 1 ∅ [(0, {0}), (1, {1}), (0, {0})] (by decide) (by decide) (by simp [Lru.Serves])
  have hserved : Lru.served (∅ : Finset Nat) [(0, {0}), (1, {1}), (0, {0})] = 3 := by decide
  have hcap : (opened [] 1022 4096).maxCachedPages = 1 := rfl
  have hstart : (opened [] 1022 4096).loads = 0 := rfl
  rw [hserved, hcap, hstart, Finset.card_empty] at hle
  omega

end PagedVectorStore

end NeuralDb
