import NeuralDb.Library.Lru
import NeuralDb.Paged.Blocks

/-! The recency order of a page store of any dimension: the cached pages, the last one used in front. -/

namespace NeuralDb

open Library

namespace PagedVectorStore

/-- `t` is `st` with another cache. -/
structure Recached (st t : PagedVectorStore) : Prop where
  dim_eq : t.dim = st.dim
  perPage_eq : t.vectorsPerPage = st.vectorsPerPage
  cap_eq : t.maxCachedPages = st.maxCachedPages
  count_eq : t.nVectors = st.nVectors
  file_eq : t.file = st.file

theorem Recached.trans {t u : PagedVectorStore} (hst : Recached st t) (htu : Recached t u) : Recached st u where
  dim_eq := htu.dim_eq.trans hst.dim_eq
  perPage_eq := htu.perPage_eq.trans hst.perPage_eq
  cap_eq := htu.cap_eq.trans hst.cap_eq
  count_eq := htu.count_eq.trans hst.count_eq
  file_eq := htu.file_eq.trans hst.file_eq

theorem recached_evictLru (st : PagedVectorStore) : Recached st st.evictLru := by
  unfold evictLru
  split
  · exact ⟨rfl, rfl, rfl, rfl, rfl⟩
  · split <;> exact ⟨rfl, rfl, rfl, rfl, rfl⟩

theorem recached_mapPage (st : PagedVectorStore) (x : Nat) : Recached st (st.mapPage x) := ⟨rfl, rfl, rfl, rfl, rfl⟩

theorem recached_touch (st : PagedVectorStore) (x : Nat) : Recached st (st.touch x) := by
  unfold touch loadPage
  split_ifs
  · exact ⟨rfl, rfl, rfl, rfl, rfl⟩
  · exact (recached_evictLru st).trans (recached_mapPage _ x)
  · exact recached_mapPage st x

theorem evictLru_notMem {st : PagedVectorStore} {x : Nat} (hx : x ∉ st.pageCache) : x ∉ st.evictLru.pageCache := by
  unfold evictLru
  split
  · exact hx
  · split
    · exact hx
    · exact fun hmem => hx (AList.mem_erase.mp hmem).2

section Touch

variable {st : PagedVectorStore} {x y : Nat} {cp : CachedPage}

theorem evictLru_nextAddress (st : PagedVectorStore) : st.evictLru.nextAddress = st.nextAddress := by
  unfold evictLru
  split
  · rfl
  · split <;> rfl

theorem nextAddress_le_touch (st : PagedVectorStore) (x : Nat) : st.nextAddress ≤ (st.touch x).nextAddress := by
  unfold touch loadPage
  split_ifs
  · exact le_rfl
  · rw [← evictLru_nextAddress st]
    exact Nat.le_succ _
  · exact Nat.le_succ _

theorem lookup_of_evictLru (h : st.evictLru.pageCache.lookup y = some cp) : st.pageCache.lookup y = some cp := by
  unfold evictLru at h
  split at h
  · exact h
  · split at h
    · exact h
    · exact (lookup_of_erase h).2

theorem lookup_of_mapPage (h : (st.mapPage x).pageCache.lookup y = some cp) :
    st.pageCache.lookup y = some cp ∨ cp.mapping = st.nextAddress := by
  unfold mapPage at h
  by_cases hy : y = x
  · subst hy
    rw [AList.lookup_insert] at h
    exact .inr (congrArg CachedPage.mapping (Option.some.inj h)).symm
  · exact .inl ((AList.lookup_insert_ne hy).symm.trans h)

/-- A touch maps pages at new addresses only. -/
theorem lookup_of_touch (h : (st.touch x).pageCache.lookup y = some cp) :
    st.pageCache.lookup y = some cp ∨ cp.mapping = st.nextAddress := by
  unfold touch loadPage at h
  split_ifs at h
  · exact .inl h
  · rcases lookup_of_mapPage h with hold | hnew
    · exact .inl (lookup_of_evictLru hold)
    · exact .inr (hnew.trans (evictLru_nextAddress st))
  · exact lookup_of_mapPage h

/-- After a touch every cached page has a block, the touched one a block with the image of the page if it
is a new one. -/
theorem backed_touch {img : Nat → CachedPage → Bytes → Prop} (h : Backed img st.pageCache st.memory st.nextAddress)
    (himg : ∀ address, img x
      ⟨address, if st.file.length < x * pagedPageSize + pagedPageSize then 0 else pagedPageSize⟩
      (pageImage st.file x)) :
    Backed img (st.touch x).pageCache (st.touch x).memory (st.touch x).nextAddress := by
  unfold touch loadPage
  split_ifs with hx
  · exact h
  · rw [← (recached_evictLru st).file_eq] at himg
    exact h.evictLru.mapPage (evictLru_notMem hx) himg
  · exact h.mapPage hx himg

end Touch

/-- The order lists the cached pages, of which there are no more than the cache has room for. -/
structure LruOk (st : PagedVectorStore) : Prop where
  keys_perm : st.lruOrder.Perm st.pageCache.keys
  length_le : st.lruOrder.length ≤ st.maxCachedPages
  cap_pos : 0 < st.maxCachedPages

section LruOk

variable {st : PagedVectorStore}

theorem LruOk.inOrder (h : st.LruOk) : Lru.InOrder st.maxCachedPages st.lruOrder :=
  ⟨h.keys_perm.nodup_iff.mpr st.pageCache.keys_nodup, h.length_le⟩

theorem LruOk.mem_cache (h : st.LruOk) {y : Nat} : y ∈ st.pageCache ↔ y ∈ st.lruOrder := by
  rw [AList.mem_keys, h.keys_perm.mem_iff]

theorem LruOk.keys_length (h : st.LruOk) : st.pageCache.keys.length = st.lruOrder.length :=
  h.keys_perm.length_eq.symm

/-- An eviction from an empty cache does nothing, another one gives back the page at the end of the order. -/
theorem LruOk.evictLru_cases (h : st.LruOk) :
    st.lruOrder = [] ∧ st.evictLru = st ∨
      ∃ ids evictId cp, st.lruOrder = ids ++ [evictId] ∧ evictId ∉ ids ∧
        st.pageCache.lookup evictId = some cp ∧ st.evictLru = { st with
          lruOrder := ids, memory := st.memory.erase cp.mapping, pageCache := st.pageCache.erase evictId } := by
  rcases List.eq_nil_or_concat st.lruOrder with hnil | ⟨ids, evictId, hids⟩
  · refine .inl ⟨hnil, ?_⟩
    rw [PagedVectorStore.evictLru, hnil]
    rfl
  rw [List.concat_eq_append] at hids
  have hnodup := h.inOrder.nodup
  have hin : evictId ∈ st.pageCache := h.mem_cache.mpr (by rw [hids]; simp)
  rw [hids] at hnodup
  have hnot : evictId ∉ ids :=
    fun hmem => (List.nodup_append.mp hnodup).2.2 _ hmem _ (List.mem_singleton_self _) rfl
  obtain ⟨cp, hcp⟩ := Option.isSome_iff_exists.mp (AList.lookup_isSome.mpr hin)
  refine .inr ⟨ids, evictId, cp, hids, hnot, hcp, ?_⟩
  simp only [PagedVectorStore.evictLru, hids, List.getLast?_concat, hcp, List.dropLast_concat]

theorem LruOk.evictLru (h : st.LruOk) :
    st.evictLru.LruOk ∧ st.evictLru.lruOrder = st.lruOrder.dropLast ∧
      ∀ y ∈ st.lruOrder.dropLast, st.evictLru.pageCache.lookup y = st.pageCache.lookup y := by
  rcases h.evictLru_cases with ⟨hnil, hsame⟩ | ⟨ids, evictId, cp, hids, hnot, -, heq⟩
  · rw [hsame, hnil]
    exact ⟨h, rfl, fun _ _ => rfl⟩
  rw [heq, hids, List.dropLast_concat]
  refine ⟨⟨?_, ?_, h.cap_pos⟩, rfl, fun y hy => ?_⟩
  · have herase := h.keys_perm.erase evictId
    rw [hids, List.erase_append_right _ hnot, List.erase_cons_head, List.append_nil] at herase
    rwa [AList.keys_erase]
  · have hle := h.length_le
    rw [hids, List.length_append] at hle
    exact (Nat.le_add_right _ _).trans hle
  · exact AList.lookup_erase_ne fun he => hnot (he ▸ hy)

/-- The block of an evicted page is given back. -/
theorem LruOk.evicted (h : st.LruOk) {y : Nat} {cp : CachedPage} (hcp : st.pageCache.lookup y = some cp)
    (hgone : y ∉ st.evictLru.lruOrder) : cp.mapping ∉ st.evictLru.memory := by
  have hy : y ∈ st.lruOrder := h.mem_cache.mp (AList.lookup_isSome.mp (Option.isSome_of_eq_some hcp))
  rcases h.evictLru_cases with ⟨-, hsame⟩ | ⟨ids, evictId, dp, hids, -, hdp, heq⟩
  · rw [hsame] at hgone
    exact absurd hy hgone
  rw [heq] at hgone ⊢
  rw [hids] at hy
  obtain rfl : y = evictId := List.mem_singleton.mp ((List.mem_append.mp hy).resolve_left hgone)
  obtain rfl : cp = dp := Option.some.inj (hcp.symm.trans hdp)
  exact fun hmem => (AList.mem_erase.mp hmem).1 rfl

theorem LruOk.mapPage (h : st.LruOk) {x : Nat} (hnew : x ∉ st.pageCache)
    (hroom : st.lruOrder.length < st.maxCachedPages) :
    (st.mapPage x).LruOk ∧ ∀ y ∈ st.lruOrder, (st.mapPage x).pageCache.lookup y = st.pageCache.lookup y := by
  refine ⟨⟨?_, hroom, h.cap_pos⟩, fun y hy => AList.lookup_insert_ne ?_⟩
  · have hkeys : (st.mapPage x).pageCache.keys = x :: st.pageCache.keys := by
      rw [PagedVectorStore.mapPage, AList.keys_insert, List.erase_of_not_mem (AList.mem_keys.not.mp hnew)]
    rw [hkeys]
    exact h.keys_perm.cons x
  · rintro rfl
    exact hnew (h.mem_cache.mpr hy)

/-- A touch uses the page in the order, and the pages that stay keep their entries. -/
theorem LruOk.touch (h : st.LruOk) (x : Nat) :
    (st.touch x).LruOk ∧ (st.touch x).lruOrder = Lru.touch st.maxCachedPages x st.lruOrder ∧
      ∀ y ∈ st.lruOrder, y ∈ (st.touch x).lruOrder →
        (st.touch x).pageCache.lookup y = st.pageCache.lookup y := by
  by_cases hin : x ∈ st.pageCache
  · have hmem : x ∈ st.lruOrder := h.mem_cache.mp hin
    have htouch : st.touch x = { st with lruOrder := x :: st.lruOrder.erase x } := if_pos hin
    have hperm : (x :: st.lruOrder.erase x).Perm st.lruOrder := (List.perm_cons_erase hmem).symm
    rw [htouch, Lru.touch, if_pos hmem]
    exact ⟨⟨hperm.trans h.keys_perm, hperm.length_eq.trans_le h.length_le, h.cap_pos⟩, rfl, fun _ _ _ => rfl⟩
  · have hnew : x ∉ st.lruOrder := h.mem_cache.not.mp hin
    have htouch : st.touch x = st.loadPage x := if_neg hin
    rw [htouch, PagedVectorStore.loadPage, h.keys_length, Lru.touch, if_neg hnew]
    split_ifs with hfull
    · obtain ⟨hevict, hlru, hkeep⟩ := h.evictLru
      have hcap : st.evictLru.maxCachedPages = st.maxCachedPages := (recached_evictLru st).cap_eq
      have hroom : st.evictLru.lruOrder.length < st.evictLru.maxCachedPages := by
        have hle := h.length_le
        have hpos := h.cap_pos
        rw [hlru, hcap, List.length_dropLast]
        omega
      obtain ⟨hmap, hsame⟩ := hevict.mapPage (evictLru_notMem hin) hroom
      have horder : (st.evictLru.mapPage x).lruOrder = x :: st.lruOrder.dropLast := congrArg (x :: ·) hlru
      refine ⟨hmap, horder, fun y hy hy' => ?_⟩
      have hlast : y ∈ st.lruOrder.dropLast := by
        rcases List.mem_cons.mp (horder ▸ hy') with rfl | hy'
        · exact absurd hy hnew
        · exact hy'
      exact (hsame y (hlru ▸ hlast)).trans (hkeep y hlast)
    · obtain ⟨hmap, hsame⟩ := h.mapPage hin (not_le.mp hfull)
      exact ⟨hmap, rfl, fun y hy _ => hsame y hy⟩

theorem LruOk.lookup_touch (h : st.LruOk) (x : Nat) : ∃ cp, (st.touch x).pageCache.lookup x = some cp := by
  obtain ⟨hok, horder, -⟩ := h.touch x
  have hin : x ∈ (st.touch x).pageCache := hok.mem_cache.mpr (horder ▸ List.mem_cons_self)
  exact Option.isSome_iff_exists.mp (AList.lookup_isSome.mpr hin)

/-- The block of a page that a touch drove out is given back. -/
theorem LruOk.driven_out (h : st.LruOk) {x y : Nat} {cp : CachedPage} (hcp : st.pageCache.lookup y = some cp)
    (hfresh : cp.mapping < st.nextAddress) (hgone : y ∉ (st.touch x).lruOrder) :
    cp.mapping ∉ (st.touch x).memory := by
  have hin : y ∈ st.pageCache := AList.lookup_isSome.mp (Option.isSome_of_eq_some hcp)
  have hy : y ∈ st.lruOrder := h.mem_cache.mp hin
  unfold PagedVectorStore.touch PagedVectorStore.loadPage at hgone ⊢
  split_ifs at hgone ⊢ with hx hfull
  · exact absurd ((List.perm_cons_erase (h.mem_cache.mp hx)).mem_iff.mp hy) hgone
  · have hout := h.evicted hcp fun hmem => hgone (List.mem_cons_of_mem x hmem)
    intro hmem
    rcases (AList.mem_insert _).mp hmem with heq | hmem
    · exact absurd (heq.trans (evictLru_nextAddress st)) hfresh.ne
    · exact hout hmem
  · exact absurd (List.mem_cons_of_mem x hy) hgone

/-- One touch after the other. -/
def touchAll (st : PagedVectorStore) (pages : List Nat) : PagedVectorStore := pages.foldl touch st

theorem recached_touchAll (pages : List Nat) (st : PagedVectorStore) : Recached st (st.touchAll pages) := by
  induction pages generalizing st with
  | nil => exact ⟨rfl, rfl, rfl, rfl, rfl⟩
  | cons x pages ih => exact (recached_touch st x).trans (ih (st.touch x))

/-- A page keeps its entry for as long as it stays in the order. -/
theorem LruOk.touchAll (pages : List Nat) {st : PagedVectorStore} (h : st.LruOk) :
    (st.touchAll pages).LruOk ∧
      (st.touchAll pages).lruOrder = Lru.run st.maxCachedPages st.lruOrder pages ∧
      ∀ y, (∀ n, y ∈ Lru.run st.maxCachedPages st.lruOrder (pages.take n)) →
        (st.touchAll pages).pageCache.lookup y = st.pageCache.lookup y := by
  induction pages generalizing st with
  | nil => exact ⟨h, rfl, fun _ _ => rfl⟩
  | cons x pages ih =>
    obtain ⟨h₁, horder, hkeep⟩ := h.touch x
    have hcap := (recached_touch st x).cap_eq
    obtain ⟨h₂, horder₂, hkeep₂⟩ := ih h₁
    rw [hcap, horder] at horder₂ hkeep₂
    refine ⟨h₂, horder₂, fun y hy => ?_⟩
    have hlater := hkeep₂ y fun n => hy (n + 1)
    exact hlater.trans (hkeep y (hy 0) (horder ▸ hy 1))

theorem LruOk.invalidate (h : st.LruOk) (pageId : Nat) : (st.invalidate pageId).LruOk := by
  unfold PagedVectorStore.invalidate
  split
  · exact h
  · refine ⟨?_, (List.length_erase_le).trans h.length_le, h.cap_pos⟩
    rw [AList.keys_erase]
    exact h.keys_perm.erase pageId

theorem LruOk.push (h : st.LruOk) (vec : Vec) : (st.push vec).LruOk := by
  unfold PagedVectorStore.push
  apply LruOk.invalidate
  exact ⟨h.keys_perm, h.length_le, h.cap_pos⟩

end LruOk

end PagedVectorStore

end NeuralDb
