import NeuralDb.Paged.Store

/-! The blocks of memory behind the cached pages, as pages enter and leave the cache. -/

namespace NeuralDb

abbrev PageCache := AList fun _ : Nat => CachedPage

abbrev Memory := AList fun _ : Nat => Bytes

/-- Every cached page has a block of its own, and the block satisfies `img`. -/
structure Backed (img : Nat → CachedPage → Bytes → Prop) (cache : PageCache) (memory : Memory) (next : Nat) :
    Prop where
  block : ∀ y cp, cache.lookup y = some cp → ∃ bytes, memory.lookup cp.mapping = some bytes ∧ img y cp bytes
  owner : ∀ y z cp dp, cache.lookup y = some cp → cache.lookup z = some dp → cp.mapping = dp.mapping → y = z
  fresh : ∀ a ∈ memory, a < next

section Backed

variable {img img' : Nat → CachedPage → Bytes → Prop} {cache : PageCache} {memory : Memory} {next x : Nat}

theorem lookup_of_erase {y : Nat} {cp : CachedPage} (h : (cache.erase x).lookup y = some cp) :
    y ≠ x ∧ cache.lookup y = some cp := by
  have hy : y ≠ x := by
    rintro rfl
    rw [AList.lookup_erase] at h
    contradiction
  exact ⟨hy, by rwa [AList.lookup_erase_ne hy] at h⟩

theorem backed_empty (img : Nat → CachedPage → Bytes → Prop) (next : Nat) : Backed img ∅ ∅ next where
  block y cp hcp := by
    rw [AList.lookup_empty] at hcp
    contradiction
  owner y z cp dp hcp := by
    rw [AList.lookup_empty] at hcp
    contradiction
  fresh a ha := absurd ha (AList.notMem_empty a)

theorem Backed.mono (h : Backed img cache memory next)
    (himg : ∀ y cp bytes, cache.lookup y = some cp → img y cp bytes → img' y cp bytes) :
    Backed img' cache memory next where
  block y cp hcp := by
    obtain ⟨bytes, hbytes, hold⟩ := h.block y cp hcp
    exact ⟨bytes, hbytes, himg y cp bytes hcp hold⟩
  owner := h.owner
  fresh := h.fresh

theorem Backed.forget (h : Backed img cache memory next) (x : Nat) : Backed img (cache.erase x) memory next where
  block y cp hcp := h.block y cp (lookup_of_erase hcp).2
  owner y z cp dp hcp hdp := h.owner y z cp dp (lookup_of_erase hcp).2 (lookup_of_erase hdp).2
  fresh := h.fresh

theorem Backed.release (h : Backed img cache memory next) {cp : CachedPage} (hx : cache.lookup x = some cp) :
    Backed img (cache.erase x) (memory.erase cp.mapping) next where
  block y dp hdp := by
    obtain ⟨hy, hdp⟩ := lookup_of_erase hdp
    obtain ⟨bytes, hbytes, himg⟩ := h.block y dp hdp
    have hother : dp.mapping ≠ cp.mapping := fun heq => hy (h.owner y x dp cp hdp hx heq)
    exact ⟨bytes, (AList.lookup_erase_ne hother).trans hbytes, himg⟩
  owner := (h.forget x).owner
  fresh a ha := h.fresh a (AList.mem_erase.mp ha).2

theorem Backed.insert (h : Backed img cache memory next) (hx : x ∉ cache) {len : Nat} {bytes : Bytes}
    (himg : img x ⟨next, len⟩ bytes) :
    Backed img (cache.insert x ⟨next, len⟩) (memory.insert next bytes) (next + 1) := by
  have hlookup : ∀ y cp, (cache.insert x ⟨next, len⟩).lookup y = some cp →
      y = x ∧ cp = ⟨next, len⟩ ∨ cache.lookup y = some cp ∧ cp.mapping ≠ next := by
    intro y cp hcp
    by_cases hy : y = x
    · subst hy
      rw [AList.lookup_insert] at hcp
      exact .inl ⟨rfl, (Option.some.inj hcp).symm⟩
    · rw [AList.lookup_insert_ne hy] at hcp
      refine .inr ⟨hcp, fun heq => ?_⟩
      obtain ⟨old, hold, -⟩ := h.block y cp hcp
      have hmem : next ∈ memory := AList.lookup_isSome.mp (by rw [← heq, hold]; rfl)
      exact lt_irrefl _ (h.fresh next hmem)
  refine ⟨fun y cp hcp => ?_, fun y z cp dp hcp hdp heq => ?_, fun a ha => ?_⟩
  · rcases hlookup y cp hcp with ⟨rfl, rfl⟩ | ⟨hold, hne⟩
    · exact ⟨bytes, AList.lookup_insert memory, himg⟩
    · obtain ⟨old, hbytes, himg⟩ := h.block y cp hold
      exact ⟨old, (AList.lookup_insert_ne hne).trans hbytes, himg⟩
  · rcases hlookup y cp hcp with ⟨rfl, rfl⟩ | ⟨hold, hne⟩ <;> rcases hlookup z dp hdp with ⟨rfl, rfl⟩ | ⟨hold', hne'⟩
    · rfl
    · exact absurd heq.symm hne'
    · exact absurd heq hne
    · exact h.owner y z cp dp hold hold' heq
  · rcases AList.mem_insert _ |>.mp ha with rfl | ha
    · exact Nat.lt_succ_self _
    · exact Nat.lt_succ_of_lt (h.fresh a ha)

end Backed

/-! What the updates of a store do to its blocks. -/

section Updates

variable {img : Nat → CachedPage → Bytes → Prop} {st : PagedVectorStore} {x : Nat}

theorem Backed.evictLru (h : Backed img st.pageCache st.memory st.nextAddress) :
    Backed img st.evictLru.pageCache st.evictLru.memory st.evictLru.nextAddress := by
  unfold PagedVectorStore.evictLru
  split
  · exact h
  · split
    · exact h
    · next cp hcp => exact h.release hcp

theorem Backed.mapPage (h : Backed img st.pageCache st.memory st.nextAddress) (hx : x ∉ st.pageCache)
    (himg : ∀ address, img x
      ⟨address, if st.file.length < x * pagedPageSize + pagedPageSize then 0 else pagedPageSize⟩
      (PagedVectorStore.pageImage st.file x)) :
    Backed img (st.mapPage x).pageCache (st.mapPage x).memory (st.mapPage x).nextAddress :=
  h.insert hx (himg st.nextAddress)

/-- Whatever becomes of a stub's block, the other pages keep theirs. -/
theorem Backed.invalidate (h : Backed img st.pageCache st.memory st.nextAddress) (pageId : Nat) :
    Backed img (st.invalidate pageId).pageCache (st.invalidate pageId).memory (st.invalidate pageId).nextAddress := by
  unfold PagedVectorStore.invalidate
  split
  · exact h
  · next cp hcp =>
    dsimp only
    split_ifs
    · exact h.release hcp
    · exact h.forget pageId

theorem ne_of_lookup_invalidate {y : Nat} {cp : CachedPage}
    (h : (st.invalidate x).pageCache.lookup y = some cp) : y ≠ x := by
  unfold PagedVectorStore.invalidate at h
  split at h
  · next hnone =>
    rintro rfl
    rw [hnone] at h
    contradiction
  · exact (lookup_of_erase h).1

end Updates

end NeuralDb
