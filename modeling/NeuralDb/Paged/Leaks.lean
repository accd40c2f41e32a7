import NeuralDb.Paged.ReadBack

/-! Where the blocks of memory behind the pages go. Mappings are given back when their pages leave the cache, at
the latest by the destructor. Stubs are given back by evictions only. -/

namespace NeuralDb

open Library

/-- The addresses of the blocks behind the cached pages. -/
def cacheBlocks (pages : List (Sigma fun _ : Nat => CachedPage)) : List Nat := pages.map fun e => e.2.mapping

/-- The blocks in memory are those behind the cached pages, and the leaked ones. -/
structure Accounted (cache : PageCache) (memory : Memory) (next : Nat) (leaked : List Nat) : Prop where
  blocks : memory.keys.Perm (cacheBlocks cache.entries ++ leaked)
  fresh : ∀ a ∈ memory, a < next

section Accounted

variable {cache : PageCache} {memory : Memory} {next x : Nat} {leaked : List Nat} {cp : CachedPage}

theorem cacheBlocks_erase (h : cache.lookup x = some cp) :
    (cacheBlocks cache.entries).Perm (cp.mapping :: cacheBlocks (cache.erase x).entries) := by
  have hentry : ⟨x, cp⟩ ∈ cache.entries := AList.mem_lookup_iff.mp h
  obtain ⟨dp, front, back, hfront, hsplit, herase⟩ := List.exists_of_kerase (List.mem_keys_of_mem hentry)
  have hcp : cp = dp := by
    have hsame : (⟨x, dp⟩ : Sigma fun _ : Nat => CachedPage) ∈ cache.entries := hsplit ▸ by simp
    exact Option.some.inj (h.symm.trans (AList.mem_lookup_iff.mpr hsame))
  have hrest : (cache.erase x).entries = front ++ back := herase
  rw [hsplit, hrest, hcp]
  simp only [cacheBlocks, List.map_append, List.map_cons]
  exact List.perm_middle

theorem Accounted.release (h : Accounted cache memory next leaked) (hx : cache.lookup x = some cp) :
    Accounted (cache.erase x) (memory.erase cp.mapping) next leaked where
  blocks := by
    have hperm := (h.blocks.trans ((cacheBlocks_erase hx).append_right leaked)).erase cp.mapping
    rwa [List.cons_append, List.erase_cons_head, ← AList.keys_erase] at hperm
  fresh a ha := h.fresh a (AList.mem_erase.mp ha).2

/-- A page that leaves the cache without its block being given back. -/
theorem Accounted.forget (h : Accounted cache memory next leaked) (hx : cache.lookup x = some cp) :
    Accounted (cache.erase x) memory next (leaked ++ [cp.mapping]) where
  blocks := by
    refine (h.blocks.trans ((cacheBlocks_erase hx).append_right leaked)).trans ?_
    rw [← List.append_assoc]
    exact (List.perm_append_singleton cp.mapping _).symm
  fresh := h.fresh

theorem Accounted.insert (h : Accounted cache memory next leaked) (hx : x ∉ cache) (len : Nat) (bytes : Bytes) :
    Accounted (cache.insert x ⟨next, len⟩) (memory.insert next bytes) (next + 1) leaked where
  blocks := by
    have hnext : next ∉ memory.keys := fun hmem => lt_irrefl next (h.fresh next (AList.mem_keys.mpr hmem))
    rw [AList.keys_insert, List.erase_of_not_mem hnext, AList.entries_insert_of_notMem hx]
    exact h.blocks.cons next
  fresh a ha := by
    rcases (AList.mem_insert _).mp ha with rfl | hold
    · exact Nat.lt_succ_self _
    · exact Nat.lt_succ_of_lt (h.fresh a hold)

end Accounted

namespace PagedVectorStore

variable {dim : Nat} {st : PagedVectorStore} {leaked : List Nat}

/-- The account of the blocks of a store. -/
def AccountedFor (st : PagedVectorStore) (leaked : List Nat) : Prop :=
  Accounted st.pageCache st.memory st.nextAddress leaked

theorem AccountedFor.touch (h : st.AccountedFor leaked) (x : Nat) : (st.touch x).AccountedFor leaked := by
  have hevict : st.evictLru.AccountedFor leaked := by
    unfold PagedVectorStore.evictLru
    split
    · exact h
    · split
      · exact h
      · next cp hcp => exact h.release hcp
  unfold PagedVectorStore.touch PagedVectorStore.loadPage
  split_ifs with hx
  · exact h
  · exact hevict.insert (evictLru_notMem hx) _ _
  · exact h.insert hx _ _

/-- The block that an invalidation of a page leaves behind: it unmaps a mapping, but does not free a stub. -/
def orphan (st : PagedVectorStore) (pageId : Nat) : List Nat :=
  match st.pageCache.lookup pageId with
  | some cp => if 0 < cp.mappedLen then [] else [cp.mapping]
  | none => []

/-- The block that a call leaves behind. -/
def leak (st : PagedVectorStore) : PageCall dim → List Nat
  | .push _ => st.orphan (st.nVectors / st.vectorsPerPage)
  | .get _ => []

/-- The blocks that the calls of a run leave behind. -/
def leaks (st : PagedVectorStore) : List (PageCall dim) → List Nat
  | [] => []
  | call :: calls => st.leak call ++ ((st.stepCall call).map fun st' => st'.leaks calls).getD []

/-- The memory after the destructor, which unmaps the cached pages. -/
def close (st : PagedVectorStore) : Memory :=
  st.pageCache.entries.foldl (fun memory e => if 0 < e.2.mappedLen then memory.erase e.2.mapping else memory) st.memory

/-- The blocks behind the cached stubs. -/
def stubBlocks (st : PagedVectorStore) : List Nat :=
  cacheBlocks (st.pageCache.entries.filter fun e => e.2.mappedLen = 0)

theorem AccountedFor.invalidate (h : st.AccountedFor leaked) (pageId : Nat) :
    (st.invalidate pageId).AccountedFor (leaked ++ st.orphan pageId) := by
  unfold PagedVectorStore.invalidate orphan
  split
  · next hnone =>
    rw [hnone, List.append_nil]
    exact h
  · next cp hcp =>
    rw [hcp]
    dsimp only
    split_ifs
    · rw [List.append_nil]
      exact h.release hcp
    · exact h.forget hcp

theorem AccountedFor.push (h : st.AccountedFor leaked) (vec : VecOf dim) :
    (st.push vec.1).AccountedFor (leaked ++ st.leak (.push vec)) := by
  obtain ⟨file, hfile⟩ : ∃ file, st.push vec.1 =
      { st with nVectors := st.nVectors + 1, file }.invalidate (st.nVectors / st.vectorsPerPage) := ⟨_, rfl⟩
  have hwritten : { st with nVectors := st.nVectors + 1, file }.AccountedFor leaked := h
  rw [hfile]
  exact hwritten.invalidate _

theorem AccountedFor.stepCall (h : st.AccountedFor leaked) (hlru : st.LruOk) (call : PageCall dim) :
    ∃ st', st.stepCall call = some st' ∧ st'.LruOk ∧ st'.AccountedFor (leaked ++ st.leak call) := by
  cases call with
  | push vec => exact ⟨_, rfl, hlru.push vec.1, h.push vec⟩
  | get slot =>
    obtain ⟨cp, hcp⟩ := hlru.lookup_touch (slot / st.vectorsPerPage)
    refine ⟨st.touch (slot / st.vectorsPerPage), ?_, (hlru.touch _).1, ?_⟩
    · simp [PagedVectorStore.stepCall, PagedVectorStore.get, hcp]
    · rw [show st.leak (.get slot : PageCall dim) = [] from rfl, List.append_nil]
      exact h.touch _

theorem AccountedFor.runCalls (h : st.AccountedFor leaked) (hlru : st.LruOk) (calls : List (PageCall dim)) :
    ∃ st', st.runCalls calls = some st' ∧ st'.LruOk ∧ st'.AccountedFor (leaked ++ st.leaks calls) := by
  induction calls generalizing st leaked with
  | nil => exact ⟨st, rfl, hlru, by rwa [leaks, List.append_nil]⟩
  | cons call calls ih =>
    obtain ⟨mid, hmid, hlru', hmid'⟩ := h.stepCall hlru call
    obtain ⟨st', hrun, hok, hst'⟩ := ih hmid' hlru'
    refine ⟨st', ?_, hok, ?_⟩
    · rw [PagedVectorStore.runCalls, List.foldlM_cons, hmid]
      exact hrun
    · rw [leaks, hmid, ← List.append_assoc]
      exact hst'

/-- The destructor gives back the mappings, and leaves the stubs. -/
theorem AccountedFor.close (h : st.AccountedFor leaked) : st.close.keys.Perm (st.stubBlocks ++ leaked) := by
  have hfold : ∀ (entries : List (Sigma fun _ : Nat => CachedPage)) (memory : Memory) (rest : List Nat),
      memory.keys.Perm (cacheBlocks entries ++ rest) →
      (entries.foldl (fun memory e => if 0 < e.2.mappedLen then memory.erase e.2.mapping else memory)
        memory).keys.Perm (cacheBlocks (entries.filter fun e => e.2.mappedLen = 0) ++ rest) := by
    intro entries
    induction entries with
    | nil => exact fun _ _ hperm => hperm
    | cons e entries ih =>
      intro memory rest hperm
      rw [List.foldl_cons]
      by_cases hmapped : 0 < e.2.mappedLen
      · rw [if_pos hmapped, List.filter_cons_of_neg (by simp [hmapped.ne'])]
        refine ih _ rest ?_
        have herase := hperm.erase e.2.mapping
        rw [AList.keys_erase]
        simpa [cacheBlocks] using herase
      · rw [if_neg hmapped, List.filter_cons_of_pos (by simpa using hmapped)]
        have hmoved : memory.keys.Perm (cacheBlocks entries ++ e.2.mapping :: rest) := hperm.trans List.perm_middle.symm
        exact (ih memory _ hmoved).trans List.perm_middle
  exact hfold st.pageCache.entries st.memory leaked h.blocks

theorem accountedFor_openFile {file : Bytes} {cacheBytes : Nat} (h : openFile file dim cacheBytes = .ok st) :
    st.LruOk ∧ st.AccountedFor [] := by
  unfold openFile at h
  dsimp only at h
  split_ifs at h
  obtain rfl := Except.ok.inj h
  exact ⟨⟨List.Perm.refl _, Nat.zero_le _, lt_of_lt_of_le Nat.one_pos (le_max_left _ _)⟩, List.Perm.refl _,
    fun a ha => absurd ha (AList.notMem_empty a)⟩

theorem leaks_length_le (calls : List (PageCall dim)) (st : PagedVectorStore) :
    (st.leaks calls).length ≤ (calls.filterMap PageCall.pushed).length := by
  induction calls generalizing st with
  | nil => exact le_rfl
  | cons call calls ih =>
    have hrest : (((st.stepCall call).map fun st' => st'.leaks calls).getD []).length ≤
        (calls.filterMap PageCall.pushed).length := by
      cases st.stepCall call with
      | none => exact Nat.zero_le _
      | some st' => exact ih st'
    have hone : (st.leak call).length ≤ call.pushed.toList.length := by
      cases call with
      | get slot => exact le_rfl
      | push vec =>
        show (st.orphan _).length ≤ 1
        unfold orphan
        split
        · split_ifs
          · exact Nat.zero_le 1
          · exact le_rfl
        · exact Nat.zero_le 1
    have hcons : (call :: calls).filterMap PageCall.pushed = call.pushed.toList ++ calls.filterMap PageCall.pushed := by
      cases call <;> rfl
    rw [leaks, hcons, List.length_append, List.length_append]
    omega

/-- After any run of pushes and gets on a store, whatever its file held, the blocks in memory are one for each cached
page, at an address of its own, and those of the stubs that a push took out of the cache. The destructor gives
back the mappings, and leaves these stubs and the cached ones. No more than the cache's pages and one stub for each
push are ever in memory. -/
theorem blocks_accounted {file : Bytes} {cacheBytes : Nat} {st₀ : PagedVectorStore}
    (hopen : openFile file dim cacheBytes = .ok st₀) (calls : List (PageCall dim)) :
    ∃ st, st₀.runCalls calls = some st ∧
      st.memory.keys.Perm (cacheBlocks st.pageCache.entries ++ st₀.leaks calls) ∧
      (cacheBlocks st.pageCache.entries ++ st₀.leaks calls).Nodup ∧
      st.close.keys.Perm (st.stubBlocks ++ st₀.leaks calls) ∧
      st.memory.keys.length ≤ st.maxCachedPages + (calls.filterMap PageCall.pushed).length := by
  obtain ⟨hlru, hstart⟩ := accountedFor_openFile hopen
  obtain ⟨st, hrun, hok, hst⟩ := hstart.runCalls hlru calls
  rw [List.nil_append] at hst
  refine ⟨st, hrun, hst.blocks, hst.blocks.nodup_iff.mp st.memory.keys_nodup, hst.close, ?_⟩
  have hpages : (cacheBlocks st.pageCache.entries).length = st.pageCache.keys.length := by
    rw [cacheBlocks, List.length_map, AList.keys, List.keys, List.length_map]
  have hroom := hok.length_le
  have hleaks := leaks_length_le calls st₀
  rw [hst.blocks.length_eq, List.length_append, hpages, hok.keys_length]
  omega

/-- A stub that is read between two pushes to its page leaks, and the one that is cached at the end does too. -/
theorem blocks_accounted_two :
    let calls : List (PageCall 2) := [.push ⟨[1, 2], rfl⟩, .get 0, .push ⟨[3, 4], rfl⟩, .get 1]
    ∃ st₀ st, openFile [] 2 0 = .ok st₀ ∧ st₀.runCalls calls = some st ∧ st₀.leaks calls = [0] ∧
      st.close.keys.Perm [1, 0] := by
  intro calls
  have hopen : openFile [] 2 0 = .ok (opened [] 2 0) := rfl
  obtain ⟨st, hrun, -, -, hclose, -⟩ := blocks_accounted hopen calls
  refine ⟨opened [] 2 0, st, hopen, hrun, rfl, ?_⟩
  obtain rfl := Option.some.inj hrun
  exact hclose

end PagedVectorStore

end NeuralDb
