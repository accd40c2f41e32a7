import NeuralDb.Paged.ReadBack

/-! Two stores that differ in the size of their caches. What a read sees depends on whether its page was
cached before it was whole, and a larger cache keeps such a stub for longer. -/

namespace NeuralDb

open Library

section Exact

variable {dim : Nat} (hdim : FitsPage dim)

include hdim in
/-- When the vectors of a page leave no room at its end, the file ends with a page as soon as the page is full. -/
theorem fileLength_div (hexact : dim * 4 ∣ 4088) (n : Nat) :
    fileLength dim n / pagedPageSize = n / perPage dim := by
  cases n with
  | zero => simp [fileLength]
  | succ m =>
    have hvpp := perPage_pos hdim
    let v := perPage dim
    let page := m / v
    let r := m % v + 1
    have hm : m + 1 = r + page * v := by
      have hsplit := Nat.div_add_mod m v
      change m + 1 = m % v + 1 + m / v * v
      rw [Nat.mul_comm] at hsplit
      omega
    have hr : r ≤ v := Nat.mod_lt m hvpp
    have hfull : v * (dim * 4) = 4088 := Nat.div_mul_cancel hexact
    have hlen : fileLength dim (m + 1) = page * pagedPageSize + (8 + r * (dim * 4)) := slotOffset_end dim m
    change _ = (m + 1) / v
    rw [hlen, hm, pagedPageSize_eq, Nat.add_comm, Nat.add_mul_div_right _ _ (by decide),
      Nat.add_mul_div_right _ _ hvpp]
    congr 1
    rcases hr.eq_or_lt with heq | hlt
    · rw [heq, hfull, Nat.div_self hvpp]
    · have hrow := Nat.mul_lt_mul_of_pos_right hlt (show 0 < dim * 4 from Nat.mul_pos hdim.pos (by decide))
      rw [Nat.div_eq_of_lt hlt]
      omega

end Exact

namespace PagedVectorStore

variable {dim : Nat}

/-- A `get` of the slot gives the same words in both stores. -/
def SameWords (st st' : PagedVectorStore) (slot : Nat) : Prop :=
  ∃ words t t', PagedVectorStore.readSlot slot st = some (words, t) ∧
    PagedVectorStore.readSlot slot st' = some (words, t')

section Pair

variable {base base' : Nat} {vecs : List Vec} {st st' : PagedVectorStore}

theorem Serves.sameWords_iff (h : st.Serves dim base vecs) (h' : st'.Serves dim base' vecs) (hdim : FitsPage dim)
    {slot : Nat} (hslot : slot < vecs.length) :
    SameWords st st' slot ↔
      (st.SeesFile (slot / perPage dim) ↔ st'.SeesFile (slot / perPage dim)) ∨ ∀ w ∈ vecs[slot], w = 0 := by
  obtain ⟨words, hread, hfile, hstub⟩ := h.readSlot hdim hslot
  obtain ⟨words', hread', hfile', hstub'⟩ := h'.readSlot hdim hslot
  have hsame : SameWords st st' slot ↔ words = words' := by
    constructor
    · rintro ⟨ws, t, t', he, he'⟩
      have h₁ := (Prod.mk.inj (Option.some.inj (hread.symm.trans he))).1
      have h₂ := (Prod.mk.inj (Option.some.inj (hread'.symm.trans he'))).1
      exact h₁.trans h₂.symm
    · rintro rfl
      exact ⟨words, _, _, hread, hread'⟩
  have hlen : vecs[slot].length = dim := by rw [← h.unpack_page hdim hslot, unpack_length]
  have hzero : vecs[slot] = List.replicate dim 0 ↔ ∀ w ∈ vecs[slot], w = 0 := by
    rw [List.eq_replicate_iff, and_iff_right hlen]
  rw [hsame, ← hzero]
  by_cases hs : st.SeesFile (slot / perPage dim) <;> by_cases hs' : st'.SeesFile (slot / perPage dim)
  · exact iff_of_true ((hfile hs).trans (hfile' hs').symm) (.inl (iff_of_true hs hs'))
  · rw [hfile hs, hstub' hs']
    simp [hs, hs']
  · rw [hstub hs, hfile' hs', eq_comm]
    simp [hs, hs']
  · exact iff_of_true ((hstub hs).trans (hstub' hs').symm) (.inl (iff_of_false hs hs'))

end Pair

/-! ### Vectors that fill their pages -/

/-- The cached pages are mapped or stubs as they would be if they were loaded now. -/
def UpToDate (st : PagedVectorStore) : Prop :=
  ∀ y cp, st.pageCache.lookup y = some cp → (0 < cp.mappedLen ↔ (y + 1) * pagedPageSize ≤ st.file.length)

section UpToDate

variable {vecs : List Vec} {st : PagedVectorStore}

theorem UpToDate.sees_iff (h : st.UpToDate) (y : Nat) :
    st.SeesFile y ↔ (y + 1) * pagedPageSize ≤ st.file.length := by
  unfold SeesFile
  cases hcp : st.pageCache.lookup y with
  | none => exact Iff.rfl
  | some cp => exact h y cp hcp

theorem UpToDate.touch (h : st.UpToDate) (hcache : st.CacheOk) (hlru : st.LruOk) (x : Nat) :
    (st.touch x).UpToDate := by
  intro y cp hcp
  rw [(recached_touch st x).file_eq]
  by_cases hy : y = x
  · subst hy
    obtain ⟨-, dp, hdp, hsees⟩ := hcache.touch y
    obtain rfl : dp = cp := Option.some.inj (hdp.symm.trans hcp)
    exact hsees.trans (h.sees_iff y)
  · obtain ⟨hlru', horder, hkeep⟩ := hlru.touch x
    have hin : y ∈ (st.touch x).lruOrder := by
      rw [← hlru'.mem_cache, ← AList.lookup_isSome, hcp]
      rfl
    have hold : y ∈ st.lruOrder := by
      have hmem := Lru.touch_subset _ x _ (horder ▸ hin)
      exact (List.mem_cons.mp hmem).resolve_left hy
    exact h y cp ((hkeep y hold hin).symm.trans hcp)

/-- A push changes the state of its own page only, and that page leaves the cache. -/
theorem UpToDate.push (h : st.UpToDate) (hs : st.Stores dim 0 vecs) (hdim : FitsPage dim)
    (hexact : dim * 4 ∣ 4088) {vec : Vec} (hvec : vec.length = dim) : (st.push vec).UpToDate := by
  let pageId := vecs.length / perPage dim
  have hwhole : ∀ y ≠ pageId, ((y + 1) * pagedPageSize ≤ (st.push vec).file.length ↔
      (y + 1) * pagedPageSize ≤ st.file.length) := by
    intro y hy
    have hnext := (hs.push hdim hvec).file.length
    rw [List.length_append, List.length_singleton] at hnext
    rw [hnext, hs.file.length, Nat.zero_max, Nat.zero_max, ← Nat.le_div_iff_mul_le (by decide),
      ← Nat.le_div_iff_mul_le (by decide), fileLength_div hdim hexact, fileLength_div hdim hexact, Nat.succ_div]
    split_ifs
    · change y + 1 ≤ pageId + 1 ↔ y + 1 ≤ pageId
      omega
    · rfl
  intro y cp hcp
  have hlookup : y ≠ pageId ∧ st.pageCache.lookup y = some cp := by
    rw [push_eq hs.dim_eq hs.perPage_eq, hs.count_eq] at hcp
    unfold invalidate at hcp
    split at hcp
    · next hnone =>
      refine ⟨?_, hcp⟩
      rintro rfl
      exact absurd (hnone.symm.trans hcp) (by simp)
    · exact lookup_of_erase hcp
  exact (h y cp hlookup.2).trans (hwhole y hlookup.1).symm

end UpToDate

/-- A store that serves `vecs`, with its recency order. -/
structure Running (dim : Nat) (vecs : List Vec) (st : PagedVectorStore) : Prop extends
    Serves dim 0 vecs st, LruOk st

section Running

variable {vecs : List Vec} {st : PagedVectorStore}

theorem running_opened (dim cacheBytes : Nat) : (opened [] dim cacheBytes).Running dim [] where
  toServes := serves_opened (show ([] : Bytes).length < pagedPageSize by decide) dim cacheBytes
  keys_perm := List.Perm.refl _
  length_le := Nat.zero_le _
  cap_pos := lt_of_lt_of_le Nat.one_pos (le_max_left _ _)

theorem Running.stepCall (h : st.Running dim vecs) (hdim : FitsPage dim) (call : PageCall dim) :
    ∃ st', st.stepCall call = some st' ∧ st'.Running dim (vecs ++ call.pushed.toList) ∧
      st'.maxCachedPages = st.maxCachedPages ∧
      (dim * 4 ∣ 4088 → st.UpToDate → st'.UpToDate) := by
  obtain ⟨st', hstep, hserves⟩ := h.toServes.stepCall hdim (Nat.zero_le _) call
  refine ⟨st', hstep, ?_⟩
  cases call with
  | push vec =>
    obtain rfl : st.push vec = st' := Option.some.inj hstep
    have hcap : (st.push vec).maxCachedPages = st.maxCachedPages := by
      obtain ⟨ids, cache, memory, heq⟩ := invalidate_frame
        { st with nVectors := st.nVectors + 1, file := pushFile dim st.file st.nVectors vec }
        (st.nVectors / perPage dim)
      rw [push_eq h.dim_eq h.perPage_eq, heq]
    exact ⟨⟨hserves, h.toLruOk.push vec⟩, hcap, fun hexact hup => hup.push h.toStores hdim hexact vec.2⟩
  | get slot =>
    obtain ⟨cp, -, -, hget⟩ := h.toServes.get slot
    obtain rfl : st.touch (slot / perPage dim) = st' :=
      Option.some.inj ((congrArg (Option.map Prod.snd) hget).symm.trans hstep)
    exact ⟨⟨hserves, (h.toLruOk.touch _).1⟩, (recached_touch st _).cap_eq,
      fun _ hup => hup.touch h.cache h.toLruOk _⟩

theorem Running.runCalls (h : st.Running dim vecs) (hdim : FitsPage dim) (calls : List (PageCall dim)) :
    ∃ st', st.runCalls calls = some st' ∧ st'.Running dim (vecs ++ calls.filterMap PageCall.pushed) ∧
      st'.maxCachedPages = st.maxCachedPages ∧
      (dim * 4 ∣ 4088 → st.UpToDate → st'.UpToDate) := by
  have hstart : st.Running dim (vecs ++ ([] : List (PageCall dim)).filterMap PageCall.pushed) := by
    rwa [List.filterMap_nil, List.append_nil]
  let I (calls : List (PageCall dim)) (t : PagedVectorStore) : Prop :=
    t.Running dim (vecs ++ calls.filterMap PageCall.pushed) ∧ t.maxCachedPages = st.maxCachedPages ∧
      (dim * 4 ∣ 4088 → st.UpToDate → t.UpToDate)
  have hstep : ∀ calls t call, I calls t → ∃ t', t.stepCall call = some t' ∧ I (calls ++ [call]) t' := by
    rintro calls t call ⟨ht, hcap, hup⟩
    obtain ⟨t', hcall, h', hcap', hup'⟩ := ht.stepCall hdim call
    dsimp only [I]
    rw [pushed_concat]
    exact ⟨t', hcall, h', hcap'.trans hcap, fun hexact hst => hup' hexact (hup hexact hst)⟩
  exact invariant_foldlM hstep ⟨hstart, rfl, fun _ hup => hup⟩ calls

theorem runCalls_append (st : PagedVectorStore) (calls more : List (PageCall dim)) :
    st.runCalls (calls ++ more) = (st.runCalls calls).bind fun t => t.runCalls more := List.foldlM_append

theorem runCalls_cons (st : PagedVectorStore) (call : PageCall dim) (calls : List (PageCall dim)) :
    st.runCalls (call :: calls) = (st.stepCall call).bind fun t => t.runCalls calls := List.foldlM_cons

theorem Running.runGets (h : st.Running dim vecs) (slots : List Nat) :
    st.runCalls (slots.map (@PageCall.get dim)) =
      some (st.touchAll (slots.map (· / perPage dim))) := by
  induction slots generalizing st with
  | nil => rfl
  | cons slot slots ih =>
    obtain ⟨cp, -, -, hget⟩ := h.toServes.get slot
    have hstep : st.stepCall (.get slot : PageCall dim) = some (st.touch (slot / perPage dim)) :=
      congrArg (Option.map Prod.snd) hget
    rw [List.map_cons, PagedVectorStore.runCalls, List.foldlM_cons, hstep]
    exact ih ⟨h.toServes.touch _, (h.toLruOk.touch _).1⟩

end Running

/-! ### A stub that one cache keeps and another drops -/

section Stub

def onesVec (dim : Nat) : VecOf dim := ⟨List.replicate dim 1, List.length_replicate⟩

/-- Fill the first page, read from it, begin the second page, and read from `c` pages after the first. -/
def stubCalls (dim c : Nat) : List (PageCall dim) :=
  List.replicate (perPage dim) (.push (onesVec dim)) ++
    (.get 0 :: .push (onesVec dim) :: ((List.range' 1 c).map (· * perPage dim)).map .get)

theorem stubCalls_pushed (dim c : Nat) :
    (stubCalls dim c).filterMap PageCall.pushed = List.replicate (perPage dim + 1) (onesVec dim).1 := by
  have hgets : ∀ slots : List Nat, (slots.map (@PageCall.get dim)).filterMap PageCall.pushed = [] := by
    intro slots
    rw [List.filterMap_map]
    exact List.filterMap_eq_nil_iff.mpr fun _ _ => rfl
  have hpush : (PageCall.push (onesVec dim)).pushed = some (onesVec dim).1 := rfl
  have hget : (PageCall.get 0 : PageCall dim).pushed = none := rfl
  rw [stubCalls, List.filterMap_append, List.filterMap_replicate_of_some hpush, List.filterMap_cons_none hget,
    List.filterMap_cons_some hpush, hgets, List.replicate_succ']

variable {vecs : List Vec} {st : PagedVectorStore}

theorem push_cache (hs : st.Stores dim 0 vecs) (vec : Vec) (hout : vecs.length / perPage dim ∉ st.pageCache) :
    (st.push vec).pageCache = st.pageCache ∧ (st.push vec).lruOrder = st.lruOrder := by
  rw [push_eq hs.dim_eq hs.perPage_eq, hs.count_eq, invalidate]
  dsimp only
  rw [AList.lookup_eq_none.mpr hout]
  exact ⟨rfl, rfl⟩

theorem runCalls_pushes (hdim : FitsPage dim) (n : Nat) (vec : VecOf dim) (h : st.Running dim vecs)
    (hempty : st.pageCache = ∅) :
    ∃ st', st.runCalls (List.replicate n (.push vec)) = some st' ∧
      st'.Running dim (vecs ++ List.replicate n vec.1) ∧ st'.pageCache = ∅ ∧
      st'.maxCachedPages = st.maxCachedPages := by
  induction n generalizing st vecs with
  | zero => exact ⟨st, rfl, by simpa using h, hempty, rfl⟩
  | succ n ih =>
    obtain ⟨st₁, hstep, h₁, hcap, -⟩ := h.stepCall hdim (.push vec)
    obtain rfl : st.push vec = st₁ := Option.some.inj hstep
    have hout : vecs.length / perPage dim ∉ st.pageCache := by
      rw [hempty]
      exact AList.notMem_empty _
    obtain ⟨st', hrun, h', hempty', hcap'⟩ := ih h₁ ((push_cache h.toStores vec hout).1.trans hempty)
    refine ⟨st', hrun, ?_, hempty', hcap'.trans hcap⟩
    rw [List.append_assoc] at h'
    exact h'

theorem fileLength_page (hdim : FitsPage dim) :
    fileLength dim (perPage dim) = 8 + perPage dim * (dim * 4) := by
  obtain ⟨m, hm⟩ : ∃ m, perPage dim = m + 1 := ⟨perPage dim - 1, by have := perPage_pos hdim; omega⟩
  have hlt : m < perPage dim := by omega
  have hend := slotOffset_end dim m
  rw [Nat.div_eq_of_lt hlt, Nat.mod_eq_of_lt hlt, Nat.zero_mul, Nat.zero_add] at hend
  rw [hm]
  exact hend

/-- The first page is full of the vector, and its stub is all that the cache has. -/
structure StubCached (dim cap : Nat) (vec : VecOf dim) (st : PagedVectorStore) : Prop extends
    Running dim (List.replicate (perPage dim) vec.1) st where
  cap_eq : st.maxCachedPages = cap
  order : st.lruOrder = [0]
  stub : ∃ cp, st.pageCache.lookup 0 = some cp ∧ ¬ 0 < cp.mappedLen

theorem stubCached (hdim : FitsPage dim) (hroom : ¬ dim * 4 ∣ 4088) (cacheBytes : Nat) (vec : VecOf dim) :
    ∃ st₁, (opened [] dim cacheBytes).runCalls (List.replicate (perPage dim) (.push vec)) = some st₁ ∧
      st₁.stepCall (.get 0 : PageCall dim) = some (st₁.touch 0) ∧
      (st₁.touch 0).StubCached dim (max 1 (cacheBytes / pagedPageSize)) vec := by
  obtain ⟨st₁, hrun, h₁, hempty, hcap⟩ := runCalls_pushes hdim (perPage dim) vec (running_opened dim cacheBytes) rfl
  rw [List.nil_append] at h₁
  -- the first page is full, but the file ends before the page does
  have hshort : ¬ st₁.SeesFile 0 := by
    have hused := perPage_fits dim
    have hne : perPage dim * (dim * 4) ≠ 4088 := fun heq => hroom (Dvd.intro_left _ heq)
    unfold SeesFile
    rw [hempty, AList.lookup_empty]
    change ¬ (0 + 1) * pagedPageSize ≤ st₁.file.length
    rw [h₁.file.length, List.length_replicate, fileLength_page hdim, pagedPageSize_eq]
    omega
  have hnone : st₁.lruOrder = [] := by
    have hperm := h₁.keys_perm
    rw [hempty, AList.keys_empty] at hperm
    exact hperm.eq_nil
  obtain ⟨hlru, horder, -⟩ := h₁.toLruOk.touch 0
  obtain ⟨-, cp, hcp, hmapped⟩ := h₁.cache.touch 0
  have hget : st₁.stepCall (.get 0 : PageCall dim) = some (st₁.touch 0) := by
    obtain ⟨dp, -, -, hslot⟩ := h₁.toServes.get 0
    rw [Nat.zero_div] at hslot
    exact congrArg (Option.map Prod.snd) hslot
  refine ⟨st₁, hrun, hget, ⟨⟨h₁.toServes.touch 0, hlru⟩, (recached_touch st₁ 0).cap_eq.trans hcap, ?_, ?_⟩⟩
  · rw [hnone, Lru.touch] at horder
    simpa using horder
  · exact ⟨cp, hcp, fun hpos => hshort (hmapped.mp hpos)⟩

/-- The next push goes to the second page. It makes the first page whole in the file and leaves the stub alone. -/
theorem StubCached.push {cap : Nat} {vec : VecOf dim} (h : st.StubCached dim cap vec) (hdim : FitsPage dim) :
    (st.push vec).Running dim (List.replicate (perPage dim) vec.1 ++ [vec.1]) ∧
      (st.push vec).maxCachedPages = cap ∧ (st.push vec).pageCache = st.pageCache ∧
      (st.push vec).lruOrder = [0] ∧ (0 + 1) * pagedPageSize ≤ (st.push vec).file.length := by
  have hvpp := perPage_pos hdim
  have hout : (List.replicate (perPage dim) vec.1).length / perPage dim ∉ st.pageCache := by
    rw [List.length_replicate, Nat.div_self hvpp, h.mem_cache, h.order]
    decide
  obtain ⟨hcache, horder⟩ := push_cache h.toStores vec hout
  obtain ⟨st', hstep, h', hcap, -⟩ := h.toRunning.stepCall hdim (.push vec)
  obtain rfl : st.push vec = st' := Option.some.inj hstep
  refine ⟨h', hcap.trans h.cap_eq, hcache, horder.trans h.order, ?_⟩
  have hpage := page_le_slotOffset dim (perPage dim)
  rw [Nat.div_self hvpp] at hpage
  have hlen := h'.file.length
  simp only [PageCall.pushed, Option.toList_some, List.length_append, List.length_replicate,
    List.length_singleton] at hlen
  rw [hlen]
  change _ ≤ max 0 (slotOffset dim (perPage dim) + dim * 4)
  omega

/-- The first page stays in front of fewer others than there is room for. -/
theorem mem_run_range' {cap : Nat} (hcap : 0 < cap) (n c : Nat) :
    0 ∈ Lru.run cap [0] ((List.range' 1 c).take n) ↔ min n c < cap := by
  have hzero : 0 ∉ (List.range' 1 c).take n := by
    intro hmem
    exact absurd (List.mem_range'_1.mp (List.mem_of_mem_take hmem)).1 (by decide)
  rw [Lru.mem_run_distinct hcap ⟨List.nodup_singleton 0, hcap⟩
    ((List.take_sublist n _).nodup List.nodup_range') hzero, List.length_take, List.length_range']

/-- The stub of the first page is there for as long as the cache has room for the other pages. -/
theorem stub_seen_iff (hdim : FitsPage dim) (hroom : ¬ dim * 4 ∣ 4088) (cacheBytes c : Nat)
    {st : PagedVectorStore} (hrun : (opened [] dim cacheBytes).runCalls (stubCalls dim c) = some st) :
    st.SeesFile 0 ↔ max 1 (cacheBytes / pagedPageSize) ≤ c := by
  let cap := max 1 (cacheBytes / pagedPageSize)
  let vec := onesVec dim
  have hpos : 0 < cap := lt_of_lt_of_le Nat.one_pos (le_max_left _ _)
  obtain ⟨st₁, hrun₁, hget, hstub⟩ := stubCached hdim hroom cacheBytes vec
  obtain ⟨h₃, hcap, hcache, horder, hlong⟩ := hstub.push hdim
  obtain ⟨cp, hcp, hunmapped⟩ := hstub.stub
  let st₃ := (st₁.touch 0).push vec
  have hpages : ((List.range' 1 c).map (· * perPage dim)).map (· / perPage dim) = List.range' 1 c := by
    rw [List.map_map]
    exact (List.map_congr_left fun p _ => Nat.mul_div_cancel p (perPage_pos hdim)).trans (List.map_id _)
  have hgets := h₃.runGets ((List.range' 1 c).map (· * perPage dim))
  rw [hpages] at hgets
  obtain rfl : st₃.touchAll (List.range' 1 c) = st := by
    have hpush : (st₁.touch 0).stepCall (.push vec) = some st₃ := rfl
    rw [stubCalls, runCalls_append, hrun₁, Option.bind_some, runCalls_cons, hget, Option.bind_some,
      runCalls_cons, hpush, Option.bind_some, hgets] at hrun
    exact Option.some.inj hrun
  obtain ⟨hlru₄, horder₄, hkeep⟩ := h₃.toLruOk.touchAll (List.range' 1 c)
  rw [hcap, horder] at horder₄ hkeep
  rw [← not_lt]
  by_cases hlt : c < cap
  · -- the first page is never the one to go
    have hlookup := hkeep 0 fun n => (mem_run_range' hpos n c).mpr ((min_le_right n c).trans_lt hlt)
    refine iff_of_false ?_ (not_not_intro hlt)
    unfold SeesFile
    rw [hlookup, hcache, hcp]
    exact hunmapped
  · have hgone : 0 ∉ (st₃.touchAll (List.range' 1 c)).pageCache := by
      have hlast := mem_run_range' hpos c c
      rw [List.take_of_length_le (List.length_range'.le), min_self] at hlast
      rw [hlru₄.mem_cache, horder₄, hlast]
      exact hlt
    refine iff_of_true ?_ hlt
    unfold SeesFile
    rw [AList.lookup_eq_none.mpr hgone, (recached_touchAll _ _).file_eq]
    exact hlong

end Stub

/-! ### Two runs -/

section TwoRuns

/-- With the same calls, the reads of pushed slots give the same words in both stores. -/
def Transparent (dim : Nat) (st st' : PagedVectorStore) : Prop :=
  ∀ (calls : List (PageCall dim)) (t t' : PagedVectorStore), st.runCalls calls = some t →
    st'.runCalls calls = some t' → ∀ slot < (calls.filterMap PageCall.pushed).length, SameWords t t' slot

theorem transparent_symm {st st' : PagedVectorStore} (h : Transparent dim st st') : Transparent dim st' st := by
  intro calls t t' hrun hrun' slot hslot
  obtain ⟨words, u, u', hread, hread'⟩ := h calls t' t hrun' hrun slot hslot
  exact ⟨words, u', u, hread', hread⟩

/-- The larger cache keeps the stub that the smaller one replaces by the page. -/
theorem stub_differs (hdim : FitsPage dim) (hroom : ¬ dim * 4 ∣ 4088) {c c' : Nat}
    (hlt : max 1 (c / pagedPageSize) < max 1 (c' / pagedPageSize)) :
    ∃ st st' t t', (opened [] dim c).runCalls (stubCalls dim (max 1 (c / pagedPageSize))) = some st ∧
      (opened [] dim c').runCalls (stubCalls dim (max 1 (c / pagedPageSize))) = some st' ∧
      PagedVectorStore.readSlot 0 st = some (List.replicate dim 1, t) ∧
      PagedVectorStore.readSlot 0 st' = some (List.replicate dim 0, t') := by
  let calls := stubCalls dim (max 1 (c / pagedPageSize))
  obtain ⟨st, hrun, hst, -⟩ := (running_opened dim c).runCalls hdim calls
  obtain ⟨st', hrun', hst', -⟩ := (running_opened dim c').runCalls hdim calls
  have hsees : st.SeesFile 0 := (stub_seen_iff hdim hroom c _ hrun).mpr le_rfl
  have hstub : ¬ st'.SeesFile 0 := fun h => absurd ((stub_seen_iff hdim hroom c' _ hrun').mp h) (not_le.mpr hlt)
  have hpushed : calls.filterMap PageCall.pushed = List.replicate (perPage dim + 1) (onesVec dim).1 :=
    stubCalls_pushed dim _
  rw [List.nil_append, hpushed] at hst hst'
  have hpos : 0 < (List.replicate (perPage dim + 1) (onesVec dim).1).length := by simp
  obtain ⟨words, hread, hfile, -⟩ := hst.toServes.readSlot hdim hpos
  obtain ⟨words', hread', -, hzeros⟩ := hst'.toServes.readSlot hdim hpos
  rw [Nat.zero_div] at hfile hzeros
  have hones : words = List.replicate dim 1 := (hfile hsees).trans (List.getElem_replicate _)
  rw [hones] at hread
  rw [hzeros hstub] at hread'
  exact ⟨st, st', _, _, hrun, hrun', hread, hread'⟩

theorem not_transparent (hdim : FitsPage dim) (hroom : ¬ dim * 4 ∣ 4088) {c c' : Nat}
    (hlt : max 1 (c / pagedPageSize) < max 1 (c' / pagedPageSize)) :
    ¬ Transparent dim (opened [] dim c) (opened [] dim c') := by
  intro hall
  obtain ⟨st, st', t, t', hrun, hrun', hread, hread'⟩ := stub_differs hdim hroom hlt
  obtain ⟨words, u, u', hsame, hsame'⟩ := hall _ st st' hrun hrun' 0 (by
    rw [stubCalls_pushed, List.length_replicate]
    exact Nat.succ_pos _)
  have hones := (Prod.mk.inj (Option.some.inj (hread.symm.trans hsame))).1
  have hzeros := (Prod.mk.inj (Option.some.inj (hread'.symm.trans hsame'))).1
  obtain ⟨n, rfl⟩ : ∃ n, dim = n + 1 := ⟨dim - 1, by have := hdim.pos; omega⟩
  have hhead := congrArg List.head? (hones.trans hzeros.symm)
  rw [List.replicate_succ, List.replicate_succ, List.head?_cons, List.head?_cons, Option.some_inj] at hhead
  exact absurd hhead (by decide)

/-- Two stores opened on empty files with caches of any sizes, under any calls. A pushed slot is read alike
exactly when its page is seen alike or it holds zeros, and all slots of all runs are read alike exactly when
the caches keep the same number of pages or the vectors of a page fill it. -/
theorem eviction_transparent_iff (hdim : FitsPage dim) (c c' : Nat) :
    ∃ st₀ st₀', openFile [] dim c = .ok st₀ ∧ openFile [] dim c' = .ok st₀' ∧
      (∀ calls : List (PageCall dim), let vecs := calls.filterMap PageCall.pushed
        ∃ st st', st₀.runCalls calls = some st ∧ st₀'.runCalls calls = some st' ∧
          ∀ (slot : Nat) (h : slot < vecs.length), SameWords st st' slot ↔
            (st.SeesFile (slot / perPage dim) ↔ st'.SeesFile (slot / perPage dim)) ∨ ∀ w ∈ vecs[slot], w = 0) ∧
      (Transparent dim st₀ st₀' ↔
        max 1 (c / pagedPageSize) = max 1 (c' / pagedPageSize) ∨ dim * 4 ∣ 4088) := by
  refine ⟨_, _, openFile_eq hdim [] c, openFile_eq hdim [] c', fun calls => ?_, ?_⟩
  · obtain ⟨st, hrun, hst, -⟩ := (running_opened dim c).runCalls hdim calls
    obtain ⟨st', hrun', hst', -⟩ := (running_opened dim c').runCalls hdim calls
    rw [List.nil_append] at hst hst'
    exact ⟨st, st', hrun, hrun', fun slot hslot => hst.toServes.sameWords_iff hst'.toServes hdim hslot⟩
  · constructor
    · intro hall
      by_contra hnot
      rw [not_or] at hnot
      rcases lt_or_gt_of_ne hnot.1 with hlt | hlt
      · exact not_transparent hdim hnot.2 hlt hall
      · exact not_transparent hdim hnot.2 hlt (transparent_symm hall)
    · intro h calls t t' hrun hrun' slot hslot
      obtain ⟨st, hst, hserves, -, hup⟩ := (running_opened dim c).runCalls hdim calls
      obtain ⟨st', hst', hserves', -, hup'⟩ := (running_opened dim c').runCalls hdim calls
      obtain rfl := Option.some.inj (hrun.symm.trans hst)
      obtain rfl := Option.some.inj (hrun'.symm.trans hst')
      rw [List.nil_append] at hserves hserves'
      refine (hserves.toServes.sameWords_iff hserves'.toServes hdim hslot).mpr (.inl ?_)
      rcases h with hcap | hexact
      · have hsame : opened [] dim c = opened [] dim c' := by rw [opened, opened, hcap]
        rw [hsame, hst'] at hst
        rw [Option.some.inj hst]
      · have hempty : ∀ c, (opened [] dim c).UpToDate := by
          intro c y cp hcp
          exact absurd hcp (by rw [opened, AList.lookup_empty]; simp)
        rw [(hup hexact (hempty c)).sees_iff, (hup' hexact (hempty c')).sees_iff, hserves.file.length,
          hserves'.file.length]

theorem eviction_transparent_two :
    ∃ st₀ st₀', openFile [] 1021 0 = .ok st₀ ∧ openFile [] 1021 (2 * pagedPageSize) = .ok st₀' ∧
      ¬ Transparent 1021 st₀ st₀' := by
  obtain ⟨st₀, st₀', hopen, hopen', -, hiff⟩ :=
    eviction_transparent_iff (⟨by decide, by decide⟩ : FitsPage 1021) 0 (2 * pagedPageSize)
  exact ⟨st₀, st₀', hopen, hopen', fun h => absurd (hiff.mp h) (by decide)⟩

/-- One vector a page, and caches of one page and of two: after these calls the first vector is read back
from one store and as zeros from the other. -/
theorem eviction_visible :
    ∃ st₀ st₀' st st' t t', openFile [] 1021 0 = .ok st₀ ∧ openFile [] 1021 (2 * pagedPageSize) = .ok st₀' ∧
      st₀.runCalls [.push (onesVec 1021), .get 0, .push (onesVec 1021), .get 1] = some st ∧
      st₀'.runCalls [.push (onesVec 1021), .get 0, .push (onesVec 1021), .get 1] = some st' ∧
      PagedVectorStore.readSlot 0 st = some (List.replicate 1021 1, t) ∧
      PagedVectorStore.readSlot 0 st' = some (List.replicate 1021 0, t') := by
  have hdim : FitsPage 1021 := ⟨by decide, by decide⟩
  obtain ⟨st, st', t, t', hrun, hrun', hread, hread'⟩ := stub_differs hdim (by decide)
    (show max 1 (0 / pagedPageSize) < max 1 (2 * pagedPageSize / pagedPageSize) by decide)
  exact ⟨_, _, st, st', t, t', openFile_eq hdim [] 0, openFile_eq hdim [] _, hrun, hrun', hread, hread'⟩

end TwoRuns

end PagedVectorStore

end NeuralDb
