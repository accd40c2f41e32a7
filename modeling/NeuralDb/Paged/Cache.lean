import NeuralDb.Paged.Recency

/-! The page store when a vector fills a page: every page that is read lies wholly in the file, so
the cache holds true copies, and a pointer is good for as long as its page stays cached. -/

namespace NeuralDb

open Library

/-- The dimension at which the vector of a slot and its header make up a page. -/
def fullPageDim : Nat := 1022

namespace PagedVectorStore

/-- A store of `n` vectors of the full-page dimension, whose cache has room for `cap` pages. -/
structure Holds (cap n : Nat) (vec : Nat → Vec) (st : PagedVectorStore) : Prop where
  dim_eq : st.dim = fullPageDim
  perPage_eq : st.vectorsPerPage = 1
  cap_eq : st.maxCachedPages = cap
  cap_pos : 0 < cap
  count_eq : st.nVectors = n
  file_length : st.file.length = n * pagedPageSize
  stored : ∀ i < n, unpack 4 wordOfBytes fullPageDim ((pageImage st.file i).drop 8) = vec i
  keys_perm : st.lruOrder.Perm st.pageCache.keys
  lru_le : st.lruOrder.length ≤ cap
  mapped : ∀ y cp, st.pageCache.lookup y = some cp →
    y < n ∧ st.memory.lookup cp.mapping = some (pageImage st.file y)
  owner : ∀ y z cp dp, st.pageCache.lookup y = some cp → st.pageCache.lookup z = some dp →
    cp.mapping = dp.mapping → y = z
  fresh : ∀ a ∈ st.memory, a < st.nextAddress

/-- `p` is the pointer that the cache gives out for the vector of slot `y`. -/
def PointsTo (st : PagedVectorStore) (y : Nat) (p : PagePointer) : Prop :=
  ∃ cp, st.pageCache.lookup y = some cp ∧ p = ⟨cp.mapping, 8⟩

/-- The block behind `p` has been given back. -/
def Gone (st : PagedVectorStore) (p : PagePointer) : Prop :=
  p.address ∉ st.memory ∧ p.address < st.nextAddress

section Cache

variable {cap n : Nat} {vec : Nat → Vec} {st : PagedVectorStore} {x y : Nat} {p : PagePointer}

theorem Holds.lruOk (h : st.Holds cap n vec) : st.LruOk :=
  ⟨h.keys_perm, h.cap_eq ▸ h.lru_le, h.cap_eq ▸ h.cap_pos⟩

theorem PointsTo.mem_lru (hp : st.PointsTo y p) (h : st.Holds cap n vec) : y ∈ st.lruOrder := by
  obtain ⟨cp, hcp, -⟩ := hp
  exact h.lruOk.mem_cache.mp (AList.lookup_isSome.mp (Option.isSome_of_eq_some hcp))

theorem Holds.read (h : st.Holds cap n vec) (hp : st.PointsTo y p) : PagedVectorStore.read p st = some (vec y, st) := by
  obtain ⟨cp, hcp, rfl⟩ := hp
  obtain ⟨hy, hmem⟩ := h.mapped y cp hcp
  simp only [PagedVectorStore.read, hmem, Option.map_some, h.dim_eq, h.stored y hy]

theorem Gone.read (hp : st.Gone p) : PagedVectorStore.read p st = none := by
  rw [PagedVectorStore.read, AList.lookup_eq_none.mpr hp.1]
  rfl

theorem Holds.backed (h : st.Holds cap n vec) :
    Backed (fun y _ bytes => y < n ∧ bytes = pageImage st.file y) st.pageCache st.memory st.nextAddress where
  block y cp hcp := ⟨_, (h.mapped y cp hcp).2, (h.mapped y cp hcp).1, rfl⟩
  owner := h.owner
  fresh := h.fresh

theorem mapped_of_backed {file : Bytes} {cache : PageCache} {memory : Memory} {next : Nat}
    (h : Backed (fun y _ bytes => y < n ∧ bytes = pageImage file y) cache memory next) (y : Nat) (cp : CachedPage)
    (hcp : cache.lookup y = some cp) : y < n ∧ memory.lookup cp.mapping = some (pageImage file y) := by
  obtain ⟨_, hbytes, hy, rfl⟩ := h.block y cp hcp
  exact ⟨hy, hbytes⟩

theorem Holds.touch (h : st.Holds cap n vec) (hx : x < n) : (st.touch x).Holds cap n vec := by
  have hframe := recached_touch st x
  obtain ⟨hok, -, -⟩ := h.lruOk.touch x
  have hbacked : Backed (fun y _ bytes => y < n ∧ bytes = pageImage st.file y) (st.touch x).pageCache
      (st.touch x).memory (st.touch x).nextAddress := backed_touch h.backed fun _ => ⟨hx, rfl⟩
  have hcap : (st.touch x).maxCachedPages = cap := hframe.cap_eq.trans h.cap_eq
  rw [← hframe.file_eq] at hbacked
  exact {
    dim_eq := hframe.dim_eq.trans h.dim_eq
    perPage_eq := hframe.perPage_eq.trans h.perPage_eq
    cap_eq := hcap
    cap_pos := h.cap_pos
    count_eq := hframe.count_eq.trans h.count_eq
    file_length := hframe.file_eq ▸ h.file_length
    stored := hframe.file_eq ▸ h.stored
    keys_perm := hok.keys_perm
    lru_le := hcap ▸ hok.length_le
    mapped := mapped_of_backed hbacked
    owner := hbacked.owner
    fresh := hbacked.fresh }

/-- `get` for a slot that is there: the page is cached, at the front of the LRU order, and the pages
that had to go took their pointers with them. -/
theorem Holds.get (h : st.Holds cap n vec) (hx : x < n) :
    ∃ p st', PagedVectorStore.get x st = some (p, st') ∧ st'.Holds cap n vec ∧ st'.PointsTo x p ∧
      st'.lruOrder = Lru.touch cap x st.lruOrder ∧
      (∀ y q, st.PointsTo y q → y ∈ st'.lruOrder → st'.PointsTo y q) ∧
      (∀ y q, st.PointsTo y q → y ∉ st'.lruOrder → st'.Gone q) := by
  obtain ⟨-, horder, hkeep⟩ := h.lruOk.touch x
  obtain ⟨cp, hcp⟩ := h.lruOk.lookup_touch x
  have hget : PagedVectorStore.get x st = some (⟨cp.mapping, 8⟩, st.touch x) := by
    have hdiv : x / st.vectorsPerPage = x := by rw [h.perPage_eq, Nat.div_one]
    have hmod : x % st.vectorsPerPage = 0 := by rw [h.perPage_eq, Nat.mod_one]
    unfold PagedVectorStore.get
    rw [hdiv, hmod]
    dsimp only
    rw [hcp, Option.map_some, Nat.zero_mul, Nat.zero_mul]
  refine ⟨_, _, hget, h.touch hx, ⟨cp, hcp, rfl⟩, h.cap_eq ▸ horder, fun y q hq hy => ?_, fun y q hq hy => ?_⟩
  · have hold := hq.mem_lru h
    obtain ⟨dp, hdp, rfl⟩ := hq
    exact ⟨dp, (hkeep y hold hy).trans hdp, rfl⟩
  · obtain ⟨dp, hdp, rfl⟩ := hq
    have hfresh : dp.mapping < st.nextAddress :=
      h.fresh _ (AList.lookup_isSome.mp (Option.isSome_of_eq_some (h.mapped y dp hdp).2))
    exact ⟨h.lruOk.driven_out hdp hfresh hy, hfresh.trans_le (nextAddress_le_touch st x)⟩

end Cache

section Push

theorem pwrite_gap (file : Bytes) (gap : Nat) (data : Bytes) :
    pwrite file (file.length + gap) data = file ++ (List.replicate gap 0 ++ data) := by
  rw [pwrite, resize, List.take_of_length_le (Nat.le_add_right _ _), Nat.add_sub_cancel_left,
    List.drop_eq_nil_of_le (by omega), List.append_nil, List.append_assoc]

theorem pwrite_over (file old data : Bytes) :
    pwrite (file ++ old) file.length data = file ++ (data ++ old.drop data.length) := by
  rw [pwrite, resize, List.take_left, List.length_append, Nat.sub_eq_zero_of_le (Nat.le_add_right _ _),
    List.drop_append]
  simp

theorem pageImage_whole {file : Bytes} {i : Nat} (h : (i + 1) * pagedPageSize ≤ file.length) :
    pageImage file i = (file.drop (i * pagedPageSize)).take pagedPageSize := by
  rw [Nat.succ_mul] at h
  exact if_neg (not_lt.mpr h)

theorem pageImage_append {file tail : Bytes} {n i : Nat} (hlen : file.length = n * pagedPageSize)
    (hi : i < n) : pageImage (file ++ tail) i = pageImage file i := by
  have hend : (i + 1) * pagedPageSize ≤ file.length := by
    rw [hlen]
    exact Nat.mul_le_mul_right _ hi
  have hend' : (i + 1) * pagedPageSize ≤ (file ++ tail).length := by
    rw [List.length_append]
    omega
  rw [pageImage_whole hend, pageImage_whole hend']
  rw [Nat.succ_mul] at hend
  rw [List.drop_append_of_le_length (by omega),
    List.take_append_of_le_length (by rw [List.length_drop]; omega)]

theorem pageImage_append_self {file tail : Bytes} {n : Nat} (hlen : file.length = n * pagedPageSize)
    (htail : tail.length = pagedPageSize) : pageImage (file ++ tail) n = tail := by
  have hend : (n + 1) * pagedPageSize ≤ (file ++ tail).length := by
    rw [List.length_append, hlen, htail, Nat.succ_mul]
  rw [pageImage_whole hend, List.drop_left' hlen]
  exact List.take_of_length_le htail.le

variable {cap n : Nat} {vec vec' : Nat → Vec} {st : PagedVectorStore}

theorem Holds.push (h : st.Holds cap n vec) {v : Vec} (hv : v.length = fullPageDim)
    (hold : ∀ i < n, vec' i = vec i) (hnew : vec' n = v) : (st.push v).Holds cap (n + 1) vec' := by
  let tail : Bytes := leBytes 4 n ++ (List.replicate 4 0 ++ v.flatMap wordBytes)
  have hbytes : (v.flatMap wordBytes).length = fullPageDim * 4 := by
    rw [flatMap_length_const wordBytes_length, hv]
  have htail : tail.length = pagedPageSize := by
    rw [List.length_append, leBytes_length, List.length_append, List.length_replicate, hbytes]
    rfl
  have hvec : unpack 4 wordOfBytes fullPageDim (tail.drop 8) = v := by
    have hdrop : tail.drop 8 = v.flatMap wordBytes := by
      change (leBytes 4 n ++ (List.replicate 4 0 ++ v.flatMap wordBytes)).drop 8 = _
      rw [← List.append_assoc]
      exact List.drop_left' (by rw [List.length_append, leBytes_length, List.length_replicate])
    rw [hdrop, ← hv, unpack_flatMap wordBytes_length wordOfBytes_wordBytes, List.map_id']
  -- page `n` is not in the file yet, so `invalidate` finds no copy of it
  have huncached : st.pageCache.lookup n = none := by
    cases hcp : st.pageCache.lookup n with
    | none => rfl
    | some cp => exact absurd (h.mapped n cp hcp).1 (lt_irrefl n)
  have hdiv : n / st.vectorsPerPage = n := by rw [h.perPage_eq, Nat.div_one]
  have hmod : n % st.vectorsPerPage = 0 := by rw [h.perPage_eq, Nat.mod_one]
  have hfile : pwrite (pwrite st.file (n * pagedPageSize + (8 + 0 * st.dim * 4)) (v.flatMap wordBytes))
      (n * pagedPageSize) (leBytes 4 n) = st.file ++ tail := by
    rw [Nat.zero_mul, Nat.zero_mul, Nat.add_zero, ← h.file_length, pwrite_gap, pwrite_over,
      leBytes_length]
    rfl
  have hpush : st.push v = { st with nVectors := n + 1, file := st.file ++ tail } := by
    unfold PagedVectorStore.push
    rw [h.count_eq]
    dsimp only
    rw [hdiv, hmod, if_pos rfl, hfile, PagedVectorStore.invalidate]
    dsimp only
    rw [huncached]
  rw [hpush]
  refine { h with count_eq := rfl, file_length := ?_, stored := fun i hi => ?_, mapped := fun y cp hcp => ?_ }
  · rw [List.length_append, h.file_length, htail, Nat.succ_mul]
  · rcases Nat.lt_succ_iff_lt_or_eq.mp hi with hi | rfl
    · rw [hold i hi, ← h.stored i hi]
      exact congrArg (fun image : Bytes => unpack 4 wordOfBytes fullPageDim (image.drop 8))
        (pageImage_append h.file_length hi)
    · rw [hnew, ← hvec]
      exact congrArg (fun image : Bytes => unpack 4 wordOfBytes fullPageDim (image.drop 8))
        (pageImage_append_self h.file_length htail)
  · obtain ⟨hy, hmem⟩ := h.mapped y cp hcp
    exact ⟨Nat.lt_succ_of_lt hy, hmem.trans (congrArg some (pageImage_append h.file_length hy).symm)⟩

end Push

end PagedVectorStore

end NeuralDb
