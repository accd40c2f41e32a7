import NeuralDb.Paged.Offsets

/-! Reopening a page file. The count is rebuilt from the length of the file, and the last page ends
where its last vector does. -/

namespace NeuralDb

open Library

namespace PagedVectorStore

variable {dim : Nat}

/-- The number of vectors that a store opened on the file of `n` pushes counts. -/
theorem reopened_count_iff (hdim : FitsPage dim) (n : Nat) :
    fileLength dim n / pagedPageSize * perPage dim = n ↔
      n = 0 ∨ (perPage dim ∣ n ∧ dim * 4 ∣ 4088) := by
  have hvpp := perPage_pos hdim
  have hrow : 0 < dim * 4 := by
    have := hdim.pos
    omega
  cases n with
  | zero => simp [fileLength]
  | succ m =>
    let v := perPage dim
    let page := m / v
    let r := m % v + 1
    have hm : m + 1 = r + v * page := by
      have := Nat.div_add_mod m v
      change m + 1 = m % v + 1 + v * (m / v)
      omega
    have hr : r ≤ v := Nat.mod_lt m hvpp
    have hlen : fileLength dim (m + 1) = page * pagedPageSize + (8 + r * (dim * 4)) := slotOffset_end dim m
    have hused : r * (dim * 4) ≤ v * (dim * 4) := Nat.mul_le_mul_right _ hr
    have hfits : v * (dim * 4) ≤ 4088 := perPage_fits dim
    -- the last page is whole exactly when it holds all its vectors and these leave no room at its end
    have hcount : fileLength dim (m + 1) / pagedPageSize =
        if r * (dim * 4) = 4088 then page + 1 else page := by
      rw [hlen, pagedPageSize_eq]
      split_ifs with hwhole
      · omega
      · omega
    have hfull : v ∣ m + 1 ↔ r = v := by
      rw [hm, Nat.dvd_add_left (Dvd.intro page rfl)]
      exact ⟨fun hdvd => le_antisymm hr (Nat.le_of_dvd (Nat.succ_pos (m % v)) hdvd), fun he => he ▸ dvd_rfl⟩
    have hexact : dim * 4 ∣ 4088 ↔ v * (dim * 4) = 4088 :=
      ⟨fun hdvd => Nat.div_mul_cancel hdvd, fun he => he ▸ Dvd.intro_left v rfl⟩
    rw [hcount, hfull, hexact]
    constructor
    · intro hcount
      split_ifs at hcount with hwhole
      · have hle : v ≤ r := Nat.le_of_mul_le_mul_right (hfits.trans hwhole.ge) hrow
        have heq : r = v := le_antisymm hr hle
        exact .inr ⟨heq, heq ▸ hwhole⟩
      · have hpos : 0 < r := Nat.succ_pos _
        rw [Nat.mul_comm] at hcount
        change v * page = m + 1 at hcount
        omega
    · rintro (h0 | ⟨heq, hwhole⟩)
      · exact absurd h0 (Nat.succ_ne_zero m)
      · rw [if_pos (heq.symm ▸ hwhole), Nat.succ_mul, Nat.mul_comm]
        change v * page + v = m + 1
        rw [hm, heq, Nat.add_comm]

/-- What a store `st'` owes that was opened on the file of `st` after `n` pushes, as long as its slots fit their
32 bits. -/
structure Persists (dim n : Nat) (st st' : PagedVectorStore) : Prop where
  count : st'.nVectors = n
  next : ∀ v : VecOf dim, (st'.push64 v).1.toNat = n
  bytes : ∀ more : List (VecOf dim), n + more.length ≤ 2 ^ 32 → ∀ i < n,
    extent (slotOffset dim i) (dim * 4) (st'.pushAll64 more).file = extent (slotOffset dim i) (dim * 4) st.file

theorem Stores.reopened {vecs : List Vec} {st : PagedVectorStore} (h : st.Stores dim 0 vecs) (cacheBytes : Nat) :
    (opened st.file dim cacheBytes).nVectors = fileLength dim vecs.length / pagedPageSize * perPage dim := by
  change st.file.length / pagedPageSize * perPage dim = _
  rw [h.file.length, Nat.zero_max]

theorem Stores.persists {vecs : List Vec} {st : PagedVectorStore} (h : st.Stores dim 0 vecs) (hdim : FitsPage dim)
    (hn : vecs.length < 2 ^ 32) {cacheBytes : Nat} (hcount : (opened st.file dim cacheBytes).nVectors = vecs.length) :
    Persists dim vecs.length st (opened st.file dim cacheBytes) := by
  have hsame : (opened st.file dim cacheBytes).Stores dim 0 vecs := ⟨rfl, rfl, hcount, h.file⟩
  refine ⟨hcount, fun v => ?_, fun more hmore i hi => ?_⟩
  · rw [hsame.push64_eq hdim hn]
    exact UInt32.toNat_ofNat_of_lt' hn
  · have hlonger : i < (vecs ++ more.map Subtype.val).length := by
      rw [List.length_append]
      exact Nat.lt_add_right _ hi
    rw [hsame.pushAll64_eq hdim more hmore, (hsame.pushAll hdim more).file.vector i hlonger, h.file.vector i hi,
      List.getElem_append_left hi]

/-- A page file of fewer than 2 ^ 32 vectors persists exactly when it holds none, or whole pages of which nothing
is unused. -/
theorem reopen_persists_iff (hdim : FitsPage dim) (cacheBytes cacheBytes' : Nat) (vecs : List (VecOf dim))
    (hn : vecs.length < 2 ^ 32) :
    ∃ st st', openFile [] dim cacheBytes = .ok st ∧ openFile (st.pushAll64 vecs).file dim cacheBytes' = .ok st' ∧
      (Persists dim vecs.length (st.pushAll64 vecs) st' ↔
        vecs.length = 0 ∨ (perPage dim ∣ vecs.length ∧ dim * 4 ∣ 4088)) := by
  refine ⟨_, _, openFile_eq hdim [] cacheBytes, openFile_eq hdim _ cacheBytes', ?_⟩
  have hstores := stores_pushAll64 hdim cacheBytes vecs hn.le
  have hcount := hstores.reopened cacheBytes'
  have hlen : (vecs.map Subtype.val).length = vecs.length := List.length_map _
  rw [hlen] at hcount
  rw [← reopened_count_iff hdim, ← hcount]
  constructor
  · exact fun h => h.count
  · intro h
    have hpersists := hstores.persists hdim (hlen.trans_lt hn) (h.trans hlen.symm)
    rwa [hlen] at hpersists

/-- One vector that fills its page. -/
theorem reopen_persists_whole :
    ∃ st st', openFile [] 1022 0 = .ok st ∧
      openFile (st.pushAll64 [(⟨List.replicate 1022 1, List.length_replicate⟩ : VecOf 1022)]).file 1022 0 = .ok st' ∧
      st'.nVectors = 1 := by
  obtain ⟨st, st', hst, hst', hiff⟩ := reopen_persists_iff ⟨by decide, by decide⟩ 0 0
    [(⟨List.replicate 1022 1, List.length_replicate⟩ : VecOf 1022)] (by decide)
  exact ⟨st, st', hst, hst', (hiff.mpr (.inr ⟨one_dvd 1, dvd_rfl⟩)).count⟩

/-- One short vector: the reopened store counts none, and its first push writes over the vector. -/
theorem reopen_loses :
    ∃ st st', openFile [] 2 0 = .ok st ∧ openFile (st.pushAll64 [(⟨[1, 2], rfl⟩ : VecOf 2)]).file 2 0 = .ok st' ∧
      st'.nVectors = 0 ∧ (st'.push64 [3, 4]).1 = 0 ∧
      ¬ Persists 2 1 (st.pushAll64 [(⟨[1, 2], rfl⟩ : VecOf 2)]) st' := by
  refine ⟨_, _, rfl, rfl, by decide, by decide, fun h => ?_⟩
  exact absurd h.count (by decide)

end PagedVectorStore

end NeuralDb
