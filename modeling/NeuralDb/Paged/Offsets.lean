import NeuralDb.Paged.Layout

/-! `push` in its machine types, 32 bits for slots and pages and 64 for offsets, and the layout of a file
of any number of pushes that a slot can count. -/

namespace NeuralDb

open Library

/-- The local variables of `push`. -/
structure PushSite where
  slot : UInt32
  pageId : UInt32
  slotInPage : UInt32
  pageOffset : UInt64
  fileWriteOffset : UInt64

/-- `slot_in_page * dim_ * sizeof(float)` is a `size_t` because `dim_` is. -/
def pushSite (dim vectorsPerPage nVectors : UInt64) : PushSite :=
  let slot := nVectors.toUInt32
  let pageId := (slot.toUInt64 / vectorsPerPage).toUInt32
  let slotInPage := (slot.toUInt64 % vectorsPerPage).toUInt32
  let pageOffset := pageId.toUInt64 * 4096
  let vecOffsetInPage := 8 + slotInPage.toUInt64 * dim * 4
  { slot, pageId, slotInPage, pageOffset, fileWriteOffset := pageOffset + vecOffsetInPage }

theorem toNat_mul_of_lt {a b : UInt64} (h : a.toNat * b.toNat < 2 ^ 64) : (a * b).toNat = a.toNat * b.toNat := by
  rw [UInt64.toNat_mul]
  exact Nat.mod_eq_of_lt h

theorem toNat_add_of_lt {a b : UInt64} (h : a.toNat + b.toNat < 2 ^ 64) : (a + b).toNat = a.toNat + b.toNat := by
  rw [UInt64.toNat_add]
  exact Nat.mod_eq_of_lt h

/-- No step of `push` overflows before the slots do. -/
theorem pushSite_eq {dim : Nat} (hdim : FitsPage dim) {n : Nat} (hn : n < 2 ^ 32) :
    let site := pushSite (.ofNat dim) (.ofNat (perPage dim)) (.ofNat n)
    site.slot.toNat = n ∧ site.pageId.toNat = n / perPage dim ∧ site.slotInPage.toNat = n % perPage dim ∧
      site.pageOffset.toNat = n / perPage dim * pagedPageSize ∧ site.fileWriteOffset.toNat = slotOffset dim n := by
  intro site
  have hvpp := perPage_pos hdim
  have hfits := perPage_fits dim
  have hwide : perPage dim ≤ 4088 :=
    (Nat.le_mul_of_pos_right _ (Nat.mul_pos hdim.pos (by decide))).trans hfits
  have hdim64 : (UInt64.ofNat dim).toNat = dim :=
    UInt64.toNat_ofNat_of_lt' (hdim.le.trans_lt (by decide))
  have hvpp64 : (UInt64.ofNat (perPage dim)).toNat = perPage dim :=
    UInt64.toNat_ofNat_of_lt' (hwide.trans_lt (by decide))
  have hn64 : (UInt64.ofNat n).toNat = n := UInt64.toNat_ofNat_of_lt' (hn.trans (by decide))
  have hpage : n / perPage dim < 2 ^ 32 := (Nat.div_le_self _ _).trans_lt hn
  have hmod : n % perPage dim < perPage dim := Nat.mod_lt n hvpp
  -- the row of a vector in its page, as 64-bit and as exact products
  have hrow : n % perPage dim * dim * 4 ≤ 4088 := by
    rw [Nat.mul_assoc]
    exact (Nat.mul_le_mul_right _ hmod.le).trans hfits
  have hcell : n % perPage dim * dim ≤ 4088 := (Nat.le_mul_of_pos_right _ (by decide)).trans hrow
  have hslot : site.slot.toNat = n := by
    change (UInt64.ofNat n).toUInt32.toNat = n
    rw [UInt64.toNat_toUInt32, hn64, Nat.mod_eq_of_lt hn]
  have hpageId : site.pageId.toNat = n / perPage dim := by
    change (site.slot.toUInt64 / .ofNat (perPage dim)).toUInt32.toNat = _
    rw [UInt64.toNat_toUInt32, UInt64.toNat_div, UInt32.toNat_toUInt64, hslot, hvpp64, Nat.mod_eq_of_lt hpage]
  have hslotInPage : site.slotInPage.toNat = n % perPage dim := by
    change (site.slot.toUInt64 % .ofNat (perPage dim)).toUInt32.toNat = _
    rw [UInt64.toNat_toUInt32, UInt64.toNat_mod, UInt32.toNat_toUInt64, hslot, hvpp64]
    exact Nat.mod_eq_of_lt (hmod.trans_le (hwide.trans (by decide)))
  have hpageWide : site.pageId.toUInt64.toNat = n / perPage dim := (UInt32.toNat_toUInt64 _).trans hpageId
  have hslotWide : site.slotInPage.toUInt64.toNat = n % perPage dim := (UInt32.toNat_toUInt64 _).trans hslotInPage
  have h4096 : (4096 : UInt64).toNat = 4096 := rfl
  have h4 : (4 : UInt64).toNat = 4 := rfl
  have h8 : (8 : UInt64).toNat = 8 := rfl
  have hpageOffset : (site.pageId.toUInt64 * 4096).toNat = n / perPage dim * 4096 := by
    rw [toNat_mul_of_lt (by rw [hpageWide, h4096]; omega), hpageWide, h4096]
  have hproduct : (site.slotInPage.toUInt64 * .ofNat dim).toNat = n % perPage dim * dim := by
    rw [toNat_mul_of_lt (by rw [hslotWide, hdim64]; omega), hslotWide, hdim64]
  have hbytes : (site.slotInPage.toUInt64 * .ofNat dim * 4).toNat = n % perPage dim * dim * 4 := by
    rw [toNat_mul_of_lt (by rw [hproduct, h4]; omega), hproduct, h4]
  have hoffset : (8 + site.slotInPage.toUInt64 * .ofNat dim * 4).toNat = 8 + n % perPage dim * dim * 4 := by
    rw [toNat_add_of_lt (by rw [hbytes, h8]; omega), hbytes, h8]
  refine ⟨hslot, hpageId, hslotInPage, hpageOffset, ?_⟩
  change (site.pageId.toUInt64 * 4096 + (8 + site.slotInPage.toUInt64 * .ofNat dim * 4)).toNat = _
  rw [toNat_add_of_lt (by rw [hpageOffset, hoffset]; omega), hpageOffset, hoffset]
  rfl

namespace PagedVectorStore

/-- `push` with its machine types: the slot it returns, and the store it leaves. -/
def push64 (st : PagedVectorStore) (vec : Vec) : UInt32 × PagedVectorStore :=
  let site := pushSite (.ofNat st.dim) (.ofNat st.vectorsPerPage) (.ofNat st.nVectors)
  let file := pwrite st.file site.fileWriteOffset.toNat (vec.flatMap wordBytes)
  let file := if site.slotInPage = 0 then pwrite file site.pageOffset.toNat (wordBytes site.pageId) else file
  (site.slot, { st with nVectors := (UInt64.ofNat st.nVectors + 1).toNat, file }.invalidate site.pageId.toNat)

section Push64

variable {dim base : Nat} {vecs : List Vec} {st : PagedVectorStore}

theorem Stores.push64_eq (h : st.Stores dim base vecs) (hdim : FitsPage dim) (hn : vecs.length < 2 ^ 32)
    (vec : Vec) : st.push64 vec = (.ofNat vecs.length, st.push vec) := by
  obtain ⟨hslot, hpageId, hslotInPage, hpageOffset, hoffset⟩ := pushSite_eq hdim hn
  have hcount : (UInt64.ofNat vecs.length + 1).toNat = vecs.length + 1 := by
    rw [UInt64.toNat_add, UInt64.toNat_ofNat_of_lt' (hn.trans (by decide))]
    change (vecs.length + 1) % 2 ^ 64 = _
    exact Nat.mod_eq_of_lt (by omega)
  have hfirst : (pushSite (.ofNat dim) (.ofNat (perPage dim)) (.ofNat vecs.length)).slotInPage = 0 ↔
      vecs.length % perPage dim = 0 := by
    rw [← UInt32.toNat_inj, hslotInPage]
    rfl
  rw [push_eq h.dim_eq h.perPage_eq, push64, h.dim_eq, h.perPage_eq, h.count_eq, pushFile]
  rw [hcount, hoffset, hpageOffset, hpageId, wordBytes, hpageId]
  refine Prod.ext (UInt32.toNat_inj.mp ?_) ?_
  · rw [hslot, UInt32.toNat_ofNat_of_lt' hn]
  · simp only [hfirst]

def pushAll64 (st : PagedVectorStore) (vecs : List (VecOf dim)) : PagedVectorStore :=
  vecs.foldl (fun st v => (st.push64 v).2) st

theorem Stores.pushAll64_eq (h : st.Stores dim base vecs) (hdim : FitsPage dim) (more : List (VecOf dim))
    (hn : vecs.length + more.length ≤ 2 ^ 32) : st.pushAll64 more = st.pushAll more := by
  induction more generalizing st vecs with
  | nil => rfl
  | cons v more ih =>
    rw [List.length_cons] at hn
    have hpush : (st.push64 v).2 = st.push v := congrArg Prod.snd (h.push64_eq hdim (by omega) v)
    have hlen : (vecs ++ [v.1]).length = vecs.length + 1 := by rw [List.length_append, List.length_singleton]
    have hrest := ih (h.push hdim v.2) (by rw [hlen]; omega)
    change (st.push64 v).2.pushAll64 more = (st.push v).pushAll more
    rw [hpush, hrest]

theorem stores_pushAll64 (hdim : FitsPage dim) (cacheBytes : Nat) (vecs : List (VecOf dim))
    (hn : vecs.length ≤ 2 ^ 32) :
    ((opened [] dim cacheBytes).pushAll64 vecs).Stores dim 0 (vecs.map Subtype.val) := by
  have h := stores_opened (show ([] : Bytes).length < pagedPageSize by decide) dim cacheBytes
  rw [h.pushAll64_eq hdim vecs (by rw [List.length_nil]; omega)]
  exact h.pushAll hdim vecs

/-- Any pushes that a slot can count, to a store opened on an empty file: each vector and each header is
where `get` looks for it, in a range of its own, and stays there through all later pushes. -/
theorem page_layout (hdim : FitsPage dim) (cacheBytes : Nat) (vecs : List (VecOf dim))
    (hn : vecs.length < 2 ^ 32) :
    ∃ st, openFile [] dim cacheBytes = .ok st ∧
      let vpp := 4088 / (dim * 4)
      let start := fun i => i / vpp * 4096 + (8 + i % vpp * dim * 4)
      let file := fun n => (st.pushAll64 (vecs.take n)).file
      (∀ (i : Nat) (hi : i < vecs.length),
        extent (start i) (dim * 4) (file vecs.length) = vecs[i].1.flatMap wordBytes) ∧
      (∀ p, p * vpp < vecs.length → p < 2 ^ 32 ∧ extent (p * 4096) 4 (file vecs.length) = wordBytes (.ofNat p)) ∧
      (∀ i, i / vpp * 4096 + 8 ≤ start i ∧ start i + dim * 4 ≤ (i / vpp + 1) * 4096) ∧
      (∀ i j, i < j → start i + dim * 4 ≤ start j) ∧
      ∀ m n, m ≤ n → n ≤ vecs.length →
        (∀ i < m, extent (start i) (dim * 4) (file n) = extent (start i) (dim * 4) (file m)) ∧
        ∀ p, p * vpp < m → extent (p * 4096) 4 (file n) = extent (p * 4096) 4 (file m) := by
  have hvpp := perPage_pos hdim
  have hholds : ∀ n, FileHolds dim 0 ((vecs.take n).map Subtype.val)
      ((opened [] dim cacheBytes).pushAll64 (vecs.take n)).file := by
    intro n
    apply (stores_pushAll64 hdim cacheBytes (vecs.take n) ?_).file
    exact ((List.length_take_le' n vecs).trans_lt hn).le
  have hlen : ∀ n ≤ vecs.length, ((vecs.take n).map Subtype.val).length = n := by
    intro n hle
    rw [List.length_map, List.length_take, Nat.min_eq_left hle]
  -- after `n` pushes the first `n` vectors and the pages they started are in the file
  have hvector : ∀ n ≤ vecs.length, ∀ (i : Nat) (hi : i < vecs.length), i < n →
      extent (slotOffset dim i) (dim * 4) ((opened [] dim cacheBytes).pushAll64 (vecs.take n)).file =
        vecs[i].1.flatMap wordBytes := by
    intro n hle i hi hin
    have hsize := hlen n hle
    rw [(hholds n).vector i (by omega)]
    simp
  have hheader : ∀ n ≤ vecs.length, ∀ p, p * perPage dim < n →
      extent (p * pagedPageSize) 4 ((opened [] dim cacheBytes).pushAll64 (vecs.take n)).file = leBytes 4 p := by
    intro n hle p hp
    have hsize := hlen n hle
    have hfirst := (hholds n).header (p * perPage dim) (by omega)
    rwa [Nat.mul_div_cancel p hvpp] at hfirst
  refine ⟨_, openFile_eq hdim [] cacheBytes, fun i hi => hvector _ le_rfl i hi hi, fun p hp => ?_, fun i => ?_,
    fun i j hij => slotOffset_lt hdim hij, fun m n hmn hle => ⟨fun i hi => ?_, fun p hp => ?_⟩⟩
  · have hp32 : p < 2 ^ 32 := (Nat.le_mul_of_pos_right p hvpp).trans_lt (hp.trans hn)
    refine ⟨hp32, (hheader _ le_rfl p hp).trans ?_⟩
    rw [wordBytes, UInt32.toNat_ofNat_of_lt' hp32]
  · exact ⟨page_le_slotOffset dim i, slotOffset_end_le hdim i⟩
  · have hin := (hi.trans_le hmn).trans_le hle
    exact (hvector n hle i hin (hi.trans_le hmn)).trans (hvector m (hmn.trans hle) i hin hi).symm
  · exact (hheader n hle p (hp.trans_le hmn)).trans (hheader m (hmn.trans hle) p hp).symm

/-- Two vectors that take a page each. -/
theorem page_layout_two :
    ∃ st, openFile [] 1021 0 = .ok st ∧
      let file := (st.pushAll64 [(⟨List.replicate 1021 1, List.length_replicate⟩ : VecOf 1021),
        ⟨List.replicate 1021 2, List.length_replicate⟩]).file
      extent 8 4084 file = (List.replicate 1021 1).flatMap wordBytes ∧
      extent 4104 4084 file = (List.replicate 1021 2).flatMap wordBytes ∧
      extent 4096 4 file = wordBytes 1 := by
  obtain ⟨st, hopen, hvector, hheader, -⟩ := page_layout (⟨by decide, by decide⟩ : FitsPage 1021) 0
    [⟨List.replicate 1021 1, List.length_replicate⟩, ⟨List.replicate 1021 2, List.length_replicate⟩] (by decide)
  exact ⟨st, hopen, hvector 0 (by decide), hvector 1 (by decide), (hheader 1 (by decide)).2⟩

end Push64

end PagedVectorStore

end NeuralDb
