import NeuralDb.Library.Overwrite
import NeuralDb.Paged.Store

/-! Where the vectors lie in the page file, and what a push does to the file. -/

namespace NeuralDb

open Library

/-- The dimensions of which at least one vector fits behind the header of a page. -/
structure FitsPage (dim : Nat) : Prop where
  pos : 1 ≤ dim
  le : dim ≤ 1022

def perPage (dim : Nat) : Nat := (pagedPageSize - 8) / (dim * 4)

/-- `file_write_offset` of a slot. -/
def slotOffset (dim slot : Nat) : Nat :=
  slot / perPage dim * pagedPageSize + (8 + slot % perPage dim * dim * 4)

section Offsets

variable {dim : Nat} (hdim : FitsPage dim)

theorem pagedPageSize_eq : pagedPageSize = 4096 := rfl

include hdim in
theorem perPage_pos : 0 < perPage dim := by
  apply Nat.div_pos
  · have := hdim.le
    rw [pagedPageSize_eq]
    omega
  · have := hdim.pos
    omega

theorem perPage_fits (dim : Nat) : perPage dim * (dim * 4) ≤ 4088 := Nat.div_mul_le_self _ _

theorem page_le_slotOffset (dim slot : Nat) :
    slot / perPage dim * pagedPageSize + 8 ≤ slotOffset dim slot := by
  rw [slotOffset]
  omega

theorem slotOffset_end (dim slot : Nat) :
    slotOffset dim slot + dim * 4 =
      slot / perPage dim * pagedPageSize + (8 + (slot % perPage dim + 1) * (dim * 4)) := by
  rw [slotOffset, Nat.mul_assoc, Nat.succ_mul]
  omega

include hdim in
/-- No vector crosses the end of its page. -/
theorem slotOffset_end_le (slot : Nat) :
    slotOffset dim slot + dim * 4 ≤ (slot / perPage dim + 1) * pagedPageSize := by
  have hmod := Nat.mod_lt slot (perPage_pos hdim)
  have hrow := (Nat.mul_le_mul_right (dim * 4) hmod).trans (perPage_fits dim)
  rw [slotOffset_end, Nat.succ_mul (slot / perPage dim), pagedPageSize_eq]
  rw [Nat.succ_eq_add_one] at hrow
  omega

include hdim in
theorem slot_end_le (slot : Nat) : 8 + slot % perPage dim * dim * 4 + dim * 4 ≤ pagedPageSize := by
  have hle := slotOffset_end_le hdim slot
  rw [slotOffset, Nat.succ_mul] at hle
  omega

include hdim in
theorem slotOffset_lt {i j : Nat} (h : i < j) : slotOffset dim i + dim * 4 ≤ slotOffset dim j := by
  rcases (Nat.div_le_div_right (c := perPage dim) h.le).eq_or_lt with heq | hlt
  · have hmod : i % perPage dim + 1 ≤ j % perPage dim := by
      have hi := Nat.div_add_mod i (perPage dim)
      have hj := Nat.div_add_mod j (perPage dim)
      rw [heq] at hi
      omega
    have hrow := Nat.mul_le_mul_right (dim * 4) hmod
    rw [slotOffset_end, heq, slotOffset, Nat.mul_assoc (j % perPage dim)]
    omega
  · have hend := slotOffset_end_le hdim i
    have hpage := Nat.mul_le_mul_right pagedPageSize hlt
    exact (hend.trans hpage).trans ((Nat.le_add_right _ 8).trans (page_le_slotOffset dim j))

end Offsets

/-- The length of the file after `n` pushes to an empty one. -/
def fileLength (dim : Nat) : Nat → Nat
  | 0 => 0
  | n + 1 => slotOffset dim n + dim * 4

/-- What a push writes to the file. -/
def pushFile (dim : Nat) (file : Bytes) (slot : Nat) (vec : Vec) : Bytes :=
  let pageId := slot / perPage dim
  let file := pwrite file (slotOffset dim slot) (vec.flatMap wordBytes)
  if slot % perPage dim = 0 then pwrite file (pageId * pagedPageSize) (leBytes 4 pageId) else file

/-- A file that holds `vecs`, laid over a file of `base` bytes. -/
structure FileHolds (dim base : Nat) (vecs : List Vec) (file : Bytes) : Prop where
  length : file.length = max base (fileLength dim vecs.length)
  vector : ∀ (i : Nat) (hi : i < vecs.length),
    extent (slotOffset dim i) (dim * 4) file = vecs[i].flatMap wordBytes
  header : ∀ i < vecs.length,
    extent (i / perPage dim * pagedPageSize) 4 file = leBytes 4 (i / perPage dim)

theorem fileHolds_nil (dim : Nat) (file : Bytes) : FileHolds dim file.length [] file where
  length := (max_eq_left (Nat.zero_le _)).symm
  vector _ hi := absurd hi (Nat.not_lt_zero _)
  header _ hi := absurd hi (Nat.not_lt_zero _)

section Push

variable {dim base slot : Nat} {file : Bytes} {vec : Vec} (hdim : FitsPage dim)

theorem pwrite_eq (file : Bytes) (off : Nat) (data : Bytes) : pwrite file off data = overwrite 0 file off data := rfl

theorem vec_bytes_length (h : vec.length = dim) : (vec.flatMap wordBytes).length = dim * 4 := by
  rw [flatMap_length_const wordBytes_length, h]

theorem pushFile_length (hvec : vec.length = dim) :
    (pushFile dim file slot vec).length = max file.length (slotOffset dim slot + dim * 4) := by
  have hpage := page_le_slotOffset dim slot
  unfold pushFile
  dsimp only
  split_ifs
  · rw [pwrite_eq, overwrite_length, pwrite_eq, overwrite_length, vec_bytes_length hvec, leBytes_length]
    omega
  · rw [pwrite_eq, overwrite_length, vec_bytes_length hvec]

/-- The vector that was pushed is read back; the header lies in front of it. -/
theorem pushFile_vector (hvec : vec.length = dim) :
    extent (slotOffset dim slot) (dim * 4) (pushFile dim file slot vec) = vec.flatMap wordBytes := by
  have hpage := page_le_slotOffset dim slot
  have hself := extent_overwrite_self 0 file (slotOffset dim slot) (vec.flatMap wordBytes)
  rw [vec_bytes_length hvec] at hself
  unfold pushFile
  dsimp only
  split_ifs
  · rw [pwrite_eq _ (slot / perPage dim * pagedPageSize),
      extent_overwrite_after 0 _ (by rw [leBytes_length]; omega)]
    exact hself
  · exact hself

theorem pushFile_before_page {a k : Nat} (h : a + k ≤ slot / perPage dim * pagedPageSize)
    (hin : a + k ≤ file.length) : extent a k (pushFile dim file slot vec) = extent a k file := by
  have hpage := page_le_slotOffset dim slot
  have hvector : extent a k (pwrite file (slotOffset dim slot) (vec.flatMap wordBytes)) = extent a k file :=
    extent_overwrite_before 0 _ (by omega) hin
  unfold pushFile
  dsimp only
  split_ifs
  · refine (extent_overwrite_before 0 _ h ?_).trans hvector
    rw [pwrite_eq, overwrite_length]
    omega
  · exact hvector

include hdim in
theorem pushFile_vector_of_lt {i : Nat} (h : i < slot) (hin : slotOffset dim i + dim * 4 ≤ file.length) :
    extent (slotOffset dim i) (dim * 4) (pushFile dim file slot vec) =
      extent (slotOffset dim i) (dim * 4) file := by
  have hvector : extent (slotOffset dim i) (dim * 4) (pwrite file (slotOffset dim slot) (vec.flatMap wordBytes)) =
      extent (slotOffset dim i) (dim * 4) file :=
    extent_overwrite_before 0 _ (slotOffset_lt hdim h) hin
  rcases Nat.eq_zero_or_pos (slot % perPage dim) with h0 | hpos
  · -- the first slot of its page: the others are on the pages before it
    apply pushFile_before_page _ hin
    have hdiv : i / perPage dim < slot / perPage dim := by
      apply (Nat.div_lt_iff_lt_mul (perPage_pos hdim)).mpr
      rwa [Nat.div_mul_cancel (Nat.dvd_of_mod_eq_zero h0)]
    exact (slotOffset_end_le hdim i).trans (Nat.mul_le_mul_right _ hdiv)
  · unfold pushFile
    dsimp only
    rw [if_neg hpos.ne']
    exact hvector

include hdim in
theorem slotOffset_mono {i j : Nat} (h : i ≤ j) : slotOffset dim i ≤ slotOffset dim j := by
  rcases h.eq_or_lt with rfl | h
  · exact le_rfl
  · exact (Nat.le_add_right _ _).trans (slotOffset_lt hdim h)

include hdim in
theorem end_le_fileLength {i n : Nat} (h : i < n) : slotOffset dim i + dim * 4 ≤ fileLength dim n := by
  cases n with
  | zero => exact absurd h (Nat.not_lt_zero i)
  | succ n => exact Nat.add_le_add_right (slotOffset_mono hdim (Nat.le_of_lt_succ h)) _

include hdim in
theorem FileHolds.end_le {vecs : List Vec} (h : FileHolds dim base vecs file) {i : Nat} (hi : i < vecs.length) :
    slotOffset dim i + dim * 4 ≤ file.length := by
  rw [h.length]
  exact (end_le_fileLength hdim hi).trans (le_max_right _ _)

include hdim in
/-- Slots of one page that come before a slot of it: there is one unless the slot is its first. -/
theorem pred_div {slot : Nat} (h : slot % perPage dim ≠ 0) :
    0 < slot ∧ (slot - 1) / perPage dim = slot / perPage dim := by
  have hsplit := Nat.div_add_mod slot (perPage dim)
  have hmod := Nat.mod_lt slot (perPage_pos hdim)
  refine ⟨by omega, Nat.div_eq_of_lt_le ?_ ?_⟩
  · rw [Nat.mul_comm]
    omega
  · rw [Nat.succ_mul, Nat.mul_comm]
    omega

include hdim in
/-- The header of a started page is there after a push, written by it or by an earlier one. -/
theorem FileHolds.push_header {vecs : List Vec} (h : FileHolds dim base vecs file) (hvec : vec.length = dim)
    {i : Nat} (hi : i < vecs.length + 1) :
    extent (i / perPage dim * pagedPageSize) 4 (pushFile dim file vecs.length vec) =
      leBytes 4 (i / perPage dim) := by
  have hpage := page_le_slotOffset dim vecs.length
  have hdiv : i / perPage dim ≤ vecs.length / perPage dim :=
    Nat.div_le_div_right (Nat.le_of_lt_succ hi)
  have hin : ∀ j < vecs.length, j / perPage dim * pagedPageSize + 4 ≤ file.length := by
    intro j hj
    have := page_le_slotOffset dim j
    have := h.end_le hdim hj
    omega
  rcases hdiv.eq_or_lt with heq | hlt
  · rw [heq]
    by_cases h0 : vecs.length % perPage dim = 0
    · have hself := extent_overwrite_self 0 (pwrite file (slotOffset dim vecs.length) (vec.flatMap wordBytes))
        (vecs.length / perPage dim * pagedPageSize) (leBytes 4 (vecs.length / perPage dim))
      rw [leBytes_length] at hself
      unfold pushFile
      dsimp only
      rw [if_pos h0]
      exact hself
    · obtain ⟨hpos, hpred⟩ := pred_div hdim h0
      have hold := h.header (vecs.length - 1) (Nat.sub_lt hpos Nat.one_pos)
      have hfile := hin (vecs.length - 1) (Nat.sub_lt hpos Nat.one_pos)
      rw [hpred] at hold hfile
      unfold pushFile
      dsimp only
      rw [if_neg h0, ← hold]
      exact extent_overwrite_before 0 _ (by omega) hfile
  · have hlast : i < vecs.length := by
      by_contra hge
      exact absurd (Nat.div_le_div_right (c := perPage dim) (not_lt.mp hge)) (not_le.mpr hlt)
    have hnext : (i / perPage dim + 1) * pagedPageSize ≤
        vecs.length / perPage dim * pagedPageSize := Nat.mul_le_mul_right pagedPageSize hlt
    rw [Nat.succ_mul] at hnext
    rw [← h.header i hlast]
    refine pushFile_before_page (le_trans ?_ hnext) (hin i hlast)
    exact Nat.add_le_add_left (show 4 ≤ 4096 by decide) _

include hdim in
theorem FileHolds.push {vecs : List Vec} (h : FileHolds dim base vecs file) (hvec : vec.length = dim) :
    FileHolds dim base (vecs ++ [vec]) (pushFile dim file vecs.length vec) where
  length := by
    have hmono : fileLength dim vecs.length ≤ fileLength dim (vecs.length + 1) := by
      cases hn : vecs.length with
      | zero => exact Nat.zero_le _
      | succ n => exact end_le_fileLength hdim (Nat.lt_succ_of_lt (Nat.lt_succ_self n))
    rw [pushFile_length hvec, h.length, List.length_append, List.length_singleton, max_assoc]
    exact congrArg (max base) (max_eq_right hmono)
  vector i hi := by
    rw [List.length_append, List.length_singleton] at hi
    rcases Nat.lt_succ_iff_lt_or_eq.mp hi with hi | rfl
    · rw [pushFile_vector_of_lt hdim hi (h.end_le hdim hi), h.vector i hi, List.getElem_append_left hi]
    · rw [pushFile_vector hvec, List.getElem_concat_length rfl]
  header i hi := by
    rw [List.length_append, List.length_singleton] at hi
    exact h.push_header hdim hvec hi

end Push

namespace PagedVectorStore

/-- A store of vectors of dimension `dim` in order, whose file holds `vecs`. -/
structure Stores (dim base : Nat) (vecs : List Vec) (st : PagedVectorStore) : Prop where
  dim_eq : st.dim = dim
  perPage_eq : st.vectorsPerPage = perPage dim
  count_eq : st.nVectors = vecs.length
  file : FileHolds dim base vecs st.file

theorem invalidate_frame (st : PagedVectorStore) (pageId : Nat) :
    ∃ ids cache memory, st.invalidate pageId =
      { st with lruOrder := ids, pageCache := cache, memory := memory } := by
  unfold invalidate
  cases st.pageCache.lookup pageId with
  | none => exact ⟨_, _, _, rfl⟩
  | some cp => exact ⟨_, _, _, rfl⟩

variable {dim base : Nat} {vecs : List Vec} {st : PagedVectorStore} {vec : Vec}

theorem push_eq (hdim : st.dim = dim) (hvpp : st.vectorsPerPage = perPage dim) (vec : Vec) :
    st.push vec = { st with
      nVectors := st.nVectors + 1
      file := pushFile dim st.file st.nVectors vec }.invalidate (st.nVectors / perPage dim) := by
  unfold push pushFile slotOffset
  rw [hdim, hvpp]

theorem Stores.push (h : st.Stores dim base vecs) (hdim : FitsPage dim) (hvec : vec.length = dim) :
    (st.push vec).Stores dim base (vecs ++ [vec]) := by
  obtain ⟨ids, cache, memory, heq⟩ := invalidate_frame
    { st with nVectors := st.nVectors + 1, file := pushFile dim st.file st.nVectors vec }
    (st.nVectors / perPage dim)
  rw [push_eq h.dim_eq h.perPage_eq, heq]
  refine ⟨h.dim_eq, h.perPage_eq, ?_, ?_⟩
  · rw [List.length_append, List.length_singleton, ← h.count_eq]
  · change FileHolds dim base (vecs ++ [vec]) (pushFile dim st.file st.nVectors vec)
    rw [h.count_eq]
    exact h.file.push hdim hvec

def pushAll (st : PagedVectorStore) (vecs : List (VecOf dim)) : PagedVectorStore :=
  vecs.foldl (fun st v => st.push v) st

theorem Stores.pushAll (h : st.Stores dim base vecs) (hdim : FitsPage dim) (more : List (VecOf dim)) :
    (st.pushAll more).Stores dim base (vecs ++ more.map Subtype.val) := by
  induction more generalizing st vecs with
  | nil => rwa [List.map_nil, List.append_nil]
  | cons v more ih =>
    have hrest := ih (h.push hdim v.2)
    rwa [List.append_assoc, List.singleton_append] at hrest

/-- A store just opened on a file. -/
def opened (file : Bytes) (dim cacheBytes : Nat) : PagedVectorStore where
  dim
  vectorsPerPage := perPage dim
  maxCachedPages := max 1 (cacheBytes / pagedPageSize)
  nVectors := file.length / pagedPageSize * perPage dim
  file

theorem openFile_eq (hdim : FitsPage dim) (file : Bytes) (cacheBytes : Nat) :
    openFile file dim cacheBytes = .ok (opened file dim cacheBytes) :=
  if_neg (perPage_pos hdim).ne'

theorem stores_opened {file : Bytes} (h : file.length < pagedPageSize) (dim cacheBytes : Nat) :
    (opened file dim cacheBytes).Stores dim file.length [] where
  dim_eq := rfl
  perPage_eq := rfl
  count_eq := by
    change file.length / pagedPageSize * perPage dim = 0
    rw [Nat.div_eq_of_lt h, Nat.zero_mul]
  file := fileHolds_nil dim file

end PagedVectorStore

end NeuralDb
