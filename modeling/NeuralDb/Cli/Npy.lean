import NeuralDb.Runtime
import NeuralDb.Library.Grammar
import Mathlib.Data.List.FinRange

/-! The files that the benchmark reads its vectors from. -/

namespace NeuralDb

open Library

namespace Cli

/-- Vectors of dimension `dim` one after the other, as in `train_data` and `query_data`. -/
structure Matrix (dim : Nat) where
  n : Nat
  data : Vec
  fits : n * dim ≤ data.length

namespace Matrix

variable {dim : Nat}

theorem row_length (x : Matrix dim) (i : Fin x.n) : ((x.data.drop (i * dim)).take dim).length = dim := by
  have hend : (i + 1) * dim ≤ x.n * dim := Nat.mul_le_mul_right dim i.2
  have hfits := x.fits
  rw [Nat.succ_mul] at hend
  rw [List.length_take, List.length_drop]
  omega

/-- The vector at `data() + i * dim`. -/
def row (x : Matrix dim) (i : Fin x.n) : VecOf dim := ⟨(x.data.drop (i * dim)).take dim, x.row_length i⟩

def rows (x : Matrix dim) : List (VecOf dim) := (List.finRange x.n).map x.row

/-- As many vectors as `data` has room for. -/
def ofData (data : Vec) (dim : Nat) : Matrix dim := ⟨data.length / dim, data, Nat.div_mul_le_self _ _⟩

theorem drop_flatten {rows : List Vec} (hrows : ∀ r ∈ rows, r.length = dim) (i : Nat) :
    rows.flatten.drop (i * dim) = (rows.drop i).flatten := by
  induction rows generalizing i with
  | nil => simp
  | cons r rows ih =>
    obtain ⟨hr, hrest⟩ := List.forall_mem_cons.mp hrows
    cases i with
    | zero => rw [Nat.zero_mul, List.drop_zero, List.drop_zero]
    | succ i =>
      rw [List.flatten_cons, Nat.succ_mul, Nat.add_comm, ← List.drop_drop, ← hr, List.drop_left, hr, ih hrest,
        List.drop_succ_cons]

theorem rows_ofData (hdim : dim ≠ 0) (rows : List (VecOf dim)) :
    let x := ofData (rows.flatMap Subtype.val) dim
    x.n = rows.length ∧ x.rows = rows := by
  intro x
  have hrows : ∀ r ∈ rows.map Subtype.val, r.length = dim := List.forall_mem_map.mpr fun r _ => r.2
  have hflat : rows.flatMap Subtype.val = (rows.map Subtype.val).flatten := List.flatMap_def
  have hn : x.n = rows.length := by
    show (rows.flatMap Subtype.val).length / dim = rows.length
    have hlen : ∀ r : VecOf dim, r.1.length = dim := fun r => r.2
    rw [flatMap_length_const hlen, Nat.mul_div_cancel _ (Nat.pos_of_ne_zero hdim)]
  refine ⟨hn, List.ext_getElem ?_ fun i hi hi' => Subtype.ext ?_⟩
  · rw [Matrix.rows, List.length_map, List.length_finRange, hn]
  · have hrow : (x.rows[i]).1 = ((rows.flatMap Subtype.val).drop (i * dim)).take dim := by
      simp [Matrix.rows, row, x, ofData]
    rw [hrow, hflat, drop_flatten hrows, List.drop_eq_getElem_cons (by simpa using hi'), List.flatten_cons,
      List.getElem_map, List.take_left' rows[i].2]

end Matrix

/-- How a call of `load_npy` ends. -/
inductive NpyLoad where
  | runtimeError (message : String)
  /-- the buffer would be longer than `max_size` -/
  | lengthError
  /-- the second `read` writes past the end of the buffer -/
  | overrun
  | loaded (data : Vec) (n d : Nat)
  deriving DecidableEq

/-- `std::vector<float>::max_size`. -/
def maxFloats : Nat := (2 ^ 63 - 1) / 4

/-- Where the floats begin, by the two bytes at offset 8. Bytes that the file does not have are `junk`. -/
def dataOffset (junk bytes : Bytes) : Nat := 10 + leVal (((bytes ++ junk).drop 8).take 2)

def loadNpy (junk : Bytes) (path : String) (file : Option Bytes) (d : Nat) : NpyLoad :=
  match file with
  | none => .runtimeError ("Cannot open " ++ path)
  | some bytes =>
    -- the subtraction of two `size_t` wraps
    let bodySize := (bytes.length + 2 ^ 64 - dataOffset junk bytes) % 2 ^ 64
    if maxFloats < bodySize / 4 then .lengthError
    else if bodySize % 4 ≠ 0 then .overrun
    else
      let data := unpack 4 wordOfBytes (bodySize / 4) (bytes.drop (dataOffset junk bytes))
      let d := if d = 0 then 384 else d
      .loaded data (data.length / d) d

theorem dataOffset_lt (junk bytes : Bytes) : dataOffset junk bytes < 10 + 2 ^ 16 := by
  have hval := leVal_lt (((bytes ++ junk).drop 8).take 2)
  have hpow : 256 ^ (((bytes ++ junk).drop 8).take 2).length ≤ 256 ^ 2 :=
    Nat.pow_le_pow_right (by decide) (by rw [List.length_take]; omega)
  unfold dataOffset
  omega

theorem dataOffset_of_prefix {junk pre post : Bytes} (hpre : pre.length = 8) (n : Nat) :
    dataOffset junk (pre ++ (leBytes 2 n ++ post)) = 10 + n % 2 ^ 16 := by
  have hcut : ((pre ++ (leBytes 2 n ++ post) ++ junk).drop 8).take 2 = leBytes 2 n := by
    rw [List.append_assoc, List.drop_left' hpre, List.append_assoc, List.take_left' (leBytes_length 2 n)]
  rw [dataOffset, hcut, leVal_leBytes]
  rfl

theorem wordBytes_wordOfBytes {bs : Bytes} (h : bs.length = 4) : wordBytes (wordOfBytes bs) = bs := by
  have hval : leVal bs < 2 ^ 32 := by
    have hlt := leVal_lt bs
    rwa [h] at hlt
  rw [wordBytes, wordOfBytes, UInt32.toNat_ofNat', Nat.mod_eq_of_lt hval, ← h, leBytes_leVal]

section Outcomes

variable (junk : Bytes) (path : String) {bytes : Bytes} (hsize : bytes.length < 2 ^ 63) (d : Nat)
include hsize

theorem loadNpy_short (h : bytes.length < dataOffset junk bytes) : loadNpy junk path (some bytes) d = .lengthError := by
  have hoff := dataOffset_lt junk bytes
  have hbig : maxFloats < (bytes.length + 2 ^ 64 - dataOffset junk bytes) % 2 ^ 64 / 4 := by
    unfold maxFloats
    omega
  rw [loadNpy]
  exact if_pos hbig

theorem loadNpy_body (h : dataOffset junk bytes ≤ bytes.length) :
    loadNpy junk path (some bytes) d =
      if (bytes.length - dataOffset junk bytes) % 4 ≠ 0 then .overrun
      else
        let data := unpack 4 wordOfBytes ((bytes.length - dataOffset junk bytes) / 4)
          (bytes.drop (dataOffset junk bytes))
        .loaded data (data.length / if d = 0 then 384 else d) (if d = 0 then 384 else d) := by
  have hbody : (bytes.length + 2 ^ 64 - dataOffset junk bytes) % 2 ^ 64 = bytes.length - dataOffset junk bytes := by
    omega
  have hsmall : ¬ maxFloats < (bytes.length - dataOffset junk bytes) / 4 := by
    unfold maxFloats
    omega
  rw [loadNpy, hbody]
  exact if_neg hsmall

theorem loadNpy_floats (h : dataOffset junk bytes ≤ bytes.length) {data : Vec}
    (hdata : bytes.drop (dataOffset junk bytes) = data.flatMap wordBytes) :
    loadNpy junk path (some bytes) d =
      .loaded data (data.length / if d = 0 then 384 else d) (if d = 0 then 384 else d) := by
  have hlen : bytes.length - dataOffset junk bytes = data.length * 4 := by
    rw [← List.length_drop, hdata, flatMap_length_const wordBytes_length]
  have hunpack : unpack 4 wordOfBytes data.length (data.flatMap wordBytes) = data := by
    rw [unpack_flatMap wordBytes_length wordOfBytes_wordBytes, List.map_id']
  rw [loadNpy_body junk path hsize d h, if_neg (by omega), hlen, Nat.mul_div_cancel _ (by decide), hdata, hunpack]

theorem loadNpy_loaded_iff {data : Vec} {n e : Nat} :
    loadNpy junk path (some bytes) d = .loaded data n e ↔
      dataOffset junk bytes ≤ bytes.length ∧ bytes.drop (dataOffset junk bytes) = data.flatMap wordBytes ∧
        (e = if d = 0 then 384 else d) ∧ n = data.length / e := by
  constructor
  · intro hload
    rcases Nat.lt_or_ge bytes.length (dataOffset junk bytes) with hlt | hle
    · rw [loadNpy_short junk path hsize d hlt] at hload
      contradiction
    by_cases hmod : (bytes.length - dataOffset junk bytes) % 4 ≠ 0
    · rw [loadNpy_body junk path hsize d hle, if_pos hmod] at hload
      contradiction
    have hlen : (bytes.drop (dataOffset junk bytes)).length =
        (bytes.length - dataOffset junk bytes) / 4 * 4 := by
      rw [List.length_drop]
      omega
    have hpack := flatMap_unpack (fun _ => wordBytes_wordOfBytes) hlen
    have hfloats := loadNpy_floats junk path hsize d hle hpack.symm
    obtain ⟨rfl, rfl, rfl⟩ := NpyLoad.loaded.inj (hload.symm.trans hfloats)
    exact ⟨hle, hpack.symm, rfl, rfl⟩
  · rintro ⟨hle, hdata, rfl, rfl⟩
    exact loadNpy_floats junk path hsize d hle hdata

theorem loadNpy_lengthError_iff :
    loadNpy junk path (some bytes) d = .lengthError ↔ bytes.length < dataOffset junk bytes := by
  refine ⟨fun hload => ?_, loadNpy_short junk path hsize d⟩
  by_contra hge
  rw [loadNpy_body junk path hsize d (not_lt.mp hge)] at hload
  split_ifs at hload

theorem loadNpy_overrun_iff :
    loadNpy junk path (some bytes) d = .overrun ↔
      dataOffset junk bytes ≤ bytes.length ∧ (bytes.length - dataOffset junk bytes) % 4 ≠ 0 := by
  constructor
  · intro hload
    have hle : dataOffset junk bytes ≤ bytes.length := by
      by_contra hlt
      rw [loadNpy_short junk path hsize d (not_le.mp hlt)] at hload
      contradiction
    rw [loadNpy_body junk path hsize d hle] at hload
    refine ⟨hle, fun hmod => ?_⟩
    rw [if_neg (not_not.mpr hmod)] at hload
    contradiction
  · rintro ⟨hle, hmod⟩
    rw [loadNpy_body junk path hsize d hle, if_pos hmod]

end Outcomes

/-- A file of the format: eight bytes of magic and version, the header behind its length, and the floats. The length
has two bytes in version 1 and four in version 2. -/
def npyBytes (width : Nat) (magic header : Bytes) (data : Vec) : Bytes :=
  magic ++ (leBytes width header.length ++ (header ++ data.flatMap wordBytes))

theorem npyBytes_length (width : Nat) {magic : Bytes} (hmagic : magic.length = 8) (header : Bytes) (data : Vec) :
    (npyBytes width magic header data).length = 8 + width + header.length + data.length * 4 := by
  rw [npyBytes, List.length_append, List.length_append, List.length_append, hmagic, leBytes_length,
    flatMap_length_const wordBytes_length]
  omega

/-- `load_npy` returns exactly for a file whose body, from the offset in its header on, is a list of floats, and then
with all of them. It throws for a file that ends before this offset, and writes past the end of the buffer where the
body is not a whole number of floats. The rows of a version 1 file come back when `d` is their dimension, and a version
2 file, with its longer header length, always ends past the end of the buffer. -/
theorem load_npy_exact (junk : Bytes) (path : String) (d : Nat) :
    (∀ bytes : Bytes, bytes.length < 2 ^ 63 →
      (∀ data n e, loadNpy junk path (some bytes) d = .loaded data n e ↔
        dataOffset junk bytes ≤ bytes.length ∧ bytes.drop (dataOffset junk bytes) = data.flatMap wordBytes ∧
          (e = if d = 0 then 384 else d) ∧ n = data.length / e) ∧
      (loadNpy junk path (some bytes) d = .lengthError ↔ bytes.length < dataOffset junk bytes) ∧
      (loadNpy junk path (some bytes) d = .overrun ↔
        dataOffset junk bytes ≤ bytes.length ∧ (bytes.length - dataOffset junk bytes) % 4 ≠ 0)) ∧
    ∀ magic header : Bytes, magic.length = 8 →
      (∀ rows : List (VecOf d), d ≠ 0 → header.length < 2 ^ 16 →
        (npyBytes 2 magic header (rows.flatMap Subtype.val)).length < 2 ^ 63 →
        ∃ data, loadNpy junk path (some (npyBytes 2 magic header (rows.flatMap Subtype.val))) d =
          .loaded data rows.length d ∧ (Matrix.ofData data d).rows = rows) ∧
      ∀ data, (npyBytes 4 magic header data).length < 2 ^ 63 →
        loadNpy junk path (some (npyBytes 4 magic header data)) d = .overrun := by
  refine ⟨fun bytes hsize => ⟨fun data n e => loadNpy_loaded_iff junk path hsize d,
    loadNpy_lengthError_iff junk path hsize d, loadNpy_overrun_iff junk path hsize d⟩,
    fun magic header hmagic => ⟨?_, ?_⟩⟩
  · intro rows hd hheader hsize
    obtain ⟨hn, hrows⟩ := Matrix.rows_ofData hd rows
    have hoff : dataOffset junk (npyBytes 2 magic header (rows.flatMap Subtype.val)) = 10 + header.length := by
      rw [npyBytes, dataOffset_of_prefix hmagic, Nat.mod_eq_of_lt hheader]
    refine ⟨rows.flatMap Subtype.val, (loadNpy_loaded_iff junk path hsize d).mpr ⟨?_, ?_, (if_neg hd).symm, hn.symm⟩,
      hrows⟩
    · rw [hoff, npyBytes_length 2 hmagic]
      omega
    · rw [hoff, npyBytes, ← List.append_assoc, ← List.append_assoc, List.drop_left']
      rw [List.length_append, List.length_append, hmagic, leBytes_length]
  · intro data hsize
    have hlow : leBytes 4 header.length = leBytes 2 header.length ++ leBytes 2 (header.length / 2 ^ 16) := by
      simp [leBytes, Nat.div_div_eq_div_mul]
    have hoff : dataOffset junk (npyBytes 4 magic header data) = 10 + header.length % 2 ^ 16 := by
      rw [npyBytes, hlow, List.append_assoc, dataOffset_of_prefix hmagic]
    -- what the short offset leaves out of the header is a multiple of 2 ^ 16
    have hlen := npyBytes_length 4 hmagic header data
    exact (loadNpy_overrun_iff junk path hsize d).mpr ⟨by omega, by omega⟩

end Cli

end NeuralDb
