import Mathlib.Algebra.Order.Ring.Int
import Mathlib.Data.List.Sort
import Mathlib.Order.WithBot
import Mathlib.Tactic.Common

/-! Little-endian fixed-width fields, packed arrays, and a reader that overwrites a destination
buffer the way a short `fread` does. -/

namespace NeuralDb.Library

/-- The low `k` base-256 digits of `n`, least significant first. -/
def leBytes : Nat → Nat → List UInt8
  | 0, _ => []
  | k + 1, n => UInt8.ofNat (n % 256) :: leBytes k (n / 256)

def leVal : List UInt8 → Nat
  | [] => 0
  | b :: bs => b.toNat + 256 * leVal bs

@[simp] theorem leBytes_length (k n : Nat) : (leBytes k n).length = k := by
  induction k generalizing n with
  | zero => rfl
  | succ k ih => simp only [leBytes, List.length_cons, ih]

theorem leVal_leBytes (k n : Nat) : leVal (leBytes k n) = n % 256 ^ k := by
  induction k generalizing n with
  | zero => simp [leBytes, leVal, Nat.mod_one]
  | succ k ih =>
    have hbyte : (UInt8.ofNat (n % 256)).toNat = n % 256 := by
      rw [UInt8.toNat_ofNat']
      exact Nat.mod_eq_of_lt (Nat.mod_lt n (by decide))
    rw [leBytes, leVal, ih, hbyte, Nat.pow_succ', Nat.mod_mul]

theorem leBytes_mod (k n : Nat) : leBytes k n = leBytes k (n % 256 ^ k) := by
  induction k generalizing n with
  | zero => rfl
  | succ k ih =>
    rw [leBytes, leBytes, ih (n / 256), Nat.pow_succ', Nat.mod_mul_right_mod, Nat.mod_mul_right_div_self]

theorem leBytes_inj {k m n : Nat} (hm : m < 256 ^ k) (hn : n < 256 ^ k) : leBytes k m = leBytes k n ↔ m = n := by
  refine ⟨fun h => ?_, fun h => h ▸ rfl⟩
  have hval := congrArg leVal h
  rwa [leVal_leBytes, leVal_leBytes, Nat.mod_eq_of_lt hm, Nat.mod_eq_of_lt hn] at hval

theorem pow_four_bytes : 256 ^ 4 = 2 ^ 32 := by decide

theorem pow_eight_bytes : 256 ^ 8 = 2 ^ 64 := by decide

theorem leVal_leBytes_four (n : Nat) : leVal (leBytes 4 n) = n % 2 ^ 32 := by
  rw [leVal_leBytes, pow_four_bytes]

theorem leVal_leBytes_eight (n : Nat) : leVal (leBytes 8 n) = n % 2 ^ 64 := by
  rw [leVal_leBytes, pow_eight_bytes]

theorem leVal_lt (bs : List UInt8) : leVal bs < 256 ^ bs.length := by
  induction bs with
  | nil => simp [leVal]
  | cons b bs ih =>
    have hb : b.toNat < 256 := b.toNat_lt
    rw [leVal, List.length_cons, Nat.pow_succ']
    omega

section Packed

variable {α β : Type}

/-- Cut `n` fields of `k` bytes off the front and decode each. -/
def unpack (k : Nat) (dec : List UInt8 → α) : Nat → List UInt8 → List α
  | 0, _ => []
  | n + 1, bs => dec (bs.take k) :: unpack k dec n (bs.drop k)

theorem unpack_flatMap {k : Nat} {enc : α → List UInt8} {dec : List UInt8 → β} {f : α → β}
    (hlen : ∀ x, (enc x).length = k) (hdec : ∀ x, dec (enc x) = f x) (xs : List α) :
    unpack k dec xs.length (xs.flatMap enc) = xs.map f := by
  induction xs with
  | nil => rfl
  | cons x xs ih =>
    rw [List.length_cons, unpack, List.flatMap_cons, List.take_left' (hlen x),
      List.drop_left' (hlen x), hdec x, ih, List.map_cons]

@[simp] theorem unpack_length (k : Nat) (dec : List UInt8 → α) (n : Nat) (bs : List UInt8) :
    (unpack k dec n bs).length = n := by
  induction n generalizing bs with
  | zero => rfl
  | succ n ih => rw [unpack, List.length_cons, ih]

theorem unpack_take (k : Nat) (dec : List UInt8 → α) (n : Nat) (bs : List UInt8) :
    unpack k dec n (bs.take (n * k)) = unpack k dec n bs := by
  induction n generalizing bs with
  | zero => rfl
  | succ n ih =>
    rw [unpack, unpack, List.take_take, List.drop_take, Nat.succ_mul, Nat.add_sub_cancel, ih,
      Nat.min_eq_left (Nat.le_add_left k _)]

theorem flatMap_unpack {k : Nat} {enc : α → List UInt8} {dec : List UInt8 → α}
    (henc : ∀ bs, bs.length = k → enc (dec bs) = bs) {n : Nat} {bs : List UInt8} (h : bs.length = n * k) :
    (unpack k dec n bs).flatMap enc = bs := by
  induction n generalizing bs with
  | zero => exact (List.length_eq_zero_iff.mp (h.trans (Nat.zero_mul k))).symm
  | succ n ih =>
    rw [Nat.succ_mul] at h
    rw [unpack, List.flatMap_cons, henc _ (by rw [List.length_take]; omega),
      ih (by rw [List.length_drop]; omega), List.take_append_drop]

theorem flatMap_length_const {k : Nat} {enc : α → List β} (hlen : ∀ x, (enc x).length = k)
    (xs : List α) : (xs.flatMap enc).length = xs.length * k := by
  simp [List.length_flatMap, hlen]

/-- `std::vector::resize`: keep the old elements that fit and fill up with `d`. -/
def resize (xs : List α) (n : Nat) (d : α) : List α := xs.take n ++ List.replicate (n - xs.length) d

@[simp] theorem resize_length (xs : List α) (n : Nat) (d : α) : (resize xs n d).length = n := by
  rw [resize, List.length_append, List.length_take, List.length_replicate]
  omega

end Packed

/-- An open file: the bytes not read yet, and the indeterminate bytes that the uninitialised
locals of the reading code happen to hold. -/
structure Reader where
  rest : List UInt8
  junk : Nat → UInt8

/-- `fread` over a destination that holds `old`: the bytes present in the file replace its front. -/
def freadOver (old : List UInt8) : StateM Reader (List UInt8) := fun r =>
  (r.rest.take old.length ++ old.drop r.rest.length,
    { r with rest := r.rest.drop old.length })

/-- `fread` of a `k`-byte integer into an uninitialised local. -/
def freadLocal (k : Nat) : StateM Reader Nat := fun r =>
  let (bs, r') := freadOver ((List.range k).map r.junk) r
  (leVal bs, { r' with junk := fun i => r.junk (i + k) })

/-- `read` takes exactly the bytes `bs` off the file and returns `a`, whatever follows them. -/
def Reads {α : Type} (read : StateM Reader α) (bs : List UInt8) (a : α) : Prop :=
  ∀ rest junk, ∃ junk', read ⟨bs ++ rest, junk⟩ = (a, ⟨rest, junk'⟩)

section Reads

variable {α β : Type}

theorem reads_pure (a : α) : Reads (pure a) [] a := fun _ junk => ⟨junk, rfl⟩

theorem Reads.bind {read : StateM Reader α} {next : α → StateM Reader β} {bs cs : List UInt8}
    {a : α} {c : β} (h : Reads read bs a) (hn : Reads (next a) cs c) :
    Reads (read >>= next) (bs ++ cs) c := by
  intro rest junk
  obtain ⟨junk₁, h₁⟩ := h (cs ++ rest) junk
  obtain ⟨junk₂, h₂⟩ := hn rest junk₁
  refine ⟨junk₂, ?_⟩
  change (match read ⟨bs ++ cs ++ rest, junk⟩ with | (x, s) => next x s) = _
  rw [List.append_assoc, h₁]
  exact h₂

theorem Reads.map {read : StateM Reader α} {bs : List UInt8} {a : α} (h : Reads read bs a)
    (f : α → β) : Reads (f <$> read) bs (f a) := by
  intro rest junk
  obtain ⟨junk', h'⟩ := h rest junk
  refine ⟨junk', ?_⟩
  change (match read ⟨bs ++ rest, junk⟩ with | (x, s) => (f x, s)) = _
  rw [h']

theorem Reads.bind_pure {read : StateM Reader α} {bs : List UInt8} {a : α} (h : Reads read bs a)
    (f : α → β) : Reads (read >>= fun x => pure (f x)) bs (f a) := by
  rw [bind_pure_comp]
  exact h.map f

theorem reads_freadOver {old bs : List UInt8} (h : old.length = bs.length) :
    Reads (freadOver old) bs bs := by
  intro rest junk
  refine ⟨junk, ?_⟩
  have hold : old.drop (bs ++ rest).length = [] := by
    apply List.drop_eq_nil_of_le
    rw [List.length_append]
    omega
  rw [freadOver, hold, List.append_nil, h, List.take_left, List.drop_left]

theorem reads_freadLocal {k : Nat} {bs : List UInt8} (h : bs.length = k) :
    Reads (freadLocal k) bs (leVal bs) := by
  intro rest junk
  have hold : ((List.range k).map junk).length = bs.length := by simp [h]
  obtain ⟨junk', h'⟩ := reads_freadOver hold rest junk
  refine ⟨fun i => junk (i + k), ?_⟩
  rw [freadLocal, h']

/-- Reading a list element by element, each into its own old value. -/
theorem reads_mapM {γ : Type} {read : α → StateM Reader β} {enc : γ → List UInt8} {f : γ → β}
    (olds : List α) (xs : List γ) (hlen : olds.length = xs.length)
    (h : ∀ o, ∀ x ∈ xs, Reads (read o) (enc x) (f x)) :
    Reads (olds.mapM read) (xs.flatMap enc) (xs.map f) := by
  induction olds generalizing xs with
  | nil =>
    rw [List.length_eq_zero_iff.mp hlen.symm]
    exact reads_pure []
  | cons o olds ih =>
    cases xs with
    | nil => exact absurd hlen (Nat.succ_ne_zero _)
    | cons x xs =>
      rw [List.mapM_cons, List.flatMap_cons]
      have htail := ih xs (Nat.succ.inj hlen) fun o' x' hx => h o' x' (List.mem_cons_of_mem x hx)
      exact (h o x List.mem_cons_self).bind (htail.bind_pure (f x :: ·))

/-- `fread` of an array of `k`-byte elements over the elements that are there. -/
def freadArray (k : Nat) (enc : α → List UInt8) (dec : List UInt8 → α) (olds : List α) :
    StateM Reader (List α) :=
  unpack k dec olds.length <$> freadOver (olds.flatMap enc)

theorem reads_freadArray {k : Nat} {enc : α → List UInt8} {dec : List UInt8 → α} {f : α → α}
    (hlen : ∀ x, (enc x).length = k) (hdec : ∀ x, dec (enc x) = f x) (olds : List α) {xs : List α}
    (h : olds.length = xs.length) :
    Reads (freadArray k enc dec olds) (xs.flatMap enc) (xs.map f) := by
  have hbytes : (olds.flatMap enc).length = (xs.flatMap enc).length := by
    rw [flatMap_length_const hlen, flatMap_length_const hlen, h]
  have := (reads_freadOver hbytes).map (unpack k dec olds.length)
  rw [h, unpack_flatMap hlen hdec] at this
  rwa [freadArray, h]

end Reads

/-- Whatever the file holds, `read` returns a value with this property. -/
def Yields {α : Type} (read : StateM Reader α) (P : α → Prop) : Prop := ∀ r, P (read r).1

section Yields

variable {α β : Type} {P : α → Prop} {Q : β → Prop}

theorem yields_pure {a : α} (h : P a) : Yields (pure a) P := fun _ => h

theorem Yields.bind {read : StateM Reader α} {next : α → StateM Reader β} (h : Yields read P)
    (hn : ∀ a, P a → Yields (next a) Q) : Yields (read >>= next) Q := fun r => hn _ (h r) _

theorem Yields.map {read : StateM Reader α} {f : α → β} (h : Yields read fun a => Q (f a)) :
    Yields (f <$> read) Q := h

theorem yields_any (read : StateM Reader α) : Yields read fun _ => True := fun _ => trivial

theorem yields_freadArray (k : Nat) (enc : α → List UInt8) (dec : List UInt8 → α) (olds : List α) :
    Yields (freadArray k enc dec olds) fun xs => xs.length = olds.length :=
  fun _ => unpack_length _ _ _ _

theorem yields_mapM (read : α → StateM Reader β) (olds : List α) :
    Yields (olds.mapM read) fun xs => xs.length = olds.length := by
  induction olds with
  | nil => exact yields_pure rfl
  | cons o olds ih =>
    rw [List.mapM_cons]
    refine (yields_any (read o)).bind fun a _ => ih.bind fun xs hxs => yields_pure ?_
    rw [List.length_cons, List.length_cons, hxs]

end Yields

end NeuralDb.Library
