import NeuralDb.Persist.IndexFile
import NeuralDb.Library.Framing

/-! The write-ahead log: the file handle, the records and `replay`. -/

namespace NeuralDb

open Library

/-! ### The handle -/

/-- `"ab"` writes at the end of the file, `"wb"` at the handle's own offset. -/
inductive OpenMode where
  | append
  | write (offset : Nat)

/-- A `WAL` object, by the mode of its `fp_`. -/
structure WAL where
  mode : OpenMode

/-- Overwrite at an offset; the gap behind the end of the file is filled with zeros. -/
def writeAt (file : Bytes) (offset : Nat) (bs : Bytes) : Bytes :=
  resize file offset 0 ++ (bs ++ file.drop (offset + bs.length))

namespace WAL

/-- The constructor: the file is created when it is absent and kept as it is otherwise. -/
def new (file : Option Bytes) : Bytes × WAL := (file.getD [], ⟨.append⟩)

def fwrite (wal : WAL) (file bs : Bytes) : Bytes × WAL :=
  match wal.mode with
  | .append => (file ++ bs, wal)
  | .write offset => (writeAt file offset bs, ⟨.write (offset + bs.length)⟩)

/-- `checkpoint`: the file is truncated by opening it again with `"wb"`. -/
def checkpoint (_ : WAL) : Bytes × WAL := ([], ⟨.write 0⟩)

end WAL

/-! ### The records -/

/-- A call that appends one record. -/
inductive WalCall where
  | insert (id : UInt64) (vec : Vec) (metadata : Bytes)
  | delete (id : UInt64)
  deriving DecidableEq

namespace WalCall

/-- The bytes of one record; the length fields are cut to 32 bits. -/
def bytes : WalCall → Bytes
  | .insert id vec metadata =>
    1 :: (idBytes id ++ (leBytes 4 vec.length ++ (vec.flatMap wordBytes ++
      (leBytes 4 metadata.length ++ metadata.take (metadata.length % 2 ^ 32)))))
  | .delete id => 2 :: (idBytes id ++ (leBytes 4 0 ++ leBytes 4 0))

/-- The length fields hold the lengths. -/
def Fits : WalCall → Prop
  | .insert _ vec metadata => vec.length < 2 ^ 32 ∧ metadata.length < 2 ^ 32
  | .delete _ => True

instance (c : WalCall) : Decidable c.Fits := by
  cases c with
  | insert id vec metadata => exact inferInstanceAs (Decidable (_ ∧ _))
  | delete id => exact inferInstanceAs (Decidable True)

end WalCall

/-- `append_insert` and `append_delete`. -/
def WAL.appendCall (wal : WAL) (file : Bytes) (c : WalCall) : Bytes × WAL := wal.fwrite file c.bytes

def WAL.appendCalls : WAL → Bytes → List WalCall → Bytes × WAL
  | wal, file, [] => (file, wal)
  | wal, file, c :: cs =>
    let (file, wal) := wal.appendCall file c
    wal.appendCalls file cs

structure WALRecord where
  op : UInt8
  id : UInt64
  dim : Nat
  vec : Vec
  metadata : Bytes
  deriving DecidableEq

/-- A record as the file can hold it. -/
structure WalFrame where
  op : UInt8
  id : UInt64
  vec : Vec
  metadata : Bytes
  vec_lt : vec.length < 2 ^ 32
  metadata_lt : metadata.length < 2 ^ 32

namespace WalFrame

def record (f : WalFrame) : WALRecord := ⟨f.op, f.id, f.vec.length, f.vec, f.metadata⟩

def encode (f : WalFrame) : Bytes :=
  f.op :: (idBytes f.id ++ (leBytes 4 f.vec.length ++ (f.vec.flatMap wordBytes ++
    (leBytes 4 f.metadata.length ++ f.metadata))))

theorem leVal_lt_of_length {bs : Bytes} (h : bs.length = 4) : leVal bs < 2 ^ 32 := by
  have := leVal_lt bs
  rwa [h] at this

/-- The body of the loop in `replay`: a record, or nothing when a read comes up short. -/
def decode : Bytes → Option (WalFrame × Bytes)
  | [] => none
  | op :: bs => do
    let (id, bs) ← cut 8 bs
    let (dim, bs) ← cut 4 bs
    let (vec, bs) ← cut (leVal dim * 4) bs
    let (mlen, bs) ← cut 4 bs
    let (metadata, bs) ← cut (leVal mlen) bs
    pure ({
      op, id := idOfBytes id, vec := unpack 4 wordOfBytes (leVal dim) vec, metadata
      vec_lt := by rw [unpack_length]; exact leVal_lt_of_length dim.2
      metadata_lt := by rw [metadata.2]; exact leVal_lt_of_length mlen.2 }, bs)

theorem vec_bytes_length (vec : Vec) : (vec.flatMap wordBytes).length = vec.length * 4 :=
  flatMap_length_const wordBytes_length vec

theorem leVal_dim (f : WalFrame) : leVal (leBytes 4 f.vec.length) = f.vec.length := by
  rw [leVal_leBytes_four, Nat.mod_eq_of_lt f.vec_lt]

theorem leVal_mlen (f : WalFrame) : leVal (leBytes 4 f.metadata.length) = f.metadata.length := by
  rw [leVal_leBytes_four, Nat.mod_eq_of_lt f.metadata_lt]

theorem decode_encode (f : WalFrame) (rest : Bytes) : decode (f.encode ++ rest) = some (f, rest) := by
  have hvec : unpack 4 wordOfBytes f.vec.length (f.vec.flatMap wordBytes) = f.vec := by
    rw [unpack_flatMap wordBytes_length wordOfBytes_wordBytes, List.map_id']
  simp only [encode, List.cons_append, List.append_assoc, decode, Option.bind_eq_bind]
  rw [cut_append (idBytes_length f.id), Option.bind_some, cut_append (leBytes_length 4 _),
    Option.bind_some, cut_append (by rw [vec_bytes_length, leVal_dim]), Option.bind_some,
    cut_append (leBytes_length 4 _), Option.bind_some, cut_append f.leVal_mlen.symm, Option.bind_some]
  simp only [Option.pure_def, idOfBytes_idBytes, leVal_dim, hvec]

theorem encode_length (f : WalFrame) :
    f.encode.length = 17 + f.vec.length * 4 + f.metadata.length := by
  simp only [encode, List.length_cons, List.length_append, idBytes_length, leBytes_length,
    vec_bytes_length]
  omega

theorem decode_torn (f : WalFrame) (n : Nat) (h : n < f.encode.length) :
    decode (f.encode.take n) = none := by
  cases n with
  | zero => rfl
  | succ n =>
    have hlen := f.encode_length
    simp only [encode, List.take_succ_cons, decode, Option.bind_eq_bind]
    rw [cut_take (idBytes_length f.id)]
    split_ifs with h₁ <;> [rw [Option.bind_some]; rfl]
    rw [cut_take (leBytes_length 4 _)]
    split_ifs with h₂ <;> [rw [Option.bind_some]; rfl]
    rw [cut_take (by rw [vec_bytes_length, leVal_dim])]
    split_ifs with h₃ <;> [rw [Option.bind_some]; rfl]
    rw [cut_take (leBytes_length 4 _)]
    split_ifs with h₄ <;> [rw [Option.bind_some]; rfl]
    rw [← List.append_nil f.metadata, cut_take (by rw [List.append_nil]; exact f.leVal_mlen.symm)]
    split_ifs with h₅
    · rw [List.append_nil, leVal_mlen] at h₅
      rw [leVal_dim] at h₃ h₄ h₅
      omega
    · rfl

theorem decode_length {bs : Bytes} {f : WalFrame} {rest : Bytes} (h : decode bs = some (f, rest)) :
    bs.length = f.encode.length + rest.length := by
  cases bs with
  | nil => exact absurd h (by simp [decode])
  | cons op bs =>
    simp only [decode, Option.bind_eq_bind, Option.bind_eq_some_iff] at h
    obtain ⟨⟨id, bs₁⟩, h₁, ⟨dim, bs₂⟩, h₂, ⟨vec, bs₃⟩, h₃, ⟨mlen, bs₄⟩, h₄, ⟨metadata, bs₅⟩, h₅, hf⟩ := h
    obtain ⟨rfl, rfl⟩ := Prod.mk.inj (Option.some.inj hf)
    have e₁ : bs.length = 8 + bs₁.length := cut_length h₁
    have e₂ : bs₁.length = 4 + bs₂.length := cut_length h₂
    have e₃ : bs₂.length = leVal dim * 4 + bs₃.length := cut_length h₃
    have e₄ : bs₃.length = 4 + bs₄.length := cut_length h₄
    have e₅ : bs₄.length = leVal mlen + bs₅.length := cut_length h₅
    have hmeta : metadata.1.length = leVal mlen := metadata.2
    rw [encode_length, unpack_length, hmeta, List.length_cons]
    show bs.length + 1 = 17 + leVal dim * 4 + leVal mlen + bs₅.length
    omega

theorem decode_shrinks (bs : Bytes) (f : WalFrame) (rest : Bytes) (h : decode bs = some (f, rest)) :
    rest.length < bs.length := by
  rw [decode_length h, encode_length]
  omega

theorem decode_op {op : UInt8} {bs : Bytes} {f : WalFrame} {rest : Bytes}
    (h : decode (op :: bs) = some (f, rest)) : f.op = op := by
  simp only [decode, Option.bind_eq_bind, Option.bind_eq_some_iff] at h
  obtain ⟨_, -, _, -, _, -, _, -, _, -, hf⟩ := h
  exact congrArg WalFrame.op (Prod.mk.inj (Option.some.inj hf)).1.symm

/-- The format of the log. -/
def framing : Framing WalFrame UInt8 where
  enc := encode
  dec := decode
  dec_enc := decode_encode
  dec_torn := decode_torn
  dec_shrinks := decode_shrinks

end WalFrame

theorem WalCall.bytes_eq_cons (c : WalCall) : ∃ bs, c.bytes = 1 :: bs ∨ c.bytes = 2 :: bs := by
  cases c with
  | insert id vec metadata => exact ⟨_, .inl rfl⟩
  | delete id => exact ⟨_, .inr rfl⟩

/-- The record of a call whose lengths fit. -/
def WalCall.frame : (c : WalCall) → c.Fits → WalFrame
  | .insert id vec metadata, h => ⟨1, id, vec, metadata, h.1, h.2⟩
  | .delete id, _ => ⟨2, id, [], [], by decide, by decide⟩

theorem WalCall.encode_frame (c : WalCall) (h : c.Fits) : (c.frame h).encode = c.bytes := by
  cases c with
  | insert id vec metadata =>
    have hmeta : metadata.take (metadata.length % 2 ^ 32) = metadata := by
      rw [Nat.mod_eq_of_lt h.2, List.take_length]
    simp only [WalCall.frame, WalFrame.encode, WalCall.bytes, hmeta]
  | delete id => simp [WalCall.frame, WalFrame.encode, WalCall.bytes]

/-! ### Replay -/

/-- The end of the loop body of `replay`: other operations are passed over in silence. -/
def deliver {α : Type} (onInsert : α → WALRecord → α) (onDelete : Option (α → UInt64 → α)) (a : α)
    (f : WalFrame) : α :=
  if f.op = 1 then onInsert a f.record
  else if f.op = 2 then
    match onDelete with
    | some onDelete => onDelete a f.id
    | none => a
  else a

/-- `replay`, its callbacks acting on a state; without a file nothing is replayed. -/
def replay {α : Type} (onInsert : α → WALRecord → α) (onDelete : Option (α → UInt64 → α))
    (file : Option Bytes) (a : α) : α :=
  match file with
  | none => a
  | some bs => (WalFrame.framing.decodeAll bs).foldl (deliver onInsert onDelete) a

section Replay

variable {α : Type} (onInsert : α → WALRecord → α) (onDelete : Option (α → UInt64 → α))

/-- What the replay of one recorded call does. -/
def WalCall.replay (a : α) : WalCall → α
  | .insert id vec metadata => onInsert a ⟨1, id, vec.length, vec, metadata⟩
  | .delete id => onDelete.elim a fun f => f a id

/-- The call whose record this is; replay passes over other operations in silence. -/
def WalFrame.call (f : WalFrame) : Option WalCall :=
  if f.op = 1 then some (.insert f.id f.vec f.metadata)
  else if f.op = 2 then some (.delete f.id)
  else none

/-- The calls that a log records. -/
def logCalls : Option Bytes → List WalCall
  | none => []
  | some bs => (WalFrame.framing.decodeAll bs).filterMap WalFrame.call

theorem deliver_eq (a : α) (f : WalFrame) :
    deliver onInsert onDelete a f = f.call.elim a fun c => c.replay onInsert onDelete a := by
  unfold deliver WalFrame.call
  split_ifs with h₁
  · simp only [Option.elim_some, WalCall.replay, WalFrame.record, h₁]
  · cases onDelete <;> rfl
  · rfl

theorem replay_eq (file : Option Bytes) (a : α) :
    replay onInsert onDelete file a = (logCalls file).foldl (WalCall.replay onInsert onDelete) a := by
  cases file with
  | none => rfl
  | some bs =>
    simp only [NeuralDb.replay, logCalls]
    induction WalFrame.framing.decodeAll bs generalizing a with
    | nil => rfl
    | cons f fs ih =>
      rw [List.foldl_cons, deliver_eq, ih]
      cases hc : f.call with
      | none => rw [List.filterMap_cons_none hc, Option.elim_none]
      | some c => rw [List.filterMap_cons_some hc, List.foldl_cons, Option.elim_some]

end Replay

theorem WalCall.call_frame (c : WalCall) (h : c.Fits) : (c.frame h).call = some c := by
  cases c <;> rfl

theorem logCalls_of_some {bs rest : Bytes} {f : WalFrame} (h : WalFrame.decode bs = some (f, rest)) :
    logCalls (some bs) = f.call.toList ++ logCalls (some rest) := by
  have hdec : WalFrame.framing.dec bs = some (f, rest) := h
  rw [logCalls, WalFrame.framing.decodeAll_some hdec]
  cases hc : f.call with
  | none =>
    rw [List.filterMap_cons_none hc]
    rfl
  | some c =>
    rw [List.filterMap_cons_some hc]
    rfl

section Frames

variable {cs : List WalCall} (h : ∀ c ∈ cs, c.Fits)

theorem encodeAll_frames : WalFrame.framing.encodeAll (cs.pmap WalCall.frame h) = cs.flatMap WalCall.bytes := by
  induction cs with
  | nil => rfl
  | cons c cs ih =>
    obtain ⟨hc, hcs⟩ := List.forall_mem_cons.mp h
    rw [List.flatMap_cons, ← c.encode_frame hc, ← ih hcs]
    rfl

theorem calls_frames : (cs.pmap WalCall.frame h).filterMap WalFrame.call = cs := by
  induction cs with
  | nil => rfl
  | cons c cs ih =>
    obtain ⟨hc, hcs⟩ := List.forall_mem_cons.mp h
    rw [List.pmap_cons, List.filterMap_cons_some (c.call_frame hc), ih hcs]

theorem torn_frames (n : Nat) :
    torn WalFrame.framing.enc n (cs.pmap WalCall.frame h) = torn WalCall.bytes n cs := by
  induction cs generalizing n with
  | nil => rfl
  | cons c cs ih =>
    obtain ⟨hc, hcs⟩ := List.forall_mem_cons.mp h
    have henc : WalFrame.framing.enc (c.frame hc) = c.bytes := c.encode_frame hc
    rw [List.pmap_cons, torn, torn, henc, ih hcs]

end Frames

theorem logCalls_append (cs : List WalCall) (h : ∀ c ∈ cs, c.Fits) (bs : Bytes) :
    logCalls (some (cs.flatMap WalCall.bytes ++ bs)) = cs ++ logCalls (some bs) := by
  rw [logCalls, ← encodeAll_frames h, Framing.decodeAll_encodeAll_append, List.filterMap_append, calls_frames]
  rfl

theorem logCalls_of_none {bs : Bytes} (h : WalFrame.decode bs = none) : logCalls (some bs) = [] := by
  rw [logCalls, WalFrame.framing.decodeAll_none h, List.filterMap_nil]

theorem logCalls_flatMap (cs : List WalCall) (h : ∀ c ∈ cs, c.Fits) :
    logCalls (some (cs.flatMap WalCall.bytes)) = cs := by
  rw [logCalls, ← encodeAll_frames h, Framing.decodeAll_encodeAll, calls_frames]

theorem logCalls_torn {cs : List WalCall} (h : ∀ c ∈ cs, c.Fits) (n : Nat) :
    logCalls (some (torn WalCall.bytes n cs)) = [] := by
  rw [logCalls, ← torn_frames h, Framing.decodeAll_torn]
  rfl

/-- Whatever the file holds, the lengths of a record that is read fit their fields. -/
theorem fits_of_logCalls {file : Option Bytes} {c : WalCall} (h : c ∈ logCalls file) : c.Fits := by
  cases file with
  | none => exact absurd h List.not_mem_nil
  | some bs =>
    obtain ⟨f, -, hf⟩ := List.mem_filterMap.mp h
    unfold WalFrame.call at hf
    split_ifs at hf
    · exact Option.some.inj hf ▸ ⟨f.vec_lt, f.metadata_lt⟩
    · exact Option.some.inj hf ▸ trivial

/-- Appending through a handle that was opened on a file leaves the records behind its contents. -/
theorem WAL.appendCalls_new (file : Bytes) (cs : List WalCall) :
    WAL.appendCalls ⟨.append⟩ file cs = (file ++ cs.flatMap WalCall.bytes, ⟨.append⟩) := by
  induction cs generalizing file with
  | nil => simp [WAL.appendCalls]
  | cons c cs ih =>
    simp only [WAL.appendCalls, WAL.appendCall, WAL.fwrite, ih, List.flatMap_cons, List.append_assoc]

end NeuralDb
