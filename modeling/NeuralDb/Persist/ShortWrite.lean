import NeuralDb.Library.OutStream
import NeuralDb.Persist.Compact

/-! `compact` on a device that runs full. `save` looks at the result of no `fwrite` and of no `fclose`, so
the log is truncated behind an index file that was cut off. -/

namespace NeuralDb

open Library

/-- How the operating system serves a call of `compact`: which of its files it opens, the buffer of the
output stream, and the bytes of the index file that it accepts. -/
structure FileSystem where
  indexOpens : Bool
  walOpens : Bool
  walTruncates : Bool
  capacity : Nat
  room : Nat

namespace HNSWIndex

/-! ### The writes of `save` -/

def metadataWrites (m : Bytes) : List Bytes := [leBytes 4 m.length, m.take (m.length % 2 ^ 32)]

/-- `if (sz)` leaves the second write out. -/
def linksWrites (ls : List Nat) : List Bytes :=
  leBytes 4 ls.length ::
    if ls.length % 2 ^ 32 = 0 then [] else [(ls.take (ls.length % 2 ^ 32)).flatMap (leBytes 4)]

def layersWrites (g : List (List Nat)) : List Bytes := leBytes 4 g.length :: g.flatMap linksWrites

/-- The bytes of each call of `fwrite` in `save`. -/
def saveWrites (s : HNSWIndex) : List Bytes :=
  [leBytes 4 magic, leBytes 4 2, leBytes 4 s.dim, leBytes 4 0, leBytes 8 s.numVectors, s.idMap.flatMap idBytes,
    s.rawVectors.flatMap wordBytes] ++
  (s.metadata.flatMap metadataWrites ++
    ([intBytes s.maxLayer, leBytes 4 s.entryPoint, (packBits 64 s.numVectors s.isTombstoned).flatMap (leBytes 8)] ++
      ((List.range s.numVectors).map fun i => s.graph.getD i []).flatMap layersWrites))

theorem flatten_flatMap {α β : Type} (f : α → List (List β)) (xs : List α) :
    (xs.flatMap f).flatten = xs.flatMap fun x => (f x).flatten := by
  induction xs with
  | nil => rfl
  | cons x xs ih => rw [List.flatMap_cons, List.flatMap_cons, List.flatten_append, ih]

theorem metadataWrites_flatten (m : Bytes) : (metadataWrites m).flatten = encodeMetadata m := by
  rw [metadataWrites, encodeMetadata, List.flatten_cons, List.flatten_cons, List.flatten_nil, List.append_nil]

theorem linksWrites_flatten (ls : List Nat) : (linksWrites ls).flatten = encodeLinks ls := by
  rw [linksWrites, encodeLinks, List.flatten_cons]
  split_ifs with hsz
  · rw [hsz]
    rfl
  · rw [List.flatten_cons, List.flatten_nil, List.append_nil]

theorem layersWrites_flatten (g : List (List Nat)) : (layersWrites g).flatten = encodeLayers g := by
  rw [layersWrites, encodeLayers, List.flatten_cons, flatten_flatMap]
  simp only [linksWrites_flatten]

theorem saveWrites_flatten (s : HNSWIndex) : s.saveWrites.flatten = s.save := by
  simp only [saveWrites, List.flatten_append, flatten_flatMap, metadataWrites_flatten, layersWrites_flatten,
    List.flatten_cons, List.flatten_nil, List.append_nil, save, saveHeader, saveBody, List.append_assoc]

/-- `save`, once the file is open. -/
def saveOn (s : HNSWIndex) (fs : FileSystem) : Bytes :=
  (OutStream.writeAll fs.capacity s.saveWrites (.start fs.room)).fclose.2

/-- In some `fwrite` or in the `fclose` of `save` the system does not take all the bytes. -/
def StopsIn (fs : FileSystem) (s : HNSWIndex) : Prop :=
  fs.indexOpens = true ∧ OutStream.runsShort fs.capacity s.saveWrites (.start fs.room) = true

theorem saveOn_eq (s : HNSWIndex) (fs : FileSystem) : s.saveOn fs = s.save.take fs.room := by
  rw [saveOn, OutStream.fclose_writeAll, OutStream.start_file, saveWrites_flatten]

theorem stopsIn_iff (fs : FileSystem) (s : HNSWIndex) :
    StopsIn fs s ↔ fs.indexOpens = true ∧ fs.room < s.save.length := by
  rw [StopsIn, OutStream.start_runsShort_iff, saveWrites_flatten]

/-! ### Compaction -/

section Compact

variable {σ : Type} [LinearOrder σ] (rt : Runtime σ)

/-- `compact`: what it throws, and the files it leaves. -/
def compactOn (s : HNSWIndex) (levels : Nat → Level) (fs : FileSystem) (indexPath walPath : String) (disk : Disk) :
    Except String Unit × Disk :=
  let fresh := s.compacted rt levels
  if fs.indexOpens = false then (.error ("Cannot open file for write: " ++ indexPath), disk)
  else
    let index := some (fresh.saveOn fs)
    if fs.walOpens = false then (.error ("WAL: cannot open " ++ walPath), ⟨index, disk.wal⟩)
    else
      let (log, wal) := WAL.new disk.wal
      if fs.walTruncates = false then
        (.error ("WAL: checkpoint failed, cannot truncate " ++ walPath), ⟨index, some log⟩)
      else (.ok (), ⟨index, some wal.checkpoint.1⟩)

/-- A `save` that is stopped makes `compact` throw and leave the log alone. -/
def KeepsLog (s : HNSWIndex) (levels : Nat → Level) (fs : FileSystem) (indexPath walPath : String) (disk : Disk) :
    Prop :=
  StopsIn fs (s.compacted rt levels) →
    (∃ e, (compactOn rt s levels fs indexPath walPath disk).1 = .error e) ∧
      (compactOn rt s levels fs indexPath walPath disk).2.wal = disk.wal

variable {s : HNSWIndex} {levels : Nat → Level} {fs : FileSystem} {indexPath walPath : String} {disk : Disk}

/-- When all files open, `compact` returns and empties the log, whatever was written of the index. -/
theorem compactOn_opens (hindex : fs.indexOpens = true) (hwal : fs.walOpens = true) (htrunc : fs.walTruncates = true) :
    compactOn rt s levels fs indexPath walPath disk =
      (.ok (), ⟨some ((s.compacted rt levels).save.take fs.room), some []⟩) := by
  simp only [compactOn, hindex, hwal, htrunc, Bool.true_eq_false, if_false, saveOn_eq, WAL.checkpoint]

/-- With room for the index file this is the compaction of a system where nothing fails. -/
theorem compactOn_room (hindex : fs.indexOpens = true) (hwal : fs.walOpens = true) (htrunc : fs.walTruncates = true)
    (hroom : ¬ StopsIn fs (s.compacted rt levels)) :
    compactOn rt s levels fs indexPath walPath disk = (.ok (), s.compact rt levels disk) := by
  rw [stopsIn_iff, not_and, not_lt] at hroom
  rw [compactOn_opens rt hindex hwal htrunc, List.take_of_length_le (hroom hindex)]
  rfl

/-- A stopped `save` is reported and keeps the log exactly when the log cannot be opened afterwards, or is
there and cannot be truncated. When all files open, the log is emptied behind the part of the index file
that was accepted. -/
theorem keepsLog_iff (s : HNSWIndex) (levels : Nat → Level) (fs : FileSystem) (indexPath walPath : String)
    (disk : Disk) :
    (KeepsLog rt s levels fs indexPath walPath disk ↔ ¬ StopsIn fs (s.compacted rt levels) ∨
      fs.walOpens = false ∨ (fs.walTruncates = false ∧ disk.wal.isSome = true)) ∧
    (StopsIn fs (s.compacted rt levels) ↔
      fs.indexOpens = true ∧ fs.room < (s.compacted rt levels).save.length) ∧
    (fs.indexOpens = true → fs.walOpens = true → fs.walTruncates = true →
      compactOn rt s levels fs indexPath walPath disk =
          (.ok (), ⟨some ((s.compacted rt levels).save.take fs.room), some []⟩) ∧
        (¬ StopsIn fs (s.compacted rt levels) →
          compactOn rt s levels fs indexPath walPath disk = (.ok (), s.compact rt levels disk))) := by
  refine ⟨?_, stopsIn_iff fs _, fun hindex hwal htrunc =>
    ⟨compactOn_opens rt hindex hwal htrunc, compactOn_room rt hindex hwal htrunc⟩⟩
  by_cases hstop : StopsIn fs (s.compacted rt levels)
  · have hindex := hstop.1
    rw [KeepsLog, forall_prop_of_true hstop, or_iff_right (not_not.mpr hstop)]
    cases hwal : fs.walOpens with
    | false =>
      refine iff_of_true ?_ (.inl rfl)
      simp [compactOn, hindex, hwal]
    | true =>
      rw [or_iff_right fun h => Bool.noConfusion h]
      cases htrunc : fs.walTruncates with
      | false =>
        -- opening the log for appending creates it
        cases disk with
        | mk index wal => cases wal <;> simp [compactOn, hindex, hwal, htrunc, WAL.new]
      | true =>
        rw [compactOn_opens rt hindex hwal htrunc]
        simp
  · exact iff_of_true (fun h => absurd h hstop) (.inl hstop)

/-- One vector that is in the log, and a device that takes ten bytes: the log is emptied. -/
theorem compact_loses_log :
    let s := run .sample {} [(.insert 7 ⟨[3], rfl⟩ [] 0 : Op 1)]
    let fs : FileSystem := ⟨true, true, true, 4096, 10⟩
    let disk : Disk := ⟨none, some (WalCall.bytes (.insert 7 [3] []))⟩
    StopsIn fs (s.compacted .sample fun _ => 0) ∧
      compactOn .sample s (fun _ => 0) fs "index" "wal" disk =
        (.ok (), ⟨some [32, 66, 68, 78, 2, 0, 0, 0, 1, 0], some []⟩) := by
  intro s fs disk
  refine ⟨(stopsIn_iff _ _).mpr ⟨rfl, by decide +kernel⟩, ?_⟩
  rw [compactOn_opens .sample rfl rfl rfl]
  have hfile : (s.compacted .sample fun _ => 0).save.take 10 = [32, 66, 68, 78, 2, 0, 0, 0, 1, 0] := by decide +kernel
  rw [hfile]

end Compact

end HNSWIndex

end NeuralDb
