import Mathlib.Algebra.Order.Ring.Int
import Mathlib.Data.List.Sort
import Mathlib.Tactic.Common

/-! A buffered output stream on a device that accepts a bounded number of bytes. Each call returns whether
it went well, and a caller may ignore that. -/

namespace NeuralDb.Library

/-- What has reached the device, what waits in the buffer, and how many bytes the device still accepts. -/
structure OutStream where
  written : List UInt8
  pending : List UInt8
  room : Nat

namespace OutStream

def start (room : Nat) : OutStream := ⟨[], [], room⟩

/-- Hand the buffer to the device, which takes what it has room for. -/
def flush (o : OutStream) : OutStream :=
  ⟨o.written ++ o.pending.take o.room, [], o.room - o.pending.length⟩

/-- `fwrite` with a buffer of `capacity` bytes: the number of bytes that were accepted. -/
def fwrite (capacity : Nat) (bs : List UInt8) (o : OutStream) : Nat × OutStream :=
  let filled : OutStream := { o with pending := o.pending ++ bs }
  if filled.pending.length ≤ capacity then (bs.length, filled)
  else (min bs.length (o.room - o.pending.length), filled.flush)

/-- `fclose`: whether the rest of the buffer was accepted, and the file. -/
def fclose (o : OutStream) : Bool × List UInt8 := (decide (o.pending.length ≤ o.room), o.flush.written)

/-- The writes `ws` one after the other, by a caller that does not look at what they return. -/
def writeAll (capacity : Nat) : List (List UInt8) → OutStream → OutStream
  | [], o => o
  | bs :: ws, o => writeAll capacity ws (fwrite capacity bs o).2

/-- Some write accepts fewer bytes than it was given, or the stream does not close well. -/
def runsShort (capacity : Nat) : List (List UInt8) → OutStream → Bool
  | [], o => !o.fclose.1
  | bs :: ws, o => decide ((fwrite capacity bs o).1 < bs.length) || runsShort capacity ws (fwrite capacity bs o).2

/-- The file that comes of the stream when `bs` is still written to it. -/
def file (o : OutStream) (bs : List UInt8) : List UInt8 := o.written ++ (o.pending ++ bs).take o.room

variable {capacity : Nat}

theorem file_fwrite (o : OutStream) (bs rest : List UInt8) :
    (fwrite capacity bs o).2.file rest = o.file (bs ++ rest) := by
  unfold fwrite
  dsimp only
  split_ifs
  · rw [file, file, List.append_assoc]
  · have htake : (o.pending ++ (bs ++ rest)).take o.room =
        (o.pending ++ bs).take o.room ++ rest.take (o.room - (o.pending ++ bs).length) := by
      rw [← List.append_assoc, List.take_append]
    rw [file, file, htake, ← List.append_assoc]
    rfl

/-- Whatever the buffer, the file is the front of all that was written. -/
theorem fclose_writeAll (ws : List (List UInt8)) (o : OutStream) :
    (writeAll capacity ws o).fclose.2 = o.file ws.flatten := by
  induction ws generalizing o with
  | nil =>
    rw [List.flatten_nil, file, List.append_nil]
    rfl
  | cons bs ws ih => rw [writeAll, ih, file_fwrite, List.flatten_cons]

/-- Some call fails exactly when not all that was written has room. -/
theorem runsShort_iff (ws : List (List UInt8)) {o : OutStream} (ho : o.pending.length ≤ capacity) :
    runsShort capacity ws o = true ↔ o.room < (o.pending ++ ws.flatten).length := by
  induction ws generalizing o with
  | nil => simp [runsShort, fclose]
  | cons bs ws ih =>
    rw [runsShort, Bool.or_eq_true, decide_eq_true_eq, List.flatten_cons]
    unfold fwrite
    dsimp only
    split_ifs with hfits
    · rw [ih hfits, List.append_assoc]
      exact or_iff_right (lt_irrefl _)
    · rw [List.length_append] at hfits
      have hempty : ({ o with pending := o.pending ++ bs } : OutStream).flush.pending.length ≤ capacity :=
        Nat.zero_le capacity
      rw [ih hempty]
      simp only [flush, List.nil_append, List.length_append]
      omega

theorem start_file (room : Nat) (bs : List UInt8) : (start room).file bs = bs.take room := rfl

theorem start_runsShort_iff (room : Nat) (ws : List (List UInt8)) :
    runsShort capacity ws (start room) = true ↔ room < ws.flatten.length := runsShort_iff ws (Nat.zero_le capacity)

end OutStream

end NeuralDb.Library
