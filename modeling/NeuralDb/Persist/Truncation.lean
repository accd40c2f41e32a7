import NeuralDb.Persist.TornTail

/-! A log cut at an arbitrary length is replayed up to its last complete record. -/

namespace NeuralDb

open Library

/-- The file after one `WAL` object after the other was made on it, each receiving its calls. -/
def writeLogs : Option Bytes → List (List WalCall) → Option Bytes
  | file, [] => file
  | file, cs :: sessions => writeLogs (some (writeLog file cs)) sessions

theorem writeLogs_eq (file : Option Bytes) (sessions : List (List WalCall)) :
    (writeLogs file sessions).getD [] = file.getD [] ++ sessions.flatten.flatMap WalCall.bytes := by
  induction sessions generalizing file with
  | nil => simp [writeLogs]
  | cons cs sessions ih =>
    rw [writeLogs, ih, Option.getD_some, writeLog_eq, List.flatten_cons, List.flatMap_append,
      List.append_assoc]

theorem logCalls_take {cs : List WalCall} (h : ∀ c ∈ cs, c.Fits) (n : Nat) :
    logCalls (some ((cs.flatMap WalCall.bytes).take n)) = within WalCall.bytes n cs := by
  rw [take_log, logCalls_append _ (fits_within h n), logCalls_torn h n, List.append_nil]

/-- Every log of records that fit their fields, written by any number of `WAL` objects and cut at any
length, is replayed to the end of its last complete record, and the read loop stops there. -/
theorem replay_truncated {α : Type} (onInsert : α → WALRecord → α) (onDelete : Option (α → UInt64 → α))
    (a : α) (file : Option Bytes) (hfile : file.getD [] = []) (sessions : List (List WalCall))
    (hfits : ∀ cs ∈ sessions, ∀ c ∈ cs, c.Fits) (n : Nat) :
    let cs := sessions.flatten
    let bs := ((writeLogs file sessions).getD []).take n
    ∃ k ≤ cs.length, ((cs.take k).flatMap WalCall.bytes).length ≤ n ∧
      (k < cs.length → n < ((cs.take (k + 1)).flatMap WalCall.bytes).length) ∧
      replayed (some bs) = (cs.take k).map WalCall.callback ∧
      replay onInsert onDelete (some bs) a = (cs.take k).foldl (WalCall.replay onInsert onDelete) a ∧
      ∀ fuel, bs.length ≤ fuel → WalFrame.framing.decodeLoop fuel bs = WalFrame.framing.decodeAll bs := by
  intro cs bs
  have hcs : ∀ c ∈ cs, c.Fits := by
    intro c hc
    obtain ⟨l, hl, hcl⟩ := List.mem_flatten.mp hc
    exact hfits l hl c hcl
  have hbs : bs = (cs.flatMap WalCall.bytes).take n := by
    show ((writeLogs file sessions).getD []).take n = _
    rw [writeLogs_eq, hfile, List.nil_append]
  obtain ⟨k, hk, hwithin, hle, hmax⟩ := within_spec WalCall.bytes n cs
  have hlog : logCalls (some bs) = cs.take k := by rw [hbs, logCalls_take hcs, hwithin]
  refine ⟨k, hk, hle, hmax, ?_, ?_, fun fuel hfuel => WalFrame.framing.decodeLoop_fuel fuel bs hfuel⟩
  · rw [replayed_eq, hlog]
  · rw [replay_eq, hlog]

/-- Two objects, three records, and a cut inside the metadata of the last one. -/
theorem replay_truncated_two :
    let sessions : List (List WalCall) := [[.insert 7 [3, 4] [65]], [.delete 7, .insert 8 [] [66, 67]]]
    ∃ k ≤ 3, k = 2 ∧
      replayed (some (((writeLogs none sessions).getD []).take 61)) =
        (sessions.flatten.take k).map WalCall.callback := by
  intro sessions
  obtain ⟨k, hk, hle, hmax, hreplay, -⟩ :=
    replay_truncated (fun a _ => a) none () none rfl sessions (by decide) 61
  have htwo : k = 2 := by
    have hlengths : k ≠ 0 ∧ k ≠ 1 ∧ k ≠ 3 := by
      refine ⟨?_, ?_, ?_⟩ <;> rintro rfl
      · exact absurd (hmax (by decide)) (by decide)
      · exact absurd (hmax (by decide)) (by decide)
      · exact absurd hle (by decide)
    have hk : k ≤ 3 := hk
    omega
  exact ⟨k, hk, htwo, hreplay⟩

end NeuralDb
