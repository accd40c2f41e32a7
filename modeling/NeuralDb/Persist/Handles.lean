import NeuralDb.Persist.Compact
import NeuralDb.Persist.TornTail

/-! A log with a long-lived handle that compactions of the index truncate from outside. After its
first checkpoint the handle writes at its own offset, so a later truncation leaves a gap of zeros in
front of its next record. -/

namespace NeuralDb

open Library

/-- What happens to the log: a call on the handle, or `compact` of an index on the same path. -/
inductive LogEvent where
  | append (c : WalCall)
  | checkpoint
  | compact (s : HNSWIndex) (levels : Nat → Level)

structure LogState where
  file : Bytes
  wal : WAL

namespace LogState

variable {σ : Type} [LinearOrder σ] (rt : Runtime σ)

def step (st : LogState) : LogEvent → LogState
  | .append c =>
    let (file, wal) := st.wal.appendCall st.file c
    ⟨file, wal⟩
  | .checkpoint =>
    let (file, wal) := st.wal.checkpoint
    ⟨file, wal⟩
  | .compact s levels => { st with file := (s.compact rt levels ⟨none, some st.file⟩).wal.getD [] }

def start : LogState :=
  let (file, wal) := WAL.new none
  ⟨file, wal⟩

def run (es : List LogEvent) : LogState := es.foldl (step rt) start

end LogState

/-- What a sequence of events says about the log. -/
structure LogTrace where
  /-- the records appended since the last truncation -/
  recent : List WalCall := []
  /-- the bytes written through the handle since its last checkpoint, when there was one -/
  written : Option Nat := none
  /-- their number at the last truncation, when that was a compaction -/
  gap : Nat := 0

namespace LogTrace

def add (t : LogTrace) : LogEvent → LogTrace
  | .append c => { t with recent := t.recent ++ [c], written := t.written.map (· + c.bytes.length) }
  | .checkpoint => { recent := [], written := some 0, gap := 0 }
  | .compact _ _ => { t with recent := [], gap := t.written.getD 0 }

def of (es : List LogEvent) : LogTrace := es.foldl add {}

/-- The bytes of the records since the last truncation. -/
def log (t : LogTrace) : Bytes := t.recent.flatMap WalCall.bytes

end LogTrace

/-! ### What is in the file -/

theorem writeAt_gap (n : Nat) (bs : Bytes) : writeAt [] n bs = List.replicate n 0 ++ bs := by
  simp [writeAt, resize]

theorem writeAt_end (file bs : Bytes) : writeAt file file.length bs = file ++ bs := by
  simp [writeAt, resize]

/-- The file and the handle of a state, from what happened to them. -/
structure LogState.Traced (st : LogState) (t : LogTrace) : Prop where
  mode : st.wal.mode = t.written.elim .append .write
  empty : t.recent = [] → st.file = []
  file : t.recent ≠ [] → st.file = List.replicate t.gap 0 ++ t.log
  offset : t.written.getD (t.gap + t.log.length) = t.gap + t.log.length
  no_gap : t.written = none → t.gap = 0

namespace LogState

variable {σ : Type} [LinearOrder σ] (rt : Runtime σ) {st : LogState} {t : LogTrace}

theorem Traced.append (h : st.Traced t) (c : WalCall) : (st.step rt (.append c)).Traced (t.add (.append c)) := by
  have hlog : (t.add (.append c)).log = t.log ++ c.bytes := by
    simp [LogTrace.log, LogTrace.add]
  have hfile : (st.step rt (.append c)).file = List.replicate t.gap 0 ++ (t.log ++ c.bytes) ∧
      (st.step rt (.append c)).wal.mode = (t.written.map (· + c.bytes.length)).elim .append .write := by
    have hmode := h.mode
    have hoffset := h.offset
    simp only [step, WAL.appendCall, WAL.fwrite]
    cases hw : t.written with
    | none =>
      -- still in append mode, so no gap was ever left
      rw [hw] at hmode
      simp only [hmode, Option.elim_none, Option.map_none]
      refine ⟨?_, trivial⟩
      rw [h.no_gap hw, List.replicate_zero, List.nil_append]
      by_cases hr : t.recent = []
      · rw [h.empty hr, LogTrace.log, hr, List.flatMap_nil]
      · rw [h.file hr, h.no_gap hw, List.replicate_zero, List.nil_append]
    | some n =>
      rw [hw] at hmode hoffset
      simp only [Option.getD_some] at hoffset
      simp only [hmode, Option.elim_some, Option.map_some, and_true]
      by_cases hr : t.recent = []
      · have hnil : t.log = [] := by rw [LogTrace.log, hr, List.flatMap_nil]
        rw [hnil, List.length_nil, Nat.add_zero] at hoffset
        rw [h.empty hr, writeAt_gap, hnil, List.nil_append, hoffset]
      · have hlen : st.file.length = n := by
          rw [h.file hr, List.length_append, List.length_replicate, hoffset]
        rw [← hlen, writeAt_end, h.file hr, List.append_assoc]
  refine ⟨hfile.2, fun hr => absurd hr ?_, fun _ => ?_, ?_, fun hw => h.no_gap ?_⟩
  · simp [LogTrace.add]
  · rw [hlog]
    exact hfile.1
  · have hoffset := h.offset
    rw [hlog, List.length_append]
    simp only [LogTrace.add]
    cases hw : t.written with
    | none => rfl
    | some n =>
      rw [hw] at hoffset
      simp only [Option.getD_some, Option.map_some] at hoffset ⊢
      omega
  · simpa [LogTrace.add] using hw

theorem Traced.step (h : st.Traced t) (e : LogEvent) : (st.step rt e).Traced (t.add e) := by
  cases e with
  | append c => exact h.append rt c
  | checkpoint => exact ⟨rfl, fun _ => rfl, fun hr => absurd rfl hr, rfl, fun _ => rfl⟩
  | compact s levels =>
    refine ⟨h.mode, fun _ => rfl, fun hr => absurd rfl hr, ?_, fun hw => ?_⟩
    · simp only [LogTrace.add, LogTrace.log, List.flatMap_nil, List.length_nil, Nat.add_zero]
      cases t.written <;> rfl
    · have hw : t.written = none := hw
      simp only [LogTrace.add, hw, Option.getD_none]

theorem traced_run (es : List LogEvent) : (run rt es).Traced (LogTrace.of es) := by
  induction es using List.reverseRecOn with
  | nil => exact ⟨rfl, fun _ => rfl, fun hr => absurd rfl hr, rfl, fun _ => rfl⟩
  | append_singleton es e ih =>
    rw [run, LogTrace.of, List.foldl_append, List.foldl_append]
    exact ih.step rt e

end LogState

/-! ### What a replay makes of the gap -/

theorem nil_length_lt {α : Type} : ([] : List α).length < 2 ^ 32 := Nat.two_pow_pos 32

/-- Seventeen zeros read as a record of no operation. -/
def zeroFrame : WalFrame := ⟨0, 0, [], [], nil_length_lt, nil_length_lt⟩

theorem encode_zeroFrame : zeroFrame.encode = List.replicate 17 0 := by decide

theorem logCalls_zeros (n : Nat) (bs : Bytes) :
    logCalls (some (List.replicate (17 * n) 0 ++ bs)) = logCalls (some bs) := by
  induction n with
  | zero => rfl
  | succ n ih =>
    rw [Nat.mul_succ, Nat.add_comm, List.replicate_add, List.append_assoc, ← encode_zeroFrame,
      logCalls_of_some (WalFrame.decode_encode zeroFrame _), ih]
    rfl

theorem bytes_length_le {f : WalFrame} {c : WalCall} (h : f.call = some c) :
    c.bytes.length ≤ f.encode.length := by
  have hlen := f.encode_length
  unfold WalFrame.call at h
  split_ifs at h
  · obtain rfl := Option.some.inj h
    have hfits : (WalCall.insert f.id f.vec f.metadata).Fits := ⟨f.vec_lt, f.metadata_lt⟩
    rw [← WalCall.encode_frame _ hfits, WalFrame.encode_length, hlen]
    exact le_rfl
  · obtain rfl := Option.some.inj h
    simp only [WalCall.bytes, List.length_cons, List.length_append, idBytes_length, leBytes_length]
    omega

theorem logCalls_length (bs : Bytes) :
    ((logCalls (some bs)).flatMap WalCall.bytes).length ≤ bs.length := by
  induction hn : bs.length using Nat.strongRecOn generalizing bs with
  | ind n ih =>
    subst hn
    cases hd : WalFrame.decode bs with
    | none =>
      rw [logCalls_of_none hd, List.flatMap_nil]
      exact Nat.zero_le _
    | some p =>
      obtain ⟨f, rest⟩ := p
      have hrest := ih rest.length (WalFrame.decode_shrinks bs f rest hd) rest rfl
      have hlen := WalFrame.decode_length hd
      rw [logCalls_of_some hd, List.flatMap_append, List.length_append]
      cases hc : f.call with
      | none => simpa using hrest.trans (by omega)
      | some c =>
        have hle := bytes_length_le hc
        simp only [Option.toList_some, List.flatMap_singleton]
        omega

/-- A gap that is no multiple of seventeen swallows the front of the records behind it. -/
theorem logCalls_misaligned {r : Nat} (h0 : 0 < r) (h17 : r < 17) {bs : Bytes} {cs : List WalCall}
    (hbs : bs = cs.flatMap WalCall.bytes) (hcs : cs ≠ []) :
    logCalls (some (List.replicate r 0 ++ bs)) ≠ cs := by
  intro h
  obtain ⟨k, rfl⟩ := Nat.exists_eq_succ_of_ne_zero h0.ne'
  rw [List.replicate_succ, List.cons_append] at h
  cases hd : WalFrame.decode (0 :: (List.replicate k 0 ++ bs)) with
  | none => exact hcs (h.symm.trans (logCalls_of_none hd))
  | some p =>
    obtain ⟨f, rest⟩ := p
    have hop : f.op = 0 := WalFrame.decode_op hd
    have hcall : f.call = none := by simp [WalFrame.call, hop]
    rw [logCalls_of_some hd, hcall, Option.toList_none, List.nil_append] at h
    have hrest := logCalls_length rest
    have hlen := WalFrame.decode_length hd
    rw [WalFrame.encode_length, List.length_cons, List.length_append, List.length_replicate, hbs] at hlen
    rw [h] at hrest
    omega

/-- After any sequence of events, the replay gives the records appended since the last truncation
exactly when there are none, or all fit their fields and the gap in front of them is a whole number of
empty records. -/
theorem handles_replay_iff {σ : Type} [LinearOrder σ] (rt : Runtime σ) (es : List LogEvent) :
    let t := LogTrace.of es
    replayed (some (LogState.run rt es).file) = t.recent.map WalCall.callback ↔
      t.recent = [] ∨ (∀ c ∈ t.recent, c.Fits) ∧ 17 ∣ t.gap := by
  intro t
  have htraced : (LogState.run rt es).Traced t := LogState.traced_run rt es
  rw [replayed_eq, callback_injective.list_map.eq_iff]
  by_cases hr : t.recent = []
  · have hnil : logCalls (some []) = [] := logCalls_of_none rfl
    rw [htraced.empty hr, hnil, hr]
    exact ⟨fun _ => .inl rfl, fun _ => rfl⟩
  have hgap : t.gap = 17 * (t.gap / 17) + t.gap % 17 := (Nat.div_add_mod t.gap 17).symm
  have hfile : logCalls (some (LogState.run rt es).file) =
      logCalls (some (List.replicate (t.gap % 17) 0 ++ t.log)) := by
    rw [htraced.file hr, hgap, List.replicate_add, List.append_assoc, logCalls_zeros]
    simp only [Nat.mul_add_mod, Nat.mod_mod]
  rw [hfile]
  constructor
  · intro h
    refine .inr ⟨fun c hc => fits_of_logCalls (h.symm ▸ hc), Nat.dvd_of_mod_eq_zero ?_⟩
    by_contra hne
    exact logCalls_misaligned (Nat.pos_of_ne_zero hne) (Nat.mod_lt _ (by decide)) rfl hr h
  · rintro (h | ⟨hfits, hdvd⟩)
    · exact absurd h hr
    · rw [Nat.mod_eq_zero_of_dvd hdvd, List.replicate_zero, List.nil_append]
      exact logCalls_flatMap _ hfits

/-- A checkpoint, an insert of 21 bytes, a compaction and a delete, which the replay loses. -/
theorem handles_lose_delete :
    let es : List LogEvent := [.checkpoint, .append (.insert 7 [5] []), .compact (.new 1 {}) (fun _ => 0),
      .append (.delete 8)]
    (LogTrace.of es).recent = [.delete 8] ∧ replayed (some (LogState.run Runtime.sample es).file) = [] := by
  decide

end NeuralDb
