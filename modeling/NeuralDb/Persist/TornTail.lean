import NeuralDb.Persist.Wal

/-! A log that is cut by a crash and then appended to. The constructor keeps the torn record, so
later records survive only behind a cut that falls between two records. -/

namespace NeuralDb

open Library

/-- A call of `on_insert` or of `on_delete`. -/
abbrev Callback := WALRecord ⊕ UInt64

/-- The callbacks of a replay, in order. -/
def replayed (file : Option Bytes) : List Callback :=
  replay (fun l r => l ++ [.inl r]) (some fun l id => l ++ [.inr id]) file []

/-- The callback that a recorded call is meant to give. -/
def WalCall.callback : WalCall → Callback
  | .insert id vec metadata => .inl ⟨1, id, vec.length, vec, metadata⟩
  | .delete id => .inr id

/-- The file after a `WAL` object was made on it and received these calls. -/
def writeLog (file : Option Bytes) (cs : List WalCall) : Bytes :=
  let (file, wal) := WAL.new file
  (wal.appendCalls file cs).1

/-- The first log is cut at `n`, the calls `r2` go to a `WAL` object made on what is left, and the
replay gives the complete records of `r1` and then `r2`. -/
def Survives (r1 : List WalCall) (n : Nat) (r2 : List WalCall) : Prop :=
  replayed (some (writeLog (some ((writeLog none r1).take n)) r2)) =
    (within WalCall.bytes n r1 ++ r2).map WalCall.callback

instance (r1 : List WalCall) (n : Nat) (r2 : List WalCall) : Decidable (Survives r1 n r2) :=
  inferInstanceAs (Decidable (_ = _))

theorem writeLog_eq (file : Option Bytes) (cs : List WalCall) :
    writeLog file cs = file.getD [] ++ cs.flatMap WalCall.bytes := by
  simp only [writeLog, WAL.new, WAL.appendCalls_new]

theorem replayed_eq (file : Option Bytes) : replayed file = (logCalls file).map WalCall.callback := by
  have hfold : ∀ (cs : List WalCall) (l : List Callback),
      cs.foldl (WalCall.replay (fun l r => l ++ [.inl r]) (some fun l id => l ++ [.inr id])) l =
        l ++ cs.map WalCall.callback := by
    intro cs
    induction cs with
    | nil => exact fun l => (List.append_nil l).symm
    | cons c cs ih =>
      intro l
      rw [List.foldl_cons, ih, List.map_cons]
      cases c <;> simp [WalCall.replay, WalCall.callback]
  rw [replayed, replay_eq, hfold, List.nil_append]

theorem callback_injective : Function.Injective WalCall.callback := by
  intro c d h
  cases c <;> cases d <;> simp_all [WalCall.callback]

theorem survives_iff_logCalls {r1 : List WalCall} {n : Nat} {r2 : List WalCall} :
    Survives r1 n r2 ↔ logCalls (some (writeLog (some ((writeLog none r1).take n)) r2)) =
      within WalCall.bytes n r1 ++ r2 := by
  rw [Survives, replayed_eq]
  exact callback_injective.list_map.eq_iff

variable {r1 : List WalCall} {n : Nat}

theorem Survives.fits {r2 : List WalCall} (h : Survives r1 n r2) :
    ∀ c ∈ within WalCall.bytes n r1 ++ r2, c.Fits :=
  fun _ hc => fits_of_logCalls (survives_iff_logCalls.mp h ▸ hc)

theorem reopened_eq (r1 : List WalCall) (n : Nat) (r2 : List WalCall) :
    writeLog (some ((writeLog none r1).take n)) r2 =
      (within WalCall.bytes n r1).flatMap WalCall.bytes ++
        (torn WalCall.bytes n r1 ++ r2.flatMap WalCall.bytes) := by
  have hlog : writeLog none r1 = r1.flatMap WalCall.bytes := writeLog_eq none r1
  rw [writeLog_eq, hlog, Option.getD_some, take_log, List.append_assoc]

theorem survives_iff_torn (hw : ∀ c ∈ within WalCall.bytes n r1, c.Fits) (r2 : List WalCall) :
    Survives r1 n r2 ↔
      logCalls (some (torn WalCall.bytes n r1 ++ r2.flatMap WalCall.bytes)) = r2 := by
  rw [survives_iff_logCalls, reopened_eq, logCalls_append _ hw, List.append_cancel_left_eq]

/-- A torn record keeps its first byte, so what it is read as is a record of its own kind. -/
theorem torn_op (h : torn WalCall.bytes n r1 ≠ []) :
    ∃ bs, torn WalCall.bytes n r1 = 1 :: bs ∨ torn WalCall.bytes n r1 = 2 :: bs := by
  rcases torn_cases WalCall.bytes n r1 with hnil | ⟨c, -, k, hk, -, htorn⟩
  · exact absurd hnil h
  · obtain ⟨k, rfl⟩ := Nat.exists_eq_succ_of_ne_zero hk.ne'
    obtain ⟨bs, hbs | hbs⟩ := c.bytes_eq_cons
    · exact ⟨bs.take k, .inl (by rw [htorn, hbs, List.take_succ_cons])⟩
    · exact ⟨bs.take k, .inr (by rw [htorn, hbs, List.take_succ_cons])⟩

/-- Behind a record that is torn, a record of the other kind is not read. -/
theorem torn_swallows {op : UInt8} {bs : Bytes} {c : WalCall}
    (hc : ∀ f : WalFrame, f.op = op → ∃ d, f.call = some d ∧ d ≠ c) :
    logCalls (some (op :: bs)) ≠ [c] := by
  intro h
  cases hd : WalFrame.decode (op :: bs) with
  | none => exact absurd (h.symm.trans (logCalls_of_none hd)) (List.cons_ne_nil _ _)
  | some p =>
    obtain ⟨f, rest⟩ := p
    obtain ⟨d, hfd, hne⟩ := hc f (WalFrame.decode_op hd)
    rw [logCalls_of_some hd, hfd] at h
    exact hne (List.cons.inj h).1

theorem fits_within (h : ∀ c ∈ r1, c.Fits) (n : Nat) : ∀ c ∈ within WalCall.bytes n r1, c.Fits :=
  fun c hc => h c ((within_initial _ _ _).subset hc)

theorem survives_nil (h : ∀ c ∈ r1, c.Fits) : Survives r1 n [] := by
  rw [survives_iff_torn (fits_within h n), List.flatMap_nil, List.append_nil]
  exact logCalls_torn h n

theorem survives_boundary (hw : ∀ c ∈ within WalCall.bytes n r1, c.Fits)
    (ht : torn WalCall.bytes n r1 = []) {r2 : List WalCall} (h2 : ∀ c ∈ r2, c.Fits) :
    Survives r1 n r2 := by
  rw [survives_iff_torn hw, ht, List.nil_append]
  exact logCalls_flatMap r2 h2

/-- Behind a torn record there is always a record that the replay loses. -/
theorem lost_of_torn (hw : ∀ c ∈ within WalCall.bytes n r1, c.Fits) (ht : torn WalCall.bytes n r1 ≠ []) :
    ∃ c : WalCall, c.Fits ∧ ¬ Survives r1 n [c] := by
  obtain ⟨bs, hbs | hbs⟩ := torn_op ht
  · refine ⟨.delete 0, trivial, fun h => ?_⟩
    rw [survives_iff_torn hw, hbs, List.cons_append] at h
    exact torn_swallows (fun f hf => ⟨.insert f.id f.vec f.metadata, if_pos hf, by simp⟩) h
  · refine ⟨.insert 0 [] [], by decide, fun h => ?_⟩
    rw [survives_iff_torn hw, hbs, List.cons_append] at h
    exact torn_swallows (fun f hf => ⟨.delete f.id, by simp [WalFrame.call, hf], by simp⟩) h

/-- The records appended after a crash are all replayed, whatever they are, exactly when the cut
falls between two records. Nothing is lost as long as nothing is appended, and a record whose
lengths overflow their fields is never replayed. -/
theorem survives_iff (r1 : List WalCall) (n : Nat) :
    ((∀ r2, (∀ c ∈ r2, c.Fits) → Survives r1 n r2) ↔
        (∀ c ∈ within WalCall.bytes n r1, c.Fits) ∧ torn WalCall.bytes n r1 = []) ∧
      ((∀ c ∈ r1, c.Fits) → Survives r1 n []) ∧
      ∀ r2, Survives r1 n r2 → ∀ c ∈ within WalCall.bytes n r1 ++ r2, c.Fits := by
  refine ⟨⟨fun h => ?_, fun h r2 h2 => survives_boundary h.1 h.2 h2⟩, survives_nil,
    fun r2 h => h.fits⟩
  have hw : ∀ c ∈ within WalCall.bytes n r1, c.Fits := by
    have hnil := (h [] fun c hc => absurd hc List.not_mem_nil).fits
    rwa [List.append_nil] at hnil
  refine ⟨hw, ?_⟩
  by_contra ht
  obtain ⟨c, hc, hlost⟩ := lost_of_torn hw ht
  exact hlost (h [c] (List.forall_mem_singleton.mpr hc))

/-- A deletion torn in its last field swallows the insert that is logged after the restart. -/
theorem torn_delete_swallows :
    replayed (some (writeLog (some ((writeLog none [.delete 7]).take 16)) [.insert 8 [5] []])) = [] ∧
      ¬ Survives [.delete 7] 16 [.insert 8 [5] []] := by
  decide

end NeuralDb
