import NeuralDb.Concurrent.Defined
import NeuralDb.Persist.Reload
import NeuralDb.Library.EventLog

/-! The slot table under concurrent calls. A call writes to the table in one region, and the order of
these regions is a sequential history that the table cannot be told apart from. -/

namespace NeuralDb

open Library HNSWIndex

namespace Concurrent

variable {σ : Type} [LinearOrder σ] {dim : Nat}

def InsertFrame.op (f : InsertFrame σ) : Option (Op dim) :=
  match f.pc with
  | .append => if h : f.vec.length = dim then some (.insert f.id ⟨f.vec, h⟩ f.metadata f.level) else none
  | _ => none

/-- The operation of a call that has not been in its writing region yet. -/
def Call.op : Call σ → Option (Op dim)
  | .insert f => f.op
  | .search _ => none
  | .delete id => some (.delete id)

namespace Machine

/-- What a thread has begun and still has to write. -/
def held (m : Machine σ) (t : Nat) : List (Nat × Op dim) :=
  (((m.threads t).call.bind Call.op).map (t, ·)).toList

/-- The operation that begins with an event, with its thread. -/
def begins (m : Machine σ) (e : Nat × Action dim) : List (Nat × Op dim) :=
  match (m.threads e.1).call with
  | none => (((e.2.call? : Option (Call σ)).bind Call.op).map (e.1, ·)).toList
  | some _ => []

/-- The operation whose writing region an event is. -/
def writes (m : Machine σ) (e : Nat × Action dim) : List (Nat × Op dim) :=
  match e.2 with
  | .step => m.held e.1
  | _ => []

section Written

omit [LinearOrder σ]

variable {m : Machine σ} {e : Nat × Action dim}

theorem writes_eq_nil (h : e.2 = .step → (m.threads e.1).call = none) : m.writes e = [] := by
  unfold writes
  split
  · next hstep => simp [held, h hstep]
  · rfl

theorem writes_step {c : Call σ} (hcall : (m.threads e.1).call = some c) (hstep : e.2 = .step) :
    m.writes e = ((c.op : Option (Op dim)).map (e.1, ·)).toList := by
  unfold writes
  rw [hstep]
  simp [held, hcall]

theorem begins_of_call {c : Call σ} (hcall : (m.threads e.1).call = some c) : m.begins e = [] := by
  simp [begins, hcall]

theorem begins_of_idle (hidle : (m.threads e.1).call = none) :
    m.begins e = (((e.2.call? : Option (Call σ)).bind Call.op).map (e.1, ·)).toList := by
  simp [begins, hidle]

end Written

variable (rt : Runtime σ)

/-- The operations that a run begins. -/
def begun (cfg : HNSWConfig) (es : List (Nat × Action dim)) : List (Nat × Op dim) :=
  emitted (next rt) begins (new dim cfg) es

/-- The operations of a run in the order of their writing regions. -/
def written (cfg : HNSWConfig) (es : List (Nat × Action dim)) : List (Nat × Op dim) :=
  emitted (next rt) writes (new dim cfg) es

end Machine

section Step

variable (rt : Runtime σ) {s : HNSWIndex} {f f' : InsertFrame σ} {c c' : Call σ}

omit [LinearOrder σ] in
theorem linkFrom_ne_append (n : Nat) : (linkFrom n : InsertPc σ) ≠ .append := by
  cases n <;> exact nofun

/-- A step leaves the arguments of an insert alone, and the append is not repeated. -/
theorem InsertFrame.step_args (h : (f.step rt s).2 = some f') :
    f'.vec = f.vec ∧ f'.pc ≠ .append := by
  unfold InsertFrame.step at h
  split at h
  · dsimp only at h
    split_ifs at h
    exact Option.some.inj h ▸ ⟨rfl, nofun⟩
  · refine Option.some.inj h ▸ ⟨rfl, ?_⟩
    dsimp only
    split_ifs
    · exact nofun
    · exact linkFrom_ne_append _
  · refine Option.some.inj h ▸ ⟨rfl, ?_⟩
    dsimp only
    split_ifs
    · exact nofun
    · exact linkFrom_ne_append _
  · exact Option.some.inj h ▸ ⟨rfl, nofun⟩
  · exact Option.some.inj h ▸ ⟨rfl, nofun⟩
  · exact Option.some.inj h ▸ ⟨rfl, nofun⟩
  · exact Option.some.inj h ▸ ⟨rfl, nofun⟩
  · exact Option.some.inj h ▸ ⟨rfl, nofun⟩
  · exact Option.some.inj h ▸ ⟨rfl, linkFrom_ne_append _⟩
  · contradiction

/-- Past its append an insert writes to the graph and the entry point only. -/
theorem InsertFrame.step_table (h : f.pc ≠ .append) : SameTable s (f.step rt s).1 := by
  unfold InsertFrame.step
  split
  · next hap => exact absurd hap h
  · exact (regraphed_refl s).table
  · exact (regraphed_refl s).table
  · exact (regraphed_refl s).table
  · exact (regraphed_refl s).table
  · exact (regraphed_refl s).table
  · next lc cands hd => exact (regraphed_setLinks s lc f.q _).table
  · next lc cands nb nbs hd => exact (regraphed_backLink rt s lc f.q nb).table
  · exact (regraphed_refl s).table
  · exact sameTable_raise s f.q f.level

/-- The vector of an insert has the dimension of the index. -/
def Call.Sized (dim : Nat) : Call σ → Prop
  | .insert f => f.vec.length = dim
  | _ => True

omit [LinearOrder σ] in
theorem op_of_pc (h : f.pc ≠ .append) : (Call.insert f).op = (none : Option (Op dim)) := by
  unfold Call.op InsertFrame.op
  dsimp only
  split
  · next hap => exact absurd hap h
  · rfl

theorem op_callStep {hits : List (σ × UInt64)} (h : (Machine.callStep rt s hits c).2.1 = some c') :
    c'.op = (none : Option (Op dim)) := by
  cases c with
  | insert f =>
    obtain ⟨f', hf', rfl⟩ := Option.map_eq_some_iff.mp h
    exact op_of_pc (InsertFrame.step_args rt hf').2
  | search f =>
    unfold Machine.callStep at h
    dsimp only at h
    split at h
    · exact Option.some.inj h ▸ rfl
    · contradiction
  | delete id => contradiction

/-- The table has an entry for each slot, and the index is of the dimension and configuration it was made with. -/
structure TableOk (dim : Nat) (cfg : HNSWConfig) (s : HNSWIndex) : Prop extends s.Aligned where
  dim_eq : s.dim = dim
  cfg_eq : s.cfg = cfg

variable {cfg : HNSWConfig}

theorem tableOk_new (dim : Nat) (cfg : HNSWConfig) : TableOk dim cfg (new dim cfg) :=
  ⟨aligned_new dim cfg, rfl, rfl⟩

theorem TableOk.same {s' : HNSWIndex} (h : TableOk dim cfg s) (hs : SameTable s s') : TableOk dim cfg s' :=
  ⟨hs.aligned h.toAligned, hs.dim_eq.trans h.dim_eq, hs.cfg_eq.trans h.cfg_eq⟩

theorem TableOk.deleteVector (h : TableOk dim cfg s) (id : UInt64) : TableOk dim cfg (s.deleteVector id) := by
  have hkeep : (s.deleteVector id).dim = s.dim ∧ (s.deleteVector id).cfg = s.cfg := by
    unfold HNSWIndex.deleteVector
    split <;> exact ⟨rfl, rfl⟩
  exact ⟨h.toAligned.deleteVector id, hkeep.1.trans h.dim_eq, hkeep.2.trans h.cfg_eq⟩

/-- What a step of a call does to the table is what the operation that it writes does. -/
theorem Call.Sized.step (hc : c.Sized dim) (hs : TableOk dim cfg s) (hits : List (σ × UInt64)) :
    let s' := (Machine.callStep rt s hits c).1
    TableOk dim cfg s' ∧ s'.slots = ((c.op : Option (Op dim)).toList).foldl stepSlots s.slots ∧
      ∀ c', (Machine.callStep rt s hits c).2.1 = some c' → c'.Sized dim := by
  cases c with
  | insert f =>
    have hnext : ∀ c', (Machine.callStep rt s hits (.insert f)).2.1 = some c' → c'.Sized dim := by
      intro c' h
      obtain ⟨f', hf', rfl⟩ := Option.map_eq_some_iff.mp h
      exact (congrArg List.length (InsertFrame.step_args rt hf').1).trans hc
    by_cases hap : f.pc = .append
    · have hvec : f.vec.length = s.dim := hc.trans hs.dim_eq.symm
      have hstep : (Machine.callStep rt s hits (.insert f)).1 = s.append f.id f.vec f.metadata f.level := by
        simp only [Machine.callStep, InsertFrame.step, hap]
      have hop : (Call.insert f).op = some (Op.insert f.id ⟨f.vec, hc⟩ f.metadata f.level) := by
        unfold Call.op InsertFrame.op
        dsimp only
        rw [hap]
        exact dif_pos hc
      refine ⟨?_, ?_, hnext⟩
      · rw [hstep]
        exact ⟨hs.toAligned.append f.id hvec f.metadata f.level, hs.dim_eq, hs.cfg_eq⟩
      · rw [hstep, hop]
        exact hs.toAligned.slots_append f.id hvec f.metadata f.level
    · have htable : SameTable s (f.step rt s).1 := InsertFrame.step_table rt hap
      refine ⟨hs.same htable, ?_, hnext⟩
      rw [op_of_pc hap]
      exact htable.slots_eq
  | search f =>
    unfold Machine.callStep
    dsimp only
    split
    · exact ⟨hs, rfl, fun c' h => Option.some.inj h ▸ trivial⟩
    · exact ⟨hs, rfl, fun c' h => absurd h.symm (Option.some_ne_none c')⟩
  | delete id =>
    exact ⟨hs.deleteVector id, hs.toAligned.slots_deleteVector id, fun c' h => absurd h.symm (Option.some_ne_none c')⟩

end Step

/-- The table is in order, and the inserts in progress have vectors that fit it. -/
structure Tabled (dim : Nat) (cfg : HNSWConfig) (m : Machine σ) : Prop where
  index : TableOk dim cfg m.index
  calls : ∀ t c, (m.threads t).call = some c → c.Sized dim

namespace Tabled

variable (rt : Runtime σ) {m : Machine σ} {cfg : HNSWConfig}

omit [LinearOrder σ] in
theorem initial (dim : Nat) (cfg : HNSWConfig) : Tabled dim cfg (Machine.new dim cfg : Machine σ) :=
  ⟨tableOk_new dim cfg, nofun⟩

omit [LinearOrder σ] in
theorem sized_of_call {a : Action dim} {c : Call σ} (h : a.call? = some c) : c.Sized dim := by
  cases a with
  | insert id vec metadata level => exact Option.some.inj h ▸ vec.2
  | search query k => exact Option.some.inj h ▸ trivial
  | delete id => exact Option.some.inj h ▸ trivial
  | step => contradiction

theorem next (h : Tabled dim cfg m) (e : Nat × Action dim) : Tabled dim cfg (m.next rt e) := by
  obtain ⟨hindex, hcalls⟩ := Machine.next_holds rt (I := TableOk dim cfg) (C := fun _ c => c.Sized dim)
    h.index h.calls (fun c => sized_of_call) fun c hits hc => by
      obtain ⟨hs, -, hnext⟩ := hc.step rt h.index hits
      exact ⟨hs, hnext, fun _ hd => hd⟩
  exact ⟨hindex, hcalls⟩

/-- A step of the machine does to the table what the operation that it writes does. -/
theorem slots_next (h : Tabled dim cfg m) (e : Nat × Action dim) :
    (m.next rt e).index.slots = ((m.writes e).map Prod.snd).foldl stepSlots m.index.slots := by
  rcases m.next_cases rt e with ⟨hsame, hidle⟩ | ⟨c, hidle, -, hnext⟩ | ⟨c, hcall, hstep, hnext⟩
  · rw [hsame, Machine.writes_eq_nil hidle]
    rfl
  · rw [hnext, Machine.writes_eq_nil fun _ => hidle]
    rfl
  · rw [hnext, Machine.writes_step hcall hstep]
    refine ((h.calls e.1 c hcall).step rt h.index (m.threads e.1).hits).2.1.trans ?_
    cases (c.op : Option (Op dim)) <;> rfl

end Tabled

/-! ### Whole runs -/

section Run

variable (rt : Runtime σ)

/-- What one thread holds, begins and writes at one step of the machine. -/
theorem held_next (t : Nat) (m : Machine σ) (e : Nat × Action dim) :
    (m.writes e).filter (·.1 = t) ++ (m.next rt e).held t = m.held t ++ (m.begins e).filter (·.1 = t) := by
  have htag : ∀ o : Option (Op dim), (o.map (e.1, ·)).toList.filter (·.1 = t) =
      if e.1 = t then (o.map (e.1, ·)).toList else [] := by
    intro o
    split_ifs with ht <;> cases o <;> simp [ht]
  rcases m.next_cases rt e with ⟨hsame, hidle⟩ | ⟨c, hidle, hc, hnext⟩ | ⟨c, hcall, hstep, hnext⟩
  · rw [hsame, Machine.writes_eq_nil hidle]
    cases hcall : (m.threads e.1).call with
    | some c => simp [Machine.begins_of_call hcall]
    | none =>
      cases hc : (e.2.call? : Option (Call σ)) with
      | none => simp [Machine.begins_of_idle hcall, hc]
      | some c =>
        -- the call would have begun
        have hbegun := (Machine.next_begin rt hcall hc).symm.trans hsame
        have hsome := congrArg (fun m : Machine σ => (m.threads e.1).call) hbegun
        dsimp only at hsome
        rw [Machine.setThread_self, hcall] at hsome
        contradiction
  · rw [hnext, Machine.writes_eq_nil fun _ => hidle, Machine.begins_of_idle hidle, hc, htag]
    by_cases ht : e.1 = t
    · subst ht
      simp [Machine.held, Machine.setThread_self, hidle]
    · simp [Machine.held, Machine.setThread_other _ (Ne.symm ht), ht]
  · rw [hnext, Machine.writes_step hcall hstep, Machine.begins_of_call hcall, htag]
    by_cases ht : e.1 = t
    · subst ht
      have hnone : (Machine.callStep rt m.index (m.threads e.1).hits c).2.1.bind Call.op =
          (none : Option (Op dim)) := by
        cases hc' : (Machine.callStep rt m.index (m.threads e.1).hits c).2.1 with
        | none => rfl
        | some c' => exact op_callStep rt hc'
      simp [Machine.held, Machine.setThread_self, hcall, hnone]
    · simp [Machine.held, Machine.setThread_other _ (Ne.symm ht), ht]

/-- Each thread's operations are written in the order in which it begins them, and the last may still
have to be written. -/
theorem written_thread (cfg : HNSWConfig) (es : List (Nat × Action dim)) (t : Nat) :
    (Machine.written rt cfg es).filter (·.1 = t) ++ (Machine.run rt cfg es).held t =
      (Machine.begun rt cfg es).filter (·.1 = t) := by
  unfold Machine.written Machine.begun
  rw [emitted_filter, emitted_filter]
  let held (m : Machine σ) : List (Nat × Op dim) := m.held t
  exact emitted_held (show ∀ m e, _ ++ held (Machine.next rt m e) = held m ++ _ from held_next rt t) _ es

/-- Once no thread is in a call, what has been begun has been written. -/
theorem written_perm (cfg : HNSWConfig) (es : List (Nat × Action dim))
    (hidle : ∀ t, ((Machine.run rt cfg es).threads t).call = none) :
    (Machine.written rt cfg es).Perm (Machine.begun rt cfg es) := by
  refine perm_of_filter Prod.fst fun t => ?_
  have hthread := written_thread rt cfg es t
  have hheld : ((Machine.run rt cfg es).held t : List (Nat × Op dim)) = [] := by simp [Machine.held, hidle t]
  rwa [hheld, List.append_nil] at hthread

theorem tabled_run (cfg : HNSWConfig) (es : List (Nat × Action dim)) : Tabled dim cfg (Machine.run rt cfg es) :=
  invariant_run (fun _ e h _ => h.next rt e) (Tabled.initial dim cfg) (along_true _ es)

/-- The table at any moment is that of the sequential history that has been written. -/
theorem slots_written (cfg : HNSWConfig) (es : List (Nat × Action dim)) :
    (Machine.run rt cfg es).index.slots = runSlots ((Machine.written rt cfg es).map Prod.snd) := by
  have hfold := fold_emitted (fun m : Machine σ => m.index.slots) (fun _ e h => Tabled.next rt h e)
    (fun _ e h => (Tabled.slots_next rt h e).trans List.foldl_map) (Tabled.initial dim cfg) es
  rw [runSlots, List.foldl_map]
  exact hfold

/-- At every moment of every run in which no append outgrows a buffer in use, or the ids, no step is undefined and
the table, and what `size`, `live_size` and `is_deleted` make of it, is
that of a sequential run of the writing regions in their order. Each thread's operations stand there in
the order in which it began them, up to one that it still has to write, and what stands there stays. -/
theorem table_linearizes (cfg : HNSWConfig) (es : List (Nat × Action dim))
    (hroom : Along (Machine.next rt) KeepsRoom (Machine.new dim cfg) es)
    (hids : Along (Machine.next rt) KeepsIds (Machine.new dim cfg) es) :
    let m := Machine.run rt cfg es
    let log := Machine.written rt cfg es
    let s := HNSWIndex.run rt cfg (log.map Prod.snd)
    Machine.checkedRun rt cfg es = some m ∧
    (m.index.slots = s.slots ∧ m.index.size = s.size ∧ m.index.liveSize = s.liveSize ∧
      ∀ id, m.index.isDeleted id = s.isDeleted id) ∧
    (∀ t, log.filter (·.1 = t) ++ m.held t = (Machine.begun rt cfg es).filter (·.1 = t)) ∧
    ∀ past, past <+: es → Machine.written rt cfg past <+: log := by
  intro m log s
  have hm : m.index.Aligned := (tabled_run rt cfg es).index.toAligned
  obtain ⟨hs, hslots⟩ := aligned_run rt cfg (log.map Prod.snd)
  have htable : m.index.slots = s.slots := (slots_written rt cfg es).trans hslots.symm
  refine ⟨checkedRun_eq rt cfg hroom hids, ⟨htable, ?_, ?_, fun id => ?_⟩, written_thread rt cfg es,
    fun past => emitted_prefix _ _ _⟩
  · exact (slots_length _).symm.trans ((congrArg List.length htable).trans (slots_length _))
  · rw [hm.liveSize_slots, hs.liveSize_slots, htable]
  · rw [hm.isDeleted_eq, hs.isDeleted_eq, htable]

/-- The second insert begins before the first has returned, and the deletion is written between the two. -/
theorem table_linearizes_two :
    let es : List (Nat × Action 1) :=
      [(0, .insert 7 ⟨[3], rfl⟩ [] 0), (1, .insert 8 ⟨[5], rfl⟩ [] 0), (0, .step), (2, .delete 7), (2, .step), (1, .step)]
    Machine.checkedRun .sample {} es = some (Machine.run .sample {} es) ∧ (Machine.run .sample {} es).index.liveSize = 1 := by
  intro es
  have hkeeps : Along (Machine.next .sample) KeepsRoom (Machine.new 1 {}) es ∧
      Along (Machine.next .sample) KeepsIds (Machine.new 1 {}) es :=
    along_keeps .sample {} (k := 3) (by decide) (by decide +kernel)
  obtain ⟨hdefined, ⟨-, -, hlive, -⟩, -⟩ := table_linearizes .sample {} es hkeeps.1 hkeeps.2
  exact ⟨hdefined, hlive.trans (by decide +kernel)⟩

end Run

end Concurrent

end NeuralDb
