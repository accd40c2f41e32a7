import NeuralDb.Persist.Recovery

/-! Crashes inside `compact`. The index file is overwritten in place, and between `save` and
`checkpoint` the old log is replayed over an index that already contains its effects. -/

namespace NeuralDb

open Library

variable {dim : Nat}

/-! ### Replaying a log twice, id by id -/

/-- What a call does to the slots of one id. -/
def stepCopies (x : UInt64) (c : List VectorSlot) : Op dim → List VectorSlot
  | .insert id vec metadata _ => if id = x then c ++ [⟨id, metadata, vec, false⟩] else c
  | .delete id => if id = x then c.modifyHead tombstoned else c

theorem stepCopies_ne {x : UInt64} {op : Op dim} (h : op.id ≠ x) (c : List VectorSlot) :
    stepCopies x c op = c := by
  cases op <;> exact if_neg h

theorem copies_foldl (x : UInt64) (ops : List (Op dim)) (vs : List VectorSlot) :
    copies x (ops.foldl stepSlots vs) = ops.foldl (stepCopies x) (copies x vs) := by
  induction ops generalizing vs with
  | nil => rfl
  | cons op ops ih =>
    rw [List.foldl_cons, List.foldl_cons, ih]
    congr 1
    by_cases hid : op.id = x
    · cases op with
      | insert id vec metadata level =>
        obtain rfl : id = x := hid
        rw [copies_insert, stepCopies, if_pos rfl]
      | delete id =>
        obtain rfl : id = x := hid
        rw [copies_delete, stepCopies, if_pos rfl]
    · rw [copies_step_ne hid, stepCopies_ne hid]

theorem live_perm_iff (vs ws : List VectorSlot) :
    (live vs).Perm (live ws) ↔ ∀ x, (live (copies x vs)).Perm (live (copies x ws)) := by
  have hfilter : ∀ (x : UInt64) (us : List VectorSlot),
      live (copies x us) = (live us).filter fun e => e.1 == x := by
    intro x us
    simp only [live, liveSlots, copies, List.filter_map, List.filter_filter, Function.comp_def,
      VectorSlot.entry, Bool.and_comm]
  constructor
  · intro h x
    rw [hfilter, hfilter]
    exact h.filter _
  · intro h
    rw [List.perm_iff_count]
    intro e
    have hx := (List.perm_iff_count.mp (h e.1)) e
    rw [hfilter, hfilter] at hx
    rwa [List.count_filter (by simp), List.count_filter (by simp)] at hx

/-- Without an insert of the id, its deletions mark the first slot and nothing else happens. -/
theorem foldl_stepCopies {x : UInt64} {ops : List (Op dim)} (h : inserts x ops = 0) (c : List VectorSlot) :
    (.delete x ∈ ops → ops.foldl (stepCopies x) c = c.modifyHead tombstoned) ∧
      (.delete x ∉ ops → ops.foldl (stepCopies x) c = c) := by
  induction ops generalizing c with
  | nil => exact ⟨fun hdel => absurd hdel List.not_mem_nil, fun _ => rfl⟩
  | cons op ops ih =>
    have hcount := List.countP_eq_zero.mp h
    have hrest : inserts x ops = 0 :=
      List.countP_eq_zero.mpr fun op' hop => hcount op' (List.mem_cons_of_mem op hop)
    rw [List.foldl_cons]
    by_cases hid : op.id = x
    · cases op with
      | insert id vec metadata level => exact absurd (hcount _ List.mem_cons_self) (by simp [Op.isInsert, hid])
      | delete id =>
        obtain rfl : id = x := hid
        refine ⟨fun _ => ?_, fun hnot => absurd List.mem_cons_self hnot⟩
        obtain ⟨hdel, hnot⟩ := ih hrest (c.modifyHead tombstoned)
        rw [stepCopies, if_pos rfl]
        by_cases hmem : Op.delete id ∈ ops
        · rw [hdel hmem]
          cases c <;> rfl
        · exact hnot hmem
    · have hmem : Op.delete x ∈ op :: ops ↔ Op.delete x ∈ ops := by
        rw [List.mem_cons]
        exact or_iff_right fun heq => hid (heq ▸ rfl)
      rw [stepCopies_ne hid, hmem]
      exact ih hrest c

theorem live_modifyHead {c : List VectorSlot} (h : c.length ≤ 1) : live (c.modifyHead tombstoned) = [] := by
  match c with
  | [] => rfl
  | [v] => rfl
  | _ :: _ :: _ => simp at h

theorem live_length_of_live {c : List VectorSlot} (h : ∀ v ∈ c, v.deleted = false) :
    (live c).length = c.length := by
  rw [live, List.length_map, liveSlots, List.filter_eq_self.mpr]
  exact fun v hv => by simp [h v hv]

theorem foldl_stepCopies_nil {x : UInt64} {ops : List (Op dim)} (h : inserts x ops = 0) :
    ops.foldl (stepCopies x) [] = [] := by
  by_cases hdel : Op.delete x ∈ ops
  · exact (foldl_stepCopies h []).1 hdel
  · exact (foldl_stepCopies h []).2 hdel

theorem exists_only_insert {x : UInt64} {ops : List (Op dim)} (h : inserts x ops = 1) :
    ∃ pre vec metadata level post, ops = pre ++ .insert x vec metadata level :: post ∧
      inserts x pre = 0 ∧ inserts x post = 0 := by
  obtain ⟨op, hop, hins⟩ := List.countP_pos_iff.mp (h ▸ Nat.one_pos)
  obtain ⟨pre, post, rfl⟩ := List.append_of_mem hop
  have hcount : inserts x pre + (inserts x post + 1) = 1 := by
    rw [inserts, List.countP_append, List.countP_cons, if_pos hins] at h
    exact h
  cases op with
  | delete id => exact absurd hins (by simp [Op.isInsert])
  | insert id vec metadata level =>
    obtain rfl : id = x := by simpa [Op.isInsert, Op.id] using hins
    exact ⟨pre, vec, metadata, level, post, rfl, by omega, by omega⟩

/-- A log that does not insert the id changes nothing when it is replayed again. -/
theorem live_twice_of_no_insert {x : UInt64} {ops : List (Op dim)} {cB cF : List VectorSlot}
    (h0 : inserts x ops = 0) (hB : cB.length ≤ 1) (hF : ∀ v ∈ cF, v.deleted = false)
    (hperm : (live cF).Perm (live (ops.foldl (stepCopies x) cB))) :
    (live (ops.foldl (stepCopies x) cF)).Perm (live (ops.foldl (stepCopies x) cB)) := by
  by_cases hdel : Op.delete x ∈ ops
  · have hnil : live (ops.foldl (stepCopies x) cB) = [] := by
      rw [(foldl_stepCopies h0 cB).1 hdel]
      exact live_modifyHead hB
    rw [hnil, List.perm_nil] at hperm ⊢
    have hlen := live_length_of_live hF
    rw [hperm] at hlen
    rw [(foldl_stepCopies h0 cF).1 hdel]
    exact live_modifyHead (hlen ▸ Nat.zero_le 1)
  · rw [(foldl_stepCopies h0 cF).2 hdel]
    exact hperm

/-- The slots `cF` of an id are what the log left live of `cB`; replaying the log on them as well gives
the same live entries exactly when the log also deletes the id it inserts. -/
theorem live_twice_iff {x : UInt64} {ops : List (Op dim)} {cB cF : List VectorSlot}
    (honce : cB.length + inserts x ops ≤ 1) (hF : ∀ v ∈ cF, v.deleted = false)
    (hperm : (live cF).Perm (live (ops.foldl (stepCopies x) cB))) :
    (live (ops.foldl (stepCopies x) cF)).Perm (live (ops.foldl (stepCopies x) cB)) ↔
      (0 < inserts x ops → .delete x ∈ ops) := by
  rcases Nat.eq_zero_or_pos (inserts x ops) with h0 | hpos
  · exact iff_of_true (live_twice_of_no_insert h0 (by omega) hF hperm) fun h => absurd h (by omega)
  · have hlen := live_length_of_live hF
    have hB : cB = [] := List.eq_nil_of_length_eq_zero (by omega)
    have hone : inserts x ops = 1 := by omega
    subst hB
    obtain ⟨pre, vec, metadata, level, post, rfl, hpre, hpost⟩ := exists_only_insert hone
    let t : VectorSlot := ⟨x, metadata, vec, false⟩
    have hrun : ∀ c, (pre ++ Op.insert x vec metadata level :: post).foldl (stepCopies x) c =
        post.foldl (stepCopies x) (pre.foldl (stepCopies x) c ++ [t]) := by
      intro c
      rw [List.foldl_append, List.foldl_cons, stepCopies, if_pos rfl]
    have hnil : pre.foldl (stepCopies x) [] = [] := foldl_stepCopies_nil hpre
    have hmem : Op.delete x ∈ pre ++ Op.insert x vec metadata level :: post ↔
        Op.delete x ∈ pre ∨ Op.delete x ∈ post := by simp
    rw [hrun, hnil] at hperm
    rw [hrun, hrun, hnil, hmem]
    by_cases hdpost : Op.delete x ∈ post
    · -- deleted after the insert: nothing is live either time
      refine iff_of_true ?_ fun _ => .inr hdpost
      have hgone : live (post.foldl (stepCopies x) ([] ++ [t])) = [] := by
        rw [(foldl_stepCopies hpost _).1 hdpost]
        rfl
      rw [hgone, List.perm_nil] at hperm
      have hcF : cF = [] := List.eq_nil_of_length_eq_zero (by rw [← hlen, hperm]; rfl)
      rw [hcF, hnil]
    · rw [(foldl_stepCopies hpost _).2 hdpost] at hperm ⊢
      rw [(foldl_stepCopies hpost _).2 hdpost]
      obtain ⟨u, rfl⟩ := List.length_eq_one_iff.mp (hlen ▸ hperm.length_eq : cF.length = 1)
      by_cases hdpre : Op.delete x ∈ pre
      · -- deleted before the insert: the second replay removes the first copy and adds it again
        refine iff_of_true ?_ fun _ => .inl hdpre
        rw [(foldl_stepCopies hpre _).1 hdpre]
        exact List.Perm.refl _
      · -- never deleted: the second replay leaves two copies where the first left one
        refine iff_of_false (fun hp => ?_) fun hall => ?_
        · rw [(foldl_stepCopies hpre _).2 hdpre] at hp
          have htwo := hp.length_eq
          rw [live_append, List.length_append, hlen] at htwo
          simp [live, liveSlots, t] at htwo
        · exact (hall hpos).elim hdpre hdpost

/-! ### Crash points -/

/-- Where a crash can hit `compact`: when `n` bytes of the index file have been written, between
`save` and `checkpoint`, or after it. -/
inductive CrashPoint where
  | saving (n : Nat)
  | saved
  | checkpointed

def WalCall.insertedId : WalCall → Option UInt64
  | .insert id _ _ => some id
  | .delete _ => none

namespace HNSWIndex

variable {σ : Type} [LinearOrder σ] (rt : Runtime σ)

/-- The files that the crash leaves. -/
def crash (s : HNSWIndex) (levels : Nat → Level) (disk : Disk) : CrashPoint → Disk
  | .saving n => { disk with index := some ((s.compacted rt levels).save.take n) }
  | .saved => ⟨some (s.compacted rt levels).save, some (WAL.new disk.wal).1⟩
  | .checkpointed => s.compact rt levels disk

/-- Recovery from the files gives the live entries of the index in memory, each as often. -/
def Recovers (s : HNSWIndex) (disk : Disk) : Prop :=
  ∀ cfg path junk levels, ∃ r, recover rt s.dim cfg path junk levels disk = .ok r ∧
    (live r.slots).Perm (live s.slots)

/-- The files belong to the index in memory, and no id was inserted twice. -/
structure Matches (s : HNSWIndex) (disk : Disk) : Prop where
  recovers : Recovers rt s disk
  index_dim : ∀ cfg path junk base, loadNew s.dim cfg path junk disk = .ok base → base.dim = s.dim
  log_dim : ∀ id vec metadata, .insert id vec metadata ∈ logCalls disk.wal → vec.length = s.dim
  once : ∀ cfg path junk base, loadNew s.dim cfg path junk disk = .ok base →
    (base.idMap ++ (logCalls disk.wal).filterMap WalCall.insertedId).Nodup

/-- What `size_t` and the file format promise about an index. -/
structure Sized (s : HNSWIndex) : Prop extends Aligned s where
  dim_lt : s.dim < 2 ^ 32
  num_lt : s.numVectors < 2 ^ 64
  metadata_lt : ∀ v ∈ s.slots, v.metadata.length < 2 ^ 32

theorem exists_ops {cs : List WalCall}
    (h : ∀ id vec metadata, .insert id vec metadata ∈ cs → vec.length = dim) :
    ∃ ops : List (Op dim), ops.map Op.call = cs := by
  induction cs with
  | nil => exact ⟨[], rfl⟩
  | cons c cs ih =>
    obtain ⟨ops, rfl⟩ := ih fun id vec metadata hmem => h id vec metadata (List.mem_cons_of_mem c hmem)
    cases c with
    | insert id vec metadata =>
      exact ⟨.insert id ⟨vec, h id vec metadata List.mem_cons_self⟩ metadata 0 :: ops, rfl⟩
    | delete id => exact ⟨.delete id :: ops, rfl⟩

theorem inserts_pos_iff (x : UInt64) (ops : List (Op dim)) :
    0 < inserts x ops ↔ ∃ vec metadata, .insert x vec metadata ∈ ops.map Op.call := by
  rw [inserts, List.countP_pos_iff]
  constructor
  · rintro ⟨op, hop, hx⟩
    cases op with
    | insert id vec metadata level =>
      obtain rfl : id = x := by simpa [Op.isInsert, Op.id] using hx
      exact ⟨vec, metadata, List.mem_map.mpr ⟨_, hop, rfl⟩⟩
    | delete id => simp [Op.isInsert] at hx
  · rintro ⟨vec, metadata, hmem⟩
    obtain ⟨op, hop, heq⟩ := List.mem_map.mp hmem
    cases op with
    | insert id vec' metadata' level =>
      obtain ⟨rfl, -, -⟩ := WalCall.insert.inj heq
      exact ⟨_, hop, by simp [Op.isInsert, Op.id]⟩
    | delete id => cases heq

theorem delete_mem_iff (x : UInt64) (ops : List (Op dim)) : Op.delete x ∈ ops ↔ .delete x ∈ ops.map Op.call := by
  rw [List.mem_map]
  constructor
  · exact fun hop => ⟨_, hop, rfl⟩
  · rintro ⟨op, hop, heq⟩
    cases op with
    | insert id vec metadata level => cases heq
    | delete id => exact WalCall.delete.inj heq ▸ hop

theorem inserts_eq_count (x : UInt64) (ops : List (Op dim)) :
    inserts x ops = ((ops.map Op.call).filterMap WalCall.insertedId).count x := by
  induction ops with
  | nil => rfl
  | cons op ops ih =>
    rw [inserts, List.countP_cons, ← inserts, ih, List.map_cons]
    cases op with
    | insert id vec metadata level => exact List.count_cons.symm
    | delete id => rfl

theorem loadNew_aligned {dim : Nat} {cfg : HNSWConfig} {path : String} {junk : Nat → UInt8} {disk : Disk}
    {base : HNSWIndex} (h : loadNew dim cfg path junk disk = .ok base) : base.Aligned := by
  unfold loadNew at h
  split_ifs at h
  · exact Except.ok.inj h ▸ aligned_new dim cfg
  · exact load_aligned h

/-- Files that recover load into an index in order on which the log acts call by call. -/
theorem Matches.base {s : HNSWIndex} {disk : Disk} (h : Matches rt s disk) :
    ∃ (vs : List VectorSlot) (ops : List (Op s.dim)), logCalls disk.wal = ops.map Op.call ∧
      (∀ x, (copies x vs).length + inserts x ops ≤ 1) ∧
      (live (ops.foldl stepSlots vs)).Perm (live s.slots) := by
  let junk : Nat → UInt8 := fun _ => 0
  let levels : Nat → Level := fun _ => 0
  obtain ⟨ops, hops⟩ := exists_ops h.log_dim
  obtain ⟨r, hr, hperm⟩ := h.recovers s.cfg "" junk levels
  cases hload : loadNew s.dim s.cfg "" junk disk with
  | error e =>
    rw [recover, hload] at hr
    exact absurd hr (by simp [bind, Except.bind])
  | ok base =>
    have halign := loadNew_aligned hload
    obtain ⟨r', m, hreplay, -, -, hslots⟩ := replay_ops rt levels ops halign (h.index_dim _ _ _ _ hload) 0
    rw [recover_of_load rt hload, ← hops, hreplay] at hr
    obtain rfl : r' = r := Except.ok.inj hr
    refine ⟨base.slots, ops, hops.symm, fun x => ?_, hslots ▸ hperm⟩
    have honce := List.nodup_iff_count_le_one.mp (h.once _ _ _ _ hload) x
    have hcopies : (copies x base.slots).length = base.idMap.count x := by
      rw [← halign.slots_map_id, List.count_eq_countP, List.countP_map, List.countP_eq_length_filter]
      rfl
    rw [List.count_append, ← hops, ← inserts_eq_count] at honce
    rwa [hcopies]

/-- The first bytes of the file alone do not make the magic number, so `load` may reject them. -/
theorem load_torn_magic (r s : HNSWIndex) (path : String) {n : Nat} (hn : n < 4) :
    load r path (some (s.save.take n)) (fun _ => 0) = .error "Bad magic" := by
  have htake : s.save.take n = (leBytes 4 magic).take n := by
    rw [save, saveHeader, List.append_assoc]
    exact List.take_append_of_le_length (by rw [leBytes_length]; omega)
  have hcases : n = 0 ∨ n = 1 ∨ n = 2 ∨ n = 3 := by omega
  rw [htake]
  rcases hcases with rfl | rfl | rfl | rfl <;> rfl

theorem not_recovers_saving (s : HNSWIndex) (levels : Nat → Level) (disk : Disk) {n : Nat} (hn : n < 4) :
    ¬ Recovers rt s (crash rt s levels disk (.saving n)) := by
  intro h
  obtain ⟨r, hr, -⟩ := h s.cfg "" (fun _ => 0) levels
  have hload : loadNew s.dim s.cfg "" (fun _ => 0) (crash rt s levels disk (.saving n)) =
      .error "Bad magic" := load_torn_magic _ _ "" hn
  rw [recover, hload] at hr
  exact absurd hr (by simp [bind, Except.bind])

/-- What is recovered depends neither on the levels that are drawn nor on the indeterminate bytes. -/
theorem recovers_iff {s : HNSWIndex} {disk : Disk} {vs : List VectorSlot} (h : Loads s.dim disk vs)
    (ops : List (Op s.dim)) (hlog : logCalls disk.wal = ops.map Op.call) :
    Recovers rt s disk ↔ (live (ops.foldl stepSlots vs)).Perm (live s.slots) := by
  constructor
  · intro hr
    obtain ⟨r, hr, hperm⟩ := hr s.cfg "" (fun _ => 0) fun _ => 0
    obtain ⟨r', hr', hslots⟩ := recover_ops rt h ops hlog s.cfg "" (fun _ => 0) fun _ => 0
    obtain rfl : r' = r := Except.ok.inj (hr'.symm.trans hr)
    exact hslots ▸ hperm
  · intro hperm cfg path junk levels
    obtain ⟨r, hr, hslots⟩ := recover_ops rt h ops hlog cfg path junk levels
    exact ⟨r, hr, hslots ▸ hperm⟩

theorem recovers_checkpointed {s : HNSWIndex} (hs : s.Sized) (levels : Nat → Level) (disk : Disk) :
    Recovers rt s (crash rt s levels disk .checkpointed) := by
  have hload := loads_compacted rt hs.toAligned levels hs.dim_lt hs.num_lt hs.metadata_lt (some [])
  apply (recovers_iff rt hload [] (logCalls_of_none rfl)).mpr
  rw [List.foldl_nil, live_liveSlots]

/-- Between `save` and `checkpoint` the files recover exactly when the old log deletes every id that
it inserts. -/
theorem recovers_saved_iff {s : HNSWIndex} (hs : s.Sized) (levels : Nat → Level) {disk : Disk}
    (h : Matches rt s disk) :
    Recovers rt s (crash rt s levels disk .saved) ↔
      ∀ id vec metadata, .insert id vec metadata ∈ logCalls disk.wal → .delete id ∈ logCalls disk.wal := by
  obtain ⟨vs, ops, hlog, honce, hbase⟩ := h.base
  have hwal : logCalls (crash rt s levels disk .saved).wal = ops.map Op.call := by
    rw [← hlog]
    cases hw : disk.wal with
    | none => simp only [crash, WAL.new, hw, Option.getD_none]; exact logCalls_of_none rfl
    | some bs => simp only [crash, WAL.new, hw, Option.getD_some]
  have hload := loads_compacted rt hs.toAligned levels hs.dim_lt hs.num_lt hs.metadata_lt
    (some (WAL.new disk.wal).1)
  have hF : live (liveSlots s.slots) = live s.slots := live_liveSlots s.slots
  have hcond : (∀ id vec metadata, .insert id vec metadata ∈ logCalls disk.wal →
      .delete id ∈ logCalls disk.wal) ↔ ∀ x, 0 < inserts x ops → Op.delete x ∈ ops := by
    rw [hlog]
    refine forall_congr' fun x => ?_
    rw [inserts_pos_iff, delete_mem_iff]
    simp only [forall_exists_index]
  have hid : ∀ x, (live (copies x (ops.foldl stepSlots (liveSlots s.slots)))).Perm
      (live (copies x (ops.foldl stepSlots vs))) ↔ (0 < inserts x ops → Op.delete x ∈ ops) := by
    intro x
    have hlive : ∀ v ∈ copies x (liveSlots s.slots), v.deleted = false := by
      intro v hv
      simpa using (List.mem_filter.mp (List.mem_of_mem_filter hv)).2
    have hperm := (live_perm_iff _ _).mp (hF ▸ hbase.symm) x
    rw [copies_foldl] at hperm
    rw [copies_foldl, copies_foldl]
    exact live_twice_iff (honce x) hlive hperm
  refine (recovers_iff rt hload ops hwal).trans ?_
  rw [hcond, ← forall_congr' hid, ← live_perm_iff]
  exact ⟨fun hp => hp.trans hbase.symm, fun hp => hp.trans hbase⟩

/-- No index and no files make `compact` crash-atomic: a torn index file is not loaded. Between `save`
and `checkpoint` an insert of the log that the log does not delete is duplicated, and only that.
After the checkpoint the files recover. -/
theorem compact_crash (s : HNSWIndex) (levels : Nat → Level) (disk : Disk) :
    (¬ ∀ p, Recovers rt s (crash rt s levels disk p)) ∧
      (∀ n < 4, ¬ Recovers rt s (crash rt s levels disk (.saving n))) ∧
      (s.Sized → Recovers rt s (crash rt s levels disk .checkpointed)) ∧
      (s.Sized → Matches rt s disk → (Recovers rt s (crash rt s levels disk .saved) ↔
        ∀ id vec metadata, .insert id vec metadata ∈ logCalls disk.wal →
          .delete id ∈ logCalls disk.wal)) :=
  ⟨fun h => not_recovers_saving rt s levels disk (by decide : 0 < 4) (h (.saving 0)),
    fun _ hn => not_recovers_saving rt s levels disk hn,
    fun hs => recovers_checkpointed rt hs levels disk,
    fun hs h => recovers_saved_iff rt hs levels h⟩

/-- The live entries that recovery shows, or its error. -/
def recovered (dim : Nat) (disk : Disk) : Except String (List Entry) :=
  (recover rt dim {} "index" (fun _ => 0) (fun _ => 0) disk).map fun r => live r.slots

theorem recovered_eq {disk : Disk} {vs : List VectorSlot} (h : Loads dim disk vs) (ops : List (Op dim))
    (hlog : logCalls disk.wal = ops.map Op.call) :
    recovered rt dim disk = .ok (live (ops.foldl stepSlots vs)) := by
  obtain ⟨r, hr, hslots⟩ := recover_ops rt h ops hlog {} "index" (fun _ => 0) (fun _ => 0)
  rw [recovered, hr, ← hslots]
  rfl

/-- One vector in the log and no index file: before `compact` the files recover, a crash behind `save`
doubles the vector, and a crash right after the index file was opened loses it. -/
theorem compact_crash_one :
    let s := run .sample {} [(.insert 7 ⟨[3], rfl⟩ [] 0 : Op 1)]
    let disk : Disk := ⟨none, some (WalCall.bytes (.insert 7 [3] []))⟩
    live s.slots = [(7, [3], [])] ∧ recovered .sample 1 disk = .ok [(7, [3], [])] ∧
      recovered .sample 1 (crash .sample s (fun _ => 0) disk .saved) =
        .ok [(7, [3], []), (7, [3], [])] ∧
      recovered .sample 1 (crash .sample s (fun _ => 0) disk (.saving 0)) = .error "Bad magic" := by
  intro s disk
  let ops : List (Op 1) := [.insert 7 ⟨[3], rfl⟩ [] 0]
  obtain ⟨halign, hslots⟩ := aligned_run .sample {} ops
  have hslots : s.slots = [⟨7, [], [3], false⟩] := hslots
  have hlog : logCalls disk.wal = ops.map Op.call := by decide
  have hmeta : ∀ v ∈ s.slots, v.metadata.length < 2 ^ 32 := by
    rw [hslots]
    decide
  have hload := loads_compacted .sample (s := s) halign (fun _ => 0) (by decide) (by decide) hmeta
    (some (WAL.new disk.wal).1)
  rw [hslots] at hload
  refine ⟨by rw [hslots]; rfl, recovered_eq .sample (loads_absent _) ops hlog,
    recovered_eq .sample hload ops hlog, ?_⟩
  have htorn : loadNew 1 {} "index" (fun _ => 0) (crash .sample s (fun _ => 0) disk (.saving 0)) =
      .error "Bad magic" := load_torn_magic _ _ "index" (by decide)
  rw [recovered, recover, htorn]
  rfl

end HNSWIndex

end NeuralDb
