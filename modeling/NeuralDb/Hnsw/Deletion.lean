import NeuralDb.Hnsw.Search

/-! What deletion leaves live. Ids may repeat, and `delete_vector` always marks the first slot of its
id, so the second and later slots of an id stay live for ever. -/

namespace NeuralDb

variable {dim : Nat}

/-- The last call about `x` is `delete_vector(x)`. -/
def DeletedLast (x : UInt64) (ops : List (Op dim)) : Prop :=
  ∃ pre post, ops = pre ++ .delete x :: post ∧ ∀ op ∈ post, op.id ≠ x

/-- How often `x` was inserted. -/
def inserts (x : UInt64) (ops : List (Op dim)) : Nat := ops.countP fun op => op.isInsert && op.id == x

theorem copies_step_ne {x : UInt64} {op : Op dim} (h : op.id ≠ x) (vs : List VectorSlot) :
    copies x (stepSlots vs op) = copies x vs := by
  cases op with
  | insert id vec metadata level =>
    have hid : (id == x) = false := beq_eq_false_iff_ne.mpr h
    simp [stepSlots, copies, hid]
  | delete id => exact copies_markFirst_ne h vs

theorem copies_insert (x : UInt64) (vec : VecOf dim) (metadata : Bytes) (level : Nat)
    (vs : List VectorSlot) :
    copies x (stepSlots vs (.insert x vec metadata level)) = copies x vs ++ [⟨x, metadata, vec, false⟩] := by
  simp [stepSlots, copies]

theorem copies_delete (x : UInt64) (vs : List VectorSlot) :
    copies x (stepSlots vs (.delete x : Op dim)) = (copies x vs).modifyHead tombstoned :=
  copies_markFirst x vs

theorem inserts_concat (x : UInt64) (ops : List (Op dim)) (op : Op dim) :
    inserts x (ops ++ [op]) = inserts x ops + if op.isInsert && op.id == x then 1 else 0 := by
  rw [inserts, List.countP_append, List.countP_singleton]
  rfl

theorem inserts_le_one {ops : List (Op dim)} (h : ((ops.filter Op.isInsert).map Op.id).Nodup) (x : UInt64) :
    inserts x ops ≤ 1 := by
  have hcount : inserts x ops = ((ops.filter Op.isInsert).map Op.id).count x := by
    rw [List.count, List.countP_map, List.countP_filter, inserts]
    exact List.countP_congr fun op _ => by rw [Bool.and_comm]; rfl
  exact hcount ▸ List.nodup_iff_count_le_one.mp h x

theorem copies_length (x : UInt64) (ops : List (Op dim)) :
    (copies x (runSlots ops)).length = inserts x ops := by
  induction ops using List.reverseRecOn with
  | nil => rfl
  | append_singleton ops op ih =>
    rw [runSlots_concat, inserts_concat, ← ih]
    by_cases hid : op.id = x
    · cases op with
      | insert id vec metadata level =>
        obtain rfl : id = x := hid
        simp [copies_insert, Op.isInsert, Op.id]
      | delete id =>
        obtain rfl : id = x := hid
        rw [copies_delete, List.length_modifyHead]
        rfl
    · rw [copies_step_ne hid]
      simp [hid]

theorem HNSWIndex.nodup_of_inserts {ops : List (Op dim)} (h : ∀ x, inserts x ops ≤ 1) :
    ((runSlots ops).map VectorSlot.id).Nodup := by
  rw [List.nodup_iff_count_le_one]
  intro x
  have hcount : ((runSlots ops).map VectorSlot.id).count x = (copies x (runSlots ops)).length := by
    rw [List.count, List.countP_map, copies, List.countP_eq_length_filter]
    rfl
  rw [hcount, copies_length]
  exact h x

/-- Only the first slot of an id is ever marked. -/
theorem copies_tail_live (x : UInt64) (ops : List (Op dim)) :
    ∀ v ∈ (copies x (runSlots ops)).tail, v.deleted = false := by
  induction ops using List.reverseRecOn with
  | nil => exact fun v hv => absurd hv List.not_mem_nil
  | append_singleton ops op ih =>
    rw [runSlots_concat]
    by_cases hid : op.id = x
    · cases op with
      | insert id vec metadata level =>
        obtain rfl : id = x := hid
        rw [copies_insert]
        cases hc : copies id (runSlots ops) with
        | nil => exact fun v hv => absurd hv List.not_mem_nil
        | cons w ws =>
          rw [hc] at ih
          exact List.forall_mem_append.mpr ⟨ih, List.forall_mem_singleton.mpr rfl⟩
      | delete id =>
        obtain rfl : id = x := hid
        rw [copies_delete]
        cases hc : copies id (runSlots ops) with
        | nil => exact fun v hv => absurd hv List.not_mem_nil
        | cons w ws =>
          rw [hc] at ih
          exact ih
    · rwa [copies_step_ne hid]

/-- Right after a deletion and until the next call about the id its first slot is marked. -/
theorem copies_head_deleted {x : UInt64} {ops : List (Op dim)} (h : DeletedLast x ops) :
    ∀ v ∈ (copies x (runSlots ops)).head?, v.deleted = true := by
  obtain ⟨pre, post, rfl, hpost⟩ := h
  induction post using List.reverseRecOn with
  | nil =>
    rw [runSlots_concat, copies_delete]
    cases copies x (runSlots pre) with
    | nil => exact fun v hv => absurd hv (by simp)
    | cons w ws =>
      intro v hv
      rw [List.modifyHead_cons, List.head?_cons, Option.mem_some_iff] at hv
      exact hv ▸ rfl
  | append_singleton post op ih =>
    rw [← List.cons_append, ← List.append_assoc, runSlots_concat,
      copies_step_ne (hpost op (by simp))]
    exact ih fun op' hop => hpost op' (List.mem_append_left _ hop)

/-- A deleted id still has a live slot exactly when it was inserted more than once. -/
theorem live_iff_inserts {x : UInt64} {ops : List (Op dim)} (h : DeletedLast x ops) :
    (∃ v ∈ runSlots ops, v.id = x ∧ v.deleted = false) ↔ 1 < inserts x ops := by
  have hcopies : (∃ v ∈ runSlots ops, v.id = x ∧ v.deleted = false) ↔
      ∃ v ∈ copies x (runSlots ops), v.deleted = false := by
    simp [copies, and_assoc]
  have hhead := copies_head_deleted h
  have htail := copies_tail_live x ops
  rw [hcopies, ← copies_length]
  cases hc : copies x (runSlots ops) with
  | nil => simp
  | cons w ws =>
    rw [hc] at hhead htail
    have hw : w.deleted = true := hhead w rfl
    cases ws with
    | nil => simp [hw]
    | cons u us => exact iff_of_true ⟨u, by simp, htail u List.mem_cons_self⟩ (by simp)

/-- A deletion of `x` finds a slot of `x`. -/
def DeletedAfterInsert (x : UInt64) (ops : List (Op dim)) : Prop :=
  ∃ pre post, ops = pre ++ .delete x :: post ∧ 0 < inserts x pre

theorem deletedAfterInsert_concat {x : UInt64} {ops : List (Op dim)} {op : Op dim} :
    DeletedAfterInsert x (ops ++ [op]) ↔
      DeletedAfterInsert x ops ∨ (op = .delete x ∧ 0 < inserts x ops) := by
  constructor
  · rintro ⟨pre, post, heq, hpos⟩
    rcases List.eq_nil_or_concat post with rfl | ⟨post, last, rfl⟩
    · obtain ⟨rfl, hop⟩ := List.append_inj' heq rfl
      exact .inr ⟨List.singleton_inj.mp hop, hpos⟩
    · rw [List.concat_eq_append, ← List.cons_append, ← List.append_assoc] at heq
      exact .inl ⟨pre, post, (List.append_inj' heq rfl).1, hpos⟩
  · rintro (⟨pre, post, rfl, hpos⟩ | ⟨rfl, hpos⟩)
    · exact ⟨pre, post ++ [op], by simp, hpos⟩
    · exact ⟨ops, [], rfl, hpos⟩

/-- The first slot of an id is marked once a deletion has found it, and stays so. -/
theorem copies_head_deleted_iff (x : UInt64) (ops : List (Op dim)) :
    (copies x (runSlots ops)).head?.any VectorSlot.deleted = true ↔ DeletedAfterInsert x ops := by
  induction ops using List.reverseRecOn with
  | nil =>
    refine iff_of_false (by simp [runSlots, copies]) ?_
    rintro ⟨pre, post, heq, -⟩
    simp at heq
  | append_singleton ops op ih =>
    rw [deletedAfterInsert_concat, ← ih, ← copies_length, runSlots_concat]
    by_cases hid : op.id = x
    · cases op with
      | insert id vec metadata level =>
        obtain rfl : id = x := hid
        rw [copies_insert]
        cases copies id (runSlots ops) <;> simp
      | delete id =>
        obtain rfl : id = x := hid
        rw [copies_delete]
        cases copies id (runSlots ops) <;> simp [tombstoned]
    · have hne : op ≠ .delete x := fun h => hid (h ▸ rfl)
      simp [copies_step_ne hid, hne]

theorem bind_idxOf?_eq_find? (x : UInt64) (vs : List VectorSlot) :
    ((vs.map VectorSlot.id).idxOf? x).bind (vs[·]?) = (copies x vs).head? := by
  rw [copies, List.head?_filter]
  induction vs with
  | nil => rfl
  | cons v vs ih =>
    rw [List.map_cons, List.idxOf?_cons, List.find?_cons]
    by_cases hv : (v.id == x) = true
    · simp [hv]
    · simp [hv, ← ih, Option.bind_map]

/-- `is_deleted` looks at the first slot of the id. -/
theorem HNSWIndex.Aligned.isDeleted_eq {s : HNSWIndex} (h : s.Aligned) (x : UInt64) :
    s.isDeleted x = (copies x s.slots).head?.any VectorSlot.deleted := by
  rw [← bind_idxOf?_eq_find?, ← h.firstSlot_eq, isDeleted]
  cases hf : s.firstSlot x with
  | none => rfl
  | some i =>
    have hi : i < s.numVectors := by
      rw [h.firstSlot_eq] at hf
      have := (List.findIdx?_eq_some_iff_getElem.mp hf).1
      simpa [slots_length] using this
    rw [Option.bind_some, slots_getElem? s hi]
    rfl

/-- What `is_deleted` promises of an id: it tells whether all the slots of the id are deleted. -/
def HNSWIndex.TellsDeleted (s : HNSWIndex) (x : UInt64) : Prop :=
  s.isDeleted x = true ↔
    (∃ v ∈ s.slots, v.id = x) ∧ ∀ v ∈ s.slots, v.id = x → v.deleted = true

theorem HNSWIndex.tellsDeleted_iff {σ : Type} [LinearOrder σ] (rt : Runtime σ) (cfg : HNSWConfig) (x : UInt64)
    (ops : List (Op dim)) :
    (run rt cfg ops).TellsDeleted x ↔ ¬ (1 < inserts x ops ∧ DeletedAfterInsert x ops) := by
  obtain ⟨haligned, hslots⟩ := aligned_run rt cfg ops
  have hcopies : ((∃ v ∈ runSlots ops, v.id = x) ∧ ∀ v ∈ runSlots ops, v.id = x → v.deleted = true) ↔
      (∃ v, v ∈ copies x (runSlots ops)) ∧ ∀ v ∈ copies x (runSlots ops), v.deleted = true := by
    simp [copies]
  have htail := copies_tail_live x ops
  rw [TellsDeleted, haligned.isDeleted_eq, hslots, hcopies, ← copies_head_deleted_iff, ← copies_length]
  cases hc : copies x (runSlots ops) with
  | nil => simp
  | cons v vs =>
    rw [hc] at htail
    cases vs with
    | nil => simp
    | cons w ws => simp [htail w List.mem_cons_self]

section Search

variable {σ : Type} [LinearOrder σ] (rt : Runtime σ)

theorem HNSWIndex.search_live (cfg : HNSWConfig) (ops : List (Op dim)) (query : Vec) {k : Int} {x : UInt64}
    (hx : x ∈ (searchRaw rt (run rt cfg ops) query k).map Prod.snd) :
    ∃ v ∈ runSlots ops, v.id = x ∧ v.deleted = false :=
  (aligned_run rt cfg ops).2 ▸ (inv_run rt cfg ops).search_live rt query hx

/-- The flat index returns an id for some `k` exactly when the id has a live slot. -/
theorem FlatIndex.search_live_iff (ops : List (Op dim)) (x : UInt64) :
    (∃ (query : VecOf dim) (k : Int), 1 ≤ k ∧ x ∈ ((run ops).search rt query k).map SearchResult.id) ↔
      ∃ v ∈ runSlots ops, v.id = x ∧ v.deleted = false := by
  rw [run_eq]
  constructor
  · rintro ⟨query, k, -, hx⟩
    obtain ⟨r, hr, rfl⟩ := List.mem_map.mp hx
    obtain ⟨v, hv, hlive, hid, -⟩ := searchWith_sound rt _ _ query hr
    exact ⟨v, hv, hid.symm, by simpa using hlive⟩
  · rintro ⟨v, hv, rfl, hdel⟩
    have hpos : 1 ≤ ((runSlots ops).length : Int) := by
      have := List.length_pos_of_mem hv
      omega
    obtain ⟨r, hr, hid⟩ := searchWith_complete rt ⟨dim, runSlots ops⟩ (fun v => !v.deleted)
      (List.replicate dim 0) le_rfl hv (by simp [hdel])
    exact ⟨⟨List.replicate dim 0, List.length_replicate⟩, _, hpos, List.mem_map.mpr ⟨r, hr, hid⟩⟩

/-- When the last call about an id is its deletion, the searches of both indexes leave it out if it
was inserted at most once, and the flat search leaves it out in no other case. -/
theorem deleted_absent_iff (cfg : HNSWConfig) {x : UInt64} {ops : List (Op dim)}
    (h : DeletedLast x ops) :
    ((∀ (query : VecOf dim) (k : Int), 1 ≤ k →
        x ∉ (HNSWIndex.searchRaw rt (HNSWIndex.run rt cfg ops) query k).map Prod.snd ∧
        x ∉ ((FlatIndex.run ops).search rt query k).map SearchResult.id) ↔ inserts x ops ≤ 1) ∧
      ((∀ (query : VecOf dim) (k : Int), 1 ≤ k →
        x ∉ ((FlatIndex.run ops).search rt query k).map SearchResult.id) ↔ inserts x ops ≤ 1) := by
  have hlive := live_iff_inserts h
  have hflat : (∀ (query : VecOf dim) (k : Int), 1 ≤ k →
      x ∉ ((FlatIndex.run ops).search rt query k).map SearchResult.id) ↔ inserts x ops ≤ 1 := by
    rw [← not_lt, ← hlive, ← FlatIndex.search_live_iff rt]
    push Not
    rfl
  refine ⟨⟨fun hall => hflat.mp fun query k hk => (hall query k hk).2, fun hle query k hk => ?_⟩, hflat⟩
  refine ⟨fun hx => ?_, hflat.mpr hle query k hk⟩
  exact absurd (hlive.mp (HNSWIndex.search_live rt cfg ops query hx)) (not_lt.mpr hle)

/-- `is_deleted` and the live slots of an id disagree exactly when the id has a second slot and a
deletion has marked the first one. -/
theorem isDeleted_agrees_iff (cfg : HNSWConfig) (ops : List (Op dim)) (x : UInt64) :
    ((HNSWIndex.run rt cfg ops).TellsDeleted x ∧
        ((HNSWIndex.run rt cfg ops).isDeleted x = true → ∀ (query : Vec) (ef k : Int),
          x ∉ (((HNSWIndex.run rt cfg ops).setEfSearch ef).searchRaw rt query k).map Prod.snd)) ↔
      ¬ (1 < inserts x ops ∧ DeletedAfterInsert x ops) := by
  have htells := HNSWIndex.tellsDeleted_iff rt cfg x ops
  constructor
  · exact fun h => htells.mp h.1
  · intro h
    refine ⟨htells.mpr h, fun hdel query ef k hx => ?_⟩
    have hinv := (HNSWIndex.inv_run rt cfg ops).setEfSearch ef
    obtain ⟨v, hv, hid, hlive⟩ := hinv.search_live rt query hx
    have := ((htells.mpr h).mp hdel).2 v hv hid
    rw [hlive] at this
    exact Bool.false_ne_true this

/-- Insert, delete, insert, delete of one id. -/
def reinserted : List (Op 1) :=
  [.insert 7 ⟨[3], rfl⟩ [] 0, .delete 7, .insert 7 ⟨[5], rfl⟩ [] 0, .delete 7]

theorem deleted_absent_once :
    7 ∉ (HNSWIndex.searchRaw .sample (HNSWIndex.run .sample {} (reinserted.take 2)) [2] 1).map
        Prod.snd ∧
      7 ∉ ((FlatIndex.run (reinserted.take 2)).search .sample [2] 1).map SearchResult.id :=
  (deleted_absent_iff .sample {} ⟨reinserted.take 1, [], rfl, by simp⟩).1.mpr (by decide) ⟨[2], rfl⟩ 1
    le_rfl

end Search

/-- After insert, delete and insert of one id, `is_deleted` holds of it and a search returns it. -/
theorem isDeleted_of_returned :
    let s := HNSWIndex.run .sample {} (reinserted.take 3)
    s.isDeleted 7 = true ∧ (∃ v ∈ s.slots, v.id = 7 ∧ v.deleted = false) ∧
      (s.searchRaw .sample [2] 1).map Prod.snd = [7] := by
  decide

/-- The second deletion hits the slot that is deleted already, and both searches return the id. -/
theorem reinserted_returned :
    DeletedLast 7 reinserted ∧
      (HNSWIndex.searchRaw .sample (HNSWIndex.run .sample {} reinserted) [2] 1).map Prod.snd = [7] ∧
      ((FlatIndex.run reinserted).search .sample [2] 1).map SearchResult.id = [7] := by
  have hpost : ∀ op ∈ ([] : List (Op 1)), op.id ≠ 7 := fun op hop => absurd hop List.not_mem_nil
  refine ⟨⟨reinserted.take 3, [], rfl, hpost⟩, ?_, ?_⟩
  · decide
  · decide

end NeuralDb
