import Mathlib.Data.List.Induction
import NeuralDb.Flat.Search

/-! What `compact` of the flat index shows to its user. A deletion always goes to the first slot of
its id, so an id loses more than its first slot only when compactions have made room for that. -/

namespace NeuralDb

/-- A call on a flat index of dimension `dim`. -/
inductive FlatOp (dim : Nat) where
  | insert (id : UInt64) (vec : VecOf dim) (metadata : Bytes)
  | delete (id : UInt64)
  | compact

variable {dim : Nat}

def FlatOp.isCompact : FlatOp dim → Bool
  | .compact => true
  | _ => false

def FlatOp.insertsId (x : UInt64) : FlatOp dim → Bool
  | .insert id _ _ => id == x
  | _ => false

namespace FlatIndex

def apply (f : FlatIndex) : FlatOp dim → FlatIndex
  | .insert id vec metadata => f.insert id vec metadata
  | .delete id => f.deleteVector id
  | .compact => f.compact

def runOps (ops : List (FlatOp dim)) : FlatIndex := ops.foldl apply (new dim)

theorem runOps_concat (ops : List (FlatOp dim)) (op : FlatOp dim) :
    runOps (ops ++ [op]) = (runOps ops).apply op := List.foldl_append

/-- Two indexes that a user cannot tell apart by their live sizes or by searches that have room for
every slot. -/
def LooksLike {σ : Type} [LinearOrder σ] (rt : Runtime σ) (f g : FlatIndex) : Prop :=
  f.liveSize = g.liveSize ∧ ∀ (query : Vec) (k l : Int), (f.size : Int) ≤ k → (g.size : Int) ≤ l →
    (f.search rt query k).Perm (g.search rt query l)

end FlatIndex

/-- The same calls without the compactions. -/
def withoutCompact (ops : List (FlatOp dim)) : List (FlatOp dim) := ops.filter fun op => !op.isCompact

/-- The first slot of `x` was deleted, and a compaction has removed it since. -/
def FirstRemoved (x : UInt64) (ops : List (FlatOp dim)) : Prop :=
  ∃ a b c, ops = a ++ .delete x :: (b ++ .compact :: c) ∧ ∃ op ∈ a, op.insertsId x = true

/-- Some deletion finds the first slot of its id removed and a later slot of it inserted. -/
def HitsLaterSlot (ops : List (FlatOp dim)) : Prop :=
  ∃ x a b, ops = a ++ .delete x :: b ∧ FirstRemoved x a ∧ 2 ≤ a.countP (FlatOp.insertsId x)

/-! ### The slots of one id -/

/-- What the calls did to the slots of one id: all that were inserted, how many of them, from the
first on, were deleted, and whether the last of these is still there. -/
structure IdTrace where
  inserted : List VectorSlot := []
  deleted : Nat := 0
  marked : Bool := false

namespace IdTrace

def add (x : UInt64) (t : IdTrace) : FlatOp dim → IdTrace
  | .insert id vec metadata =>
    if id = x then { t with inserted := t.inserted ++ [⟨id, metadata, vec, false⟩] } else t
  | .delete id =>
    if id = x ∧ t.marked = false ∧ t.deleted < t.inserted.length then
      { t with deleted := t.deleted + 1, marked := true }
    else t
  | .compact => { t with marked := false }

def of (x : UInt64) (ops : List (FlatOp dim)) : IdTrace := ops.foldl (add x) {}

theorem of_concat (x : UInt64) (ops : List (FlatOp dim)) (op : FlatOp dim) :
    of x (ops ++ [op]) = (of x ops).add x op := List.foldl_append

/-- The slots that the index still has of the id. -/
def slots (t : IdTrace) : List VectorSlot :=
  if t.marked then (t.inserted.drop (t.deleted - 1)).modifyHead tombstoned else t.inserted.drop t.deleted

structure Ok (x : UInt64) (t : IdTrace) : Prop where
  live : ∀ v ∈ t.inserted, v.deleted = false ∧ v.id = x
  deleted_le : t.deleted ≤ t.inserted.length
  marked_pos : t.marked = true → 0 < t.deleted

variable {x : UInt64} {t : IdTrace}

theorem Ok.add (h : t.Ok x) (op : FlatOp dim) : (t.add x op).Ok x := by
  obtain ⟨hlive, hle, hpos⟩ := h
  cases op with
  | insert id vec metadata =>
    rw [IdTrace.add]
    split_ifs with hid
    · refine ⟨fun v hv => ?_, ?_, hpos⟩
      · rcases List.mem_append.mp hv with hv | hv
        · exact hlive v hv
        · exact List.mem_singleton.mp hv ▸ ⟨rfl, hid⟩
      · rw [List.length_append]
        exact hle.trans (Nat.le_add_right _ _)
    · exact ⟨hlive, hle, hpos⟩
  | delete id =>
    rw [IdTrace.add]
    split_ifs with hid
    · exact ⟨hlive, hid.2.2, fun _ => Nat.succ_pos _⟩
    · exact ⟨hlive, hle, hpos⟩
  | compact => exact ⟨hlive, hle, fun h => absurd h Bool.false_ne_true⟩

theorem ok_of (x : UInt64) (ops : List (FlatOp dim)) : (of x ops).Ok x := by
  induction ops using List.reverseRecOn with
  | nil => exact ⟨fun v hv => absurd hv List.not_mem_nil, le_rfl, fun h => absurd h Bool.false_ne_true⟩
  | append_singleton ops op ih =>
    rw [of_concat]
    exact ih.add op

theorem Ok.slots_insert (h : t.Ok x) (v : VectorSlot) :
    slots { t with inserted := t.inserted ++ [v] } = t.slots ++ [v] := by
  unfold IdTrace.slots
  split_ifs with hm
  · have hlt : t.deleted - 1 < t.inserted.length := by
      have hpos := h.marked_pos hm
      have hle := h.deleted_le
      omega
    rw [List.drop_append_of_le_length hlt.le]
    cases hd : t.inserted.drop (t.deleted - 1) with
    | nil => exact absurd (List.drop_eq_nil_iff.mp hd) (not_le.mpr hlt)
    | cons v vs => rfl
  · exact List.drop_append_of_le_length h.deleted_le

/-- Only the first of the slots can be marked. -/
theorem Ok.slots_live (h : t.Ok x) : (t.slots.filter fun v => !v.deleted) = t.inserted.drop t.deleted := by
  have hkeep : ∀ n, ((t.inserted.drop n).filter fun v => !v.deleted) = t.inserted.drop n := by
    intro n
    apply List.filter_eq_self.mpr
    intro v hv
    simp [(h.live v (List.mem_of_mem_drop hv)).1]
  unfold IdTrace.slots
  split_ifs with hm
  · have hpos := h.marked_pos hm
    have hlt : t.deleted - 1 < t.inserted.length := by
      have hle := h.deleted_le
      omega
    have htail := hkeep (t.deleted - 1 + 1)
    rw [Nat.sub_add_cancel hpos] at htail
    rw [List.drop_eq_getElem_cons hlt, List.modifyHead_cons, Nat.sub_add_cancel hpos,
      List.filter_cons_of_neg (by simp [tombstoned]), htail]
  · exact hkeep t.deleted

theorem Ok.slots_add (h : t.Ok x) {f : FlatIndex} (hf : copies x f.vectors = t.slots) (op : FlatOp dim) :
    copies x (f.apply op).vectors = (t.add x op).slots := by
  cases op with
  | insert id vec metadata =>
    have hcopies : copies x (f.insert id vec metadata).vectors =
        if id = x then t.slots ++ [⟨id, metadata, vec, false⟩] else t.slots := by
      rw [← hf]
      split_ifs with hid <;> simp [FlatIndex.insert, copies, hid]
    rw [IdTrace.add]
    refine hcopies.trans ?_
    split_ifs with hid
    · exact (h.slots_insert _).symm
    · rfl
  | delete id =>
    by_cases hid : id = x
    · subst hid
      refine (copies_markFirst id f.vectors).trans ?_
      rw [hf, IdTrace.add]
      by_cases hm : t.marked = true
      · -- the first slot is marked once more
        rw [if_neg fun hc => absurd (hm.symm.trans hc.2.1) (by decide), IdTrace.slots, if_pos hm]
        cases t.inserted.drop (t.deleted - 1) <;> rfl
      · have hm : t.marked = false := by simpa using hm
        split_ifs with hc
        · simp [IdTrace.slots, hm]
        · have hall : t.inserted.length ≤ t.deleted := not_lt.mp fun hlt => hc ⟨rfl, hm, hlt⟩
          simp [IdTrace.slots, hm, List.drop_eq_nil_of_le hall]
    · refine (copies_markFirst_ne hid f.vectors).trans ?_
      rw [hf, IdTrace.add, if_neg fun hc => hid hc.1]
  | compact =>
    have hcopies : copies x f.compact.vectors = (copies x f.vectors).filter fun v => !v.deleted := by
      simp only [FlatIndex.compact, copies, List.filter_filter, Bool.and_comm]
    refine hcopies.trans ?_
    rw [hf, h.slots_live]
    rfl

theorem copies_runOps (x : UInt64) (ops : List (FlatOp dim)) :
    copies x (FlatIndex.runOps ops).vectors = (of x ops).slots := by
  induction ops using List.reverseRecOn with
  | nil => rfl
  | append_singleton ops op ih =>
    rw [FlatIndex.runOps_concat, of_concat]
    exact (ok_of x ops).slots_add ih op

/-- The live slots of the id are the later ones of those inserted. -/
theorem copies_live (x : UInt64) (ops : List (FlatOp dim)) :
    copies x (liveSlots (FlatIndex.runOps ops).vectors) = (of x ops).inserted.drop (of x ops).deleted :=
  (ok_of x ops).slots_add (copies_runOps x ops) (.compact : FlatOp dim)

theorem inserted_length (x : UInt64) (ops : List (FlatOp dim)) :
    (of x ops).inserted.length = ops.countP (FlatOp.insertsId x) := by
  induction ops using List.reverseRecOn with
  | nil => rfl
  | append_singleton ops op ih =>
    rw [of_concat, List.countP_append, ← ih]
    cases op with
    | insert id vec metadata =>
      rw [IdTrace.add]
      split_ifs with hid <;> simp [FlatOp.insertsId, hid]
    | delete id =>
      rw [IdTrace.add]
      split_ifs <;> rfl
    | compact => rfl

theorem deleted_le_add (x : UInt64) (t : IdTrace) (op : FlatOp dim) : t.deleted ≤ (t.add x op).deleted := by
  cases op with
  | insert id vec metadata =>
    rw [IdTrace.add]
    split_ifs <;> exact le_rfl
  | delete id =>
    rw [IdTrace.add]
    split_ifs
    · exact Nat.le_succ _
    · exact le_rfl
  | compact => exact le_rfl

theorem deleted_mono (x : UInt64) (as bs : List (FlatOp dim)) :
    (of x as).deleted ≤ (of x (as ++ bs)).deleted := by
  induction bs using List.reverseRecOn with
  | nil => rw [List.append_nil]
  | append_singleton bs op ih =>
    rw [← List.append_assoc, of_concat]
    exact ih.trans (deleted_le_add x _ op)

/-- A delete takes the next slot, unless the mark already stands on a later one. -/
theorem lt_deleted_delete {k : Nat} (hk : k ≤ t.deleted) (hm : t.marked = true → k < t.deleted)
    (hlen : k < t.inserted.length) :
    k < (t.add x (.delete x : FlatOp dim)).deleted := by
  rw [IdTrace.add]
  split_ifs with hc
  · exact Nat.lt_succ_of_le hk
  · by_contra hlt
    have hlt : ¬ k < t.deleted := hlt
    have hunmarked : t.marked = false := by
      by_contra hmarked
      exact hlt (hm (by simpa using hmarked))
    exact hc ⟨rfl, hunmarked, by omega⟩

/-- Without the compactions the same slots are inserted, and the first one only can be deleted. -/
structure Uncompacted (u t : IdTrace) : Prop where
  inserted : u.inserted = t.inserted
  deleted : u.deleted = min 1 t.deleted
  marked : u.marked = true ↔ 0 < t.deleted

variable {u : IdTrace}

theorem Uncompacted.insert (h : u.Uncompacted t) (id : UInt64) (vec : VecOf dim) (metadata : Bytes) :
    (u.add x (.insert id vec metadata)).Uncompacted (t.add x (.insert id vec metadata)) := by
  rw [IdTrace.add, IdTrace.add]
  split_ifs
  · exact ⟨congrArg (· ++ [⟨id, metadata, vec, false⟩]) h.inserted, h.deleted, h.marked⟩
  · exact h

theorem Uncompacted.delete (h : u.Uncompacted t) (ht : t.Ok x) (id : UInt64) :
    (u.add x (.delete id : FlatOp dim)).Uncompacted (t.add x (.delete id : FlatOp dim)) := by
  have hlen := congrArg List.length h.inserted
  have hdel := h.deleted
  have hle := ht.deleted_le
  by_cases hid : id = x
  · subst hid
    by_cases hpos : 0 < t.deleted
    · -- the mark keeps its place in `u`, and `t` may delete one more
      have hu : u.add id (.delete id : FlatOp dim) = u := by
        rw [IdTrace.add, if_neg fun hc => absurd ((h.marked.mpr hpos).symm.trans hc.2.1) (by decide)]
      rw [hu, IdTrace.add]
      split_ifs
      · exact ⟨h.inserted, by simp only; omega, iff_of_true (h.marked.mpr hpos) (Nat.succ_pos _)⟩
      · exact h
    · -- nothing is deleted yet, so both delete the first slot, if there is one
      have hum : u.marked = false := by
        by_contra hm
        exact hpos (h.marked.mp (by simpa using hm))
      have htm : t.marked = false := by
        by_contra hm
        exact hpos (ht.marked_pos (by simpa using hm))
      have hroom : u.deleted < u.inserted.length ↔ t.deleted < t.inserted.length := by omega
      rw [IdTrace.add, IdTrace.add, hum, htm]
      simp only [true_and, hroom]
      split_ifs
      · exact ⟨h.inserted, by simp only; omega, iff_of_true rfl (Nat.succ_pos _)⟩
      · exact h
  · rw [IdTrace.add, IdTrace.add, if_neg fun hc => hid hc.1, if_neg fun hc => hid hc.1]
    exact h

theorem uncompacted_of (x : UInt64) (ops : List (FlatOp dim)) :
    (of x (withoutCompact ops)).Uncompacted (of x ops) := by
  induction ops using List.reverseRecOn with
  | nil => exact ⟨rfl, rfl, by simp [of, withoutCompact]⟩
  | append_singleton ops op ih =>
    have hsplit : withoutCompact (ops ++ [op]) = withoutCompact ops ++ withoutCompact [op] := List.filter_append ..
    rw [hsplit, of_concat]
    cases op with
    | insert id vec metadata => exact (of_concat x (withoutCompact ops) _).symm ▸ ih.insert id vec metadata
    | delete id => exact (of_concat x (withoutCompact ops) _).symm ▸ ih.delete (ok_of x ops) id
    | compact =>
      have hdrop : withoutCompact ops ++ withoutCompact [(.compact : FlatOp dim)] = withoutCompact ops :=
        List.append_nil _
      rw [hdrop]
      exact ⟨ih.inserted, ih.deleted, ih.marked⟩

end IdTrace

/-! ### Which histories hit a later slot -/

section Pattern

variable {x : UInt64} {ops : List (FlatOp dim)}

theorem FirstRemoved.append (h : FirstRemoved x ops) (rest : List (FlatOp dim)) : FirstRemoved x (ops ++ rest) := by
  obtain ⟨a, b, c, rfl, hins⟩ := h
  exact ⟨a, b, c ++ rest, by simp, hins⟩

theorem HitsLaterSlot.append (h : HitsLaterSlot ops) (rest : List (FlatOp dim)) : HitsLaterSlot (ops ++ rest) := by
  obtain ⟨x, a, b, rfl, hfirst, htwo⟩ := h
  exact ⟨x, a, b ++ rest, by simp, hfirst, htwo⟩

/-- A deleted slot was inserted and then deleted; one that is deleted and not marked is removed. -/
theorem firstRemoved_of_deleted (hdel : 0 < (IdTrace.of x ops).deleted) :
    (∃ a b, ops = a ++ .delete x :: b ∧ ∃ op ∈ a, op.insertsId x = true) ∧
      ((IdTrace.of x ops).marked = false → FirstRemoved x ops) := by
  induction ops using List.reverseRecOn with
  | nil => exact absurd hdel (lt_irrefl 0)
  | append_singleton ops op ih =>
    have hold : ∀ t : IdTrace, (IdTrace.of x ops).add x op = t → t.deleted = (IdTrace.of x ops).deleted →
        ∃ a b, ops ++ [op] = a ++ .delete x :: b ∧ ∃ op ∈ a, op.insertsId x = true := by
      intro t ht heq
      rw [IdTrace.of_concat, ht, heq] at hdel
      obtain ⟨⟨a, b, hab, hins⟩, -⟩ := ih hdel
      exact ⟨a, b ++ [op], by rw [hab, List.append_assoc, List.cons_append], hins⟩
    rw [IdTrace.of_concat] at hdel ⊢
    cases op with
    | insert id vec metadata =>
      rw [IdTrace.add] at hdel ⊢ hold
      split_ifs at hdel ⊢ hold
      · exact ⟨hold _ rfl rfl, fun hm => ((ih hdel).2 hm).append _⟩
      · exact ⟨hold _ rfl rfl, fun hm => ((ih hdel).2 hm).append _⟩
    | delete id =>
      rw [IdTrace.add] at hdel ⊢ hold
      split_ifs at hdel ⊢ hold with hc
      · obtain ⟨rfl, -, hlt⟩ := hc
        refine ⟨⟨ops, [], rfl, ?_⟩, fun hm => absurd hm (by decide)⟩
        have hpos : 0 < ops.countP (FlatOp.insertsId id) := by
          rw [← IdTrace.inserted_length]
          exact Nat.zero_lt_of_lt hlt
        exact List.countP_pos_iff.mp hpos
      · exact ⟨hold _ rfl rfl, fun hm => ((ih hdel).2 hm).append _⟩
    | compact =>
      refine ⟨hold _ rfl rfl, fun _ => ?_⟩
      obtain ⟨⟨a, b, hab, hins⟩, -⟩ := ih hdel
      exact ⟨a, b, [], by rw [hab, List.append_assoc, List.cons_append], hins⟩

/-- Once the first slot is removed, a mark stands for a second deletion. -/
theorem FirstRemoved.deleted (h : FirstRemoved x ops) :
    0 < (IdTrace.of x ops).deleted ∧ ((IdTrace.of x ops).marked = true → 2 ≤ (IdTrace.of x ops).deleted) := by
  obtain ⟨a, b, c, rfl, hins⟩ := h
  have hfirst : 0 < (IdTrace.of x (a ++ [.delete x])).deleted := by
    have hok := IdTrace.ok_of x a
    have hpos : 0 < (IdTrace.of x a).inserted.length := by
      rw [IdTrace.inserted_length]
      exact List.countP_pos_iff.mpr hins
    rw [IdTrace.of_concat]
    exact IdTrace.lt_deleted_delete (Nat.zero_le _) hok.marked_pos hpos
  have hsplit : a ++ .delete x :: (b ++ .compact :: c) = a ++ [.delete x] ++ b ++ [.compact] ++ c := by simp
  rw [hsplit]
  induction c using List.reverseRecOn with
  | nil =>
    rw [List.append_nil, IdTrace.of_concat]
    exact ⟨hfirst.trans_le (IdTrace.deleted_mono x _ b), fun hm => absurd hm Bool.false_ne_true⟩
  | append_singleton c op ih =>
    obtain ⟨hpos, hmark⟩ := ih (by simp)
    rw [← List.append_assoc, IdTrace.of_concat]
    cases op with
    | insert id vec metadata =>
      rw [IdTrace.add]
      split_ifs <;> exact ⟨hpos, hmark⟩
    | delete id =>
      rw [IdTrace.add]
      split_ifs
      · exact ⟨Nat.succ_pos _, fun _ => Nat.succ_le_succ hpos⟩
      · exact ⟨hpos, hmark⟩
    | compact => exact ⟨hpos, fun hm => absurd hm Bool.false_ne_true⟩

/-- A second slot of an id is deleted exactly in the histories that hit a later slot. -/
theorem hitsLaterSlot_iff : HitsLaterSlot ops ↔ ∃ x, 2 ≤ (IdTrace.of x ops).deleted := by
  constructor
  · rintro ⟨x, a, b, rfl, hfirst, htwo⟩
    refine ⟨x, ?_⟩
    have hlater : 2 ≤ (IdTrace.of x (a ++ [.delete x])).deleted := by
      obtain ⟨hpos, hmark⟩ := hfirst.deleted
      rw [← IdTrace.inserted_length] at htwo
      rw [IdTrace.of_concat]
      exact IdTrace.lt_deleted_delete hpos hmark htwo
    have happend : a ++ .delete x :: b = a ++ [.delete x] ++ b := by simp
    rw [happend]
    exact hlater.trans (IdTrace.deleted_mono x _ b)
  · rintro ⟨x, h⟩
    induction ops using List.reverseRecOn with
    | nil => exact absurd h (by simp [IdTrace.of])
    | append_singleton ops op ih =>
      by_cases hold : 2 ≤ (IdTrace.of x ops).deleted
      · exact (ih hold).append _
      rw [IdTrace.of_concat] at h
      cases op with
      | insert id vec metadata =>
        rw [IdTrace.add] at h
        split_ifs at h <;> exact absurd h hold
      | delete id =>
        rw [IdTrace.add] at h
        split_ifs at h with hc
        · obtain ⟨rfl, hm, hlt⟩ := hc
          have hone : (IdTrace.of id ops).deleted = 1 := by
            simp only at h
            omega
          have hdel : 0 < (IdTrace.of id ops).deleted := hone ▸ Nat.one_pos
          refine ⟨id, ops, [], rfl, (firstRemoved_of_deleted hdel).2 hm, ?_⟩
          rw [← IdTrace.inserted_length]
          omega
        · exact absurd h hold
      | compact => exact absurd h hold

end Pattern

/-! ### What the user sees -/

section View

variable {σ : Type} [LinearOrder σ] (rt : Runtime σ)

theorem count_copies (v : VectorSlot) (vs : List VectorSlot) : (copies v.id vs).count v = vs.count v :=
  List.count_filter (by simp)

theorem liveSize_eq (f : FlatIndex) : f.liveSize = (liveSlots f.vectors).length :=
  List.countP_eq_length_filter

theorem FlatIndex.looksLike_of_perm {f g : FlatIndex} (h : (liveSlots f.vectors).Perm (liveSlots g.vectors)) :
    f.LooksLike rt g := by
  refine ⟨by rw [liveSize_eq, liveSize_eq, h.length_eq], fun query k l hk hl => ?_⟩
  have hf := f.searchWith_perm rt (fun v => !v.deleted) query hk
  have hg := g.searchWith_perm rt (fun v => !v.deleted) query hl
  exact hf.trans ((h.map (resultOf rt query)).trans hg.symm)

/-- Compaction stays invisible exactly in the histories in which no deletion hits a later slot. -/
theorem compact_invisible_iff (ops : List (FlatOp dim)) :
    (FlatIndex.runOps ops).LooksLike rt (FlatIndex.runOps (withoutCompact ops)) ↔ ¬ HitsLaterSlot ops := by
  let f := FlatIndex.runOps ops
  let g := FlatIndex.runOps (withoutCompact ops)
  have hf : ∀ x, copies x (liveSlots f.vectors) = (IdTrace.of x ops).inserted.drop (IdTrace.of x ops).deleted :=
    fun x => IdTrace.copies_live x ops
  have hg : ∀ x, copies x (liveSlots g.vectors) =
      (IdTrace.of x ops).inserted.drop (min 1 (IdTrace.of x ops).deleted) := by
    intro x
    have h := IdTrace.uncompacted_of x ops
    rw [← h.inserted, ← h.deleted]
    exact IdTrace.copies_live x (withoutCompact ops)
  have hcount : ∀ v, (liveSlots f.vectors).count v ≤ (liveSlots g.vectors).count v := by
    intro v
    rw [← count_copies, ← count_copies v (liveSlots g.vectors), hf, hg]
    exact (List.drop_sublist_drop_left _ (Nat.min_le_right _ _)).count_le v
  rw [hitsLaterSlot_iff]
  constructor
  · rintro ⟨hsize, -⟩ ⟨x, hx⟩
    have hsub : (liveSlots f.vectors).Subperm (liveSlots g.vectors) :=
      List.subperm_ext_iff.mpr fun v _ => hcount v
    rw [liveSize_eq, liveSize_eq] at hsize
    have hperm := hsub.perm_of_length_le hsize.ge
    -- the slots of `x` differ in number
    have hlen := (hperm.filter fun v => v.id == x).length_eq
    have hlen : (copies x (liveSlots f.vectors)).length = (copies x (liveSlots g.vectors)).length := hlen
    have hle := (IdTrace.ok_of x ops).deleted_le
    rw [hf, hg, List.length_drop, List.length_drop] at hlen
    omega
  · intro hno
    apply FlatIndex.looksLike_of_perm
    apply List.perm_iff_count.mpr
    intro v
    have hone : min 1 (IdTrace.of v.id ops).deleted = (IdTrace.of v.id ops).deleted := by
      have : ¬ 2 ≤ (IdTrace.of v.id ops).deleted := fun h => hno ⟨v.id, h⟩
      omega
    have hcopies : copies v.id (liveSlots f.vectors) = copies v.id (liveSlots g.vectors) := by
      rw [hf, hg, hone]
    rw [← count_copies, ← count_copies v (liveSlots g.vectors)]
    exact congrArg (List.count v) hcopies

/-- Insert, delete, insert of one id, a compaction, and a second delete of it. -/
def compactedReinsert : List (FlatOp 1) :=
  [.insert 7 ⟨[6], rfl⟩ [], .delete 7, .insert 7 ⟨[8], rfl⟩ [], .compact, .delete 7]

/-- The compaction makes room for the second delete, which hits nothing new without it. -/
theorem compact_visible :
    (FlatIndex.runOps compactedReinsert).liveSize = 0 ∧
      (FlatIndex.runOps (withoutCompact compactedReinsert)).liveSize = 1 ∧
      ¬ (FlatIndex.runOps compactedReinsert).LooksLike .sample
        (FlatIndex.runOps (withoutCompact compactedReinsert)) := by
  refine ⟨by decide, by decide, fun h => absurd h.1 (by decide)⟩

end View

end NeuralDb
