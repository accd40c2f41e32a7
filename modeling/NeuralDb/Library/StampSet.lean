import NeuralDb.Library.BeamSearch

/-! Sets of indices as marks of `w` bits: an index is in the set when its mark is the current tag, and the
set is emptied by taking the next tag. When the tags wrap around, the marks are cleared. -/

namespace NeuralDb.Library

/-- No mark is ahead of the tag, so the next tag is on no mark. -/
structure StampSet (w : Nat) where
  marks : List (BitVec w)
  tag : BitVec w
  marks_le : ∀ m ∈ marks, m ≤ tag

namespace StampSet

variable {w : Nat}

theorem zero_le (tag : BitVec w) : 0#w ≤ tag := by
  rw [BitVec.le_def, BitVec.toNat_zero]
  exact Nat.zero_le _

def empty : StampSet w := ⟨[], 0#w, fun _ hm => absurd hm List.not_mem_nil⟩

/-- Make room for `n` indices and `spare` more, when there is none for `n`. -/
def grow (s : StampSet w) (n spare : Nat) : StampSet w where
  marks := if s.marks.length < n then s.marks ++ List.replicate (n + spare - s.marks.length) 0#w else s.marks
  tag := s.tag
  marks_le := by
    intro m hm
    split_ifs at hm
    · rcases List.mem_append.mp hm with hm | hm
      · exact s.marks_le m hm
      · exact List.eq_of_mem_replicate hm ▸ zero_le s.tag
    · exact s.marks_le m hm

theorem toNat_add_one {tag : BitVec w} (h : tag + 1#w ≠ 0#w) : (tag + 1#w).toNat = tag.toNat + 1 := by
  have hsum : (tag + 1#w).toNat = (tag.toNat + 1) % 2 ^ w := by
    rw [BitVec.toNat_add, BitVec.toNat_ofNat, Nat.add_mod_mod]
  rcases Nat.lt_or_ge (tag.toNat + 1) (2 ^ w) with hlt | hge
  · rw [hsum, Nat.mod_eq_of_lt hlt]
  · have hwrap : tag.toNat + 1 = 2 ^ w := Nat.le_antisymm tag.isLt hge
    refine absurd (BitVec.eq_of_toNat_eq ?_) h
    rw [hsum, hwrap, Nat.mod_self, BitVec.toNat_zero]

/-- The next tag. Zero is on the marks that were never set, and is left out. -/
def advance (s : StampSet w) : StampSet w :=
  if h : s.tag + 1#w = 0#w then
    ⟨List.replicate s.marks.length 0#w, 1#w, fun _ hm => List.eq_of_mem_replicate hm ▸ zero_le _⟩
  else
    ⟨s.marks, s.tag + 1#w, fun m hm => by
      have hle := BitVec.le_def.mp (s.marks_le m hm)
      have hnext := toNat_add_one h
      rw [BitVec.le_def]
      omega⟩

def has (s : StampSet w) (x : Nat) : Bool := s.marks[x]? == some s.tag

def stamp (s : StampSet w) (x : Nat) : StampSet w where
  marks := s.marks.set x s.tag
  tag := s.tag
  marks_le := by
    intro m hm
    rcases List.mem_or_eq_of_mem_set hm with hm | rfl
    · exact s.marks_le m hm
    · exact BitVec.le_refl _

/-- The set is empty. -/
def Fresh (s : StampSet w) : Prop := ∀ m ∈ s.marks, m ≠ s.tag

theorem advance_fresh (hw : 0 < w) (s : StampSet w) : s.advance.Fresh := by
  intro m hm
  unfold advance at hm ⊢
  split_ifs at hm ⊢ with hwrap
  · have hone : 0#w ≠ 1#w := by
      intro h
      have hval := congrArg BitVec.toNat h
      rw [BitVec.toNat_zero, BitVec.toNat_one hw] at hval
      exact absurd hval Nat.zero_ne_one
    exact List.eq_of_mem_replicate hm ▸ hone
  · intro htag
    have hle := BitVec.le_def.mp (s.marks_le _ hm)
    have hnext := toNat_add_one hwrap
    rw [htag] at hle
    dsimp only at hle
    omega

@[simp] theorem advance_length (s : StampSet w) : s.advance.marks.length = s.marks.length := by
  unfold advance
  split_ifs
  · exact List.length_replicate
  · rfl

theorem le_grow_length (s : StampSet w) (n spare : Nat) : n ≤ (s.grow n spare).marks.length := by
  unfold grow
  dsimp only
  split_ifs
  · rw [List.length_append, List.length_replicate]
    omega
  · omega

theorem has_stamp (s : StampSet w) (x y : Nat) :
    (s.stamp x).has y = true ↔ (y = x ∧ y < s.marks.length) ∨ s.has y = true := by
  unfold has stamp
  dsimp only
  rw [beq_iff_eq, beq_iff_eq, List.getElem?_set]
  split_ifs with hxy hlt
  · exact iff_of_true rfl (.inl ⟨hxy.symm, hxy ▸ hlt⟩)
  · subst hxy
    simp [not_lt.mp hlt]
  · exact (or_iff_right fun h => hxy h.1.symm).symm

/-- The indices `xs`, the last of them first. -/
def stampAll (s : StampSet w) (xs : List Nat) : StampSet w := xs.foldr (fun x s => s.stamp x) s

@[simp] theorem stampAll_length (s : StampSet w) (xs : List Nat) : (s.stampAll xs).marks.length = s.marks.length := by
  induction xs with
  | nil => rfl
  | cons x xs ih => exact List.length_set.trans ih

theorem Fresh.has_stampAll {s : StampSet w} (h : s.Fresh) (xs : List Nat) (y : Nat) :
    (s.stampAll xs).has y = true ↔ y ∈ xs ∧ y < s.marks.length := by
  induction xs with
  | nil =>
    refine iff_of_false (fun hy => ?_) fun hy => absurd hy.1 List.not_mem_nil
    exact h s.tag (List.mem_of_getElem? (beq_iff_eq.mp hy)) rfl
  | cons x xs ih =>
    have hstep : ((s.stampAll (x :: xs)).has y = true) ↔
        (y = x ∧ y < (s.stampAll xs).marks.length) ∨ (s.stampAll xs).has y = true := has_stamp _ x y
    rw [hstep, ih, stampAll_length, ← or_and_right, List.mem_cons]

end StampSet

/-! ### Beam search with stamps -/

namespace Beam

variable {w : Nat} {σ : Type} [LinearOrder σ] {m : Type → Type} [Monad m]

/-- The neighbour loop, where the stamps tell what was visited and the list of the beam stays empty. -/
def expandStamped (sim : Nat → m σ) (ef : Int) : List Nat → StampSet w → Beam σ Nat → m (StampSet w × Beam σ Nat)
  | [], v, b => pure (v, b)
  | x :: xs, v, b =>
    if v.has x then expandStamped sim ef xs v b
    else do
      let s ← sim x
      expandStamped sim ef xs (v.stamp x) (b.offer ef (s, x))

def loopStamped (links : Nat → List Nat) (sim : Nat → m σ) (ef : Int) :
    Nat → StampSet w → Beam σ Nat → m (StampSet w × Beam σ Nat)
  | 0, v, b => pure (v, b)
  | fuel + 1, v, b =>
    match b.cands with
    | [] => pure (v, b)
    | c :: cs =>
      if b.stops ef c then pure (v, { b with cands := cs })
      else do
        let (v, b) ← expandStamped sim ef (links c.2) v { b with cands := cs }
        loopStamped links sim ef fuel v b

/-- A whole search on the stamps `v`, which gives them back as it leaves them. -/
def searchStamped (links : Nat → List Nat) (sim : Nat → m σ) (ef : Int) (fuel : Nat) (e : Nat) (v : StampSet w) :
    m (List (σ × Nat) × StampSet w) := do
  let s ← sim e
  let (v, b) ← loopStamped links sim ef fuel (v.stamp e) ⟨[(s, e)], [(s, e)], []⟩
  pure (b.results, v)

/-- The same beam with its visited nodes kept in stamps. -/
def stamped (v : StampSet w) (b : Beam σ Nat) : StampSet w × Beam σ Nat :=
  (v.stampAll b.visited, { b with visited := [] })

theorem stamped_offer (v : StampSet w) (ef : Int) (b : Beam σ Nat) (x : Nat) (s : σ) :
    ((v.stampAll b.visited).stamp x, offer ef { b with visited := [] } (s, x)) =
      stamped v ((b.visit x).offer ef (s, x)) := by
  have hoffer : offer ef { b with visited := [] } (s, x) = { (b.visit x).offer ef (s, x) with visited := [] } := by
    unfold offer
    split_ifs <;> first | rfl | contradiction
  rw [hoffer, stamped, offer_visited]
  rfl

variable [LawfulMonad m] {v : StampSet w}

theorem expandStamped_eq (hv : v.Fresh) (sim : Nat → m σ) (ef : Int) (xs : List Nat)
    (hxs : ∀ x ∈ xs, x < v.marks.length) (b : Beam σ Nat) :
    expandStamped sim ef xs (stamped v b).1 (stamped v b).2 = stamped v <$> expand sim ef xs b := by
  induction xs generalizing b with
  | nil => rw [expandStamped, expand, map_pure]
  | cons x xs ih =>
    have hrest : ∀ y ∈ xs, y < v.marks.length := fun y hy => hxs y (List.mem_cons_of_mem x hy)
    have hhas : (stamped v b).1.has x = true ↔ x ∈ b.visited :=
      (hv.has_stampAll b.visited x).trans (and_iff_left (hxs x List.mem_cons_self))
    rw [expandStamped, expand]
    by_cases hx : x ∈ b.visited
    · rw [if_pos hx, if_pos (hhas.mpr hx), ih hrest]
    · rw [if_neg hx, if_neg fun h => hx (hhas.mp h), map_bind]
      refine bind_congr fun s => ?_
      have hoffer := stamped_offer v ef b x s
      rw [← ih hrest, ← hoffer]
      rfl

theorem loopStamped_eq (hv : v.Fresh) {links : Nat → List Nat} (hlinks : ∀ x, ∀ y ∈ links x, y < v.marks.length)
    (sim : Nat → m σ) (ef : Int) (fuel : Nat) (b : Beam σ Nat) :
    loopStamped links sim ef fuel (stamped v b).1 (stamped v b).2 = stamped v <$> loop links sim ef fuel b := by
  induction fuel generalizing b with
  | zero => rw [loopStamped, loop, map_pure]
  | succ fuel ih =>
    have hcands : (stamped v b).2.cands = b.cands := rfl
    rw [loopStamped, loop, hcands]
    cases b.cands with
    | nil => exact (map_pure (f := m) (stamped v) b).symm
    | cons c cs =>
      have hstops : (stamped v b).2.stops ef c ↔ b.stops ef c := Iff.rfl
      dsimp only
      by_cases hstop : b.stops ef c
      · rw [if_pos hstop, if_pos (hstops.mpr hstop), map_pure]
        rfl
      · have hexpand := expandStamped_eq hv sim ef (links c.2) (hlinks c.2) { b with cands := cs }
        rw [if_neg hstop, if_neg fun h => hstop (hstops.mp h), map_bind]
        refine (congrArg (· >>= _) hexpand).trans ?_
        rw [bind_map_left]
        exact bind_congr fun b' => ih b'

/-- On fresh stamps with room for the nodes, a search gives what it gives with an empty list. -/
theorem searchStamped_eq (hv : v.Fresh) {links : Nat → List Nat} (hlinks : ∀ x, ∀ y ∈ links x, y < v.marks.length)
    (sim : Nat → m σ) (ef : Int) (fuel : Nat) (e : Nat) :
    Prod.fst <$> searchStamped links sim ef fuel e v = search links sim ef fuel e := by
  rw [searchStamped, search, map_bind]
  refine bind_congr fun s => ?_
  have hloop := loopStamped_eq hv hlinks sim ef fuel (start e s)
  rw [map_bind]
  refine (congrArg (· >>= _) hloop).trans ?_
  rw [bind_map_left]
  refine bind_congr fun b => ?_
  exact map_pure (f := m) Prod.fst (b.results, v.stampAll b.visited)

end Beam

end NeuralDb.Library
