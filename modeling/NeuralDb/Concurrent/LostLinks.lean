import NeuralDb.Concurrent.Linking
import NeuralDb.Kernel

/-! Symmetry of the links under concurrent inserts. The neighbours in a list that an insert assigns owe a
link back until its loop has reached them; a list that is assigned over links already there loses them. -/

namespace NeuralDb

open Library HNSWIndex

namespace Concurrent

variable {σ : Type}

/-- The list that the next step assigns, by its layer and its node. -/
def InsertFrame.assigns (f : InsertFrame σ) : Option (Nat × Nat) :=
  match f.pc with
  | .assign lc _ => some (lc, f.q)
  | _ => none

/-- The links back that are still to be made, each by its layer and the neighbour that makes it. -/
def InsertFrame.owed (f : InsertFrame σ) : List (Nat × Nat) :=
  match f.pc with
  | .back lc _ nbs => nbs.map fun nb => (lc, nb)
  | _ => []

/-- The layer has its list still to be assigned. -/
def InsertPc.toCome (l : Nat) : InsertPc σ → Prop
  | .append => False
  | .entry => True
  | .descend _ _ => True
  | .link lc _ => l ≤ lc
  | .assign lc _ => l ≤ lc
  | .back lc _ _ => l < lc
  | .raise => False

def Thread.assigns (th : Thread σ) : Option (Nat × Nat) :=
  match th.call with
  | some (.insert f) => f.assigns
  | _ => none

def Thread.owesNext (th : Thread σ) : Option (Nat × Nat) :=
  match th.call with
  | some (.insert f) => f.owed.head?
  | _ => none

/-- An assignment finds the list empty: nobody has linked to the node on this layer before. -/
def FindsEmpty {dim : Nat} (m : Machine σ) (e : Nat × Action dim) : Prop :=
  e.2 = .step → ∀ p ∈ (m.threads e.1).assigns, m.index.links p.1 p.2 = []

/-- A link back does not make its list exceed `Mmax`. -/
def NeverFull {dim : Nat} (m : Machine σ) (e : Nat × Action dim) : Prop :=
  e.2 = .step → ∀ p ∈ (m.threads e.1).owesNext,
    ((m.index.links p.1 p.2).length + 1 : Int) ≤ m.index.maxLinks p.1

instance Action.decidableStep {dim : Nat} (a : Action dim) : Decidable (a = .step) :=
  match a with
  | .step => .isTrue rfl
  | .insert .. => .isFalse nofun
  | .search .. => .isFalse nofun
  | .delete _ => .isFalse nofun

instance decidableFindsEmpty {dim : Nat} (m : Machine σ) (e : Nat × Action dim) :
    Decidable (FindsEmpty m e) :=
  inferInstanceAs (Decidable (e.2 = .step → ∀ p ∈ (m.threads e.1).assigns, m.index.links p.1 p.2 = []))

instance decidableNeverFull {dim : Nat} (m : Machine σ) (e : Nat × Action dim) :
    Decidable (NeverFull m e) :=
  inferInstanceAs (Decidable (e.2 = .step → ∀ p ∈ (m.threads e.1).owesNext,
    ((m.index.links p.1 p.2).length + 1 : Int) ≤ m.index.maxLinks p.1))

def Thread.Owes (th : Thread σ) (l x y : Nat) : Prop :=
  ∃ f, th.call = some (.insert f) ∧ f.q = x ∧ (l, y) ∈ f.owed

/-- On layer `l` the link from `y` back to `x` is still to be made. -/
def Owes (m : Machine σ) (l x y : Nat) : Prop := ∃ t, (m.threads t).Owes l x y

def Thread.ToCome (th : Thread σ) (l x : Nat) : Prop :=
  ∃ f, th.call = some (.insert f) ∧ f.q = x ∧ f.pc.toCome l

/-- On layer `l` the list of `x` is still to be assigned. -/
def ToCome (m : Machine σ) (l x : Nat) : Prop := ∃ t, (m.threads t).ToCome l x

/-- No insert is in progress. -/
def AllReturned (m : Machine σ) : Prop := ∀ t f, (m.threads t).call ≠ some (.insert f)

theorem frame_unique {th : Thread σ} {f g : InsertFrame σ} (hf : th.call = some (.insert f))
    (hg : th.call = some (.insert g)) : f = g := Call.insert.inj (Option.some.inj (hf.symm.trans hg))

theorem exists_setThread (P : Thread σ → Prop) (m : Machine σ) (s : HNSWIndex) (t : Nat) (th : Thread σ) :
    (∃ u, P (({ m with index := s } : Machine σ).setThread t th |>.threads u)) ↔
      P th ∨ ∃ u, u ≠ t ∧ P (m.threads u) := by
  constructor
  · rintro ⟨u, hu⟩
    by_cases hut : u = t
    · subst hut
      rw [Machine.setThread_self] at hu
      exact .inl hu
    · rw [Machine.setThread_other _ hut] at hu
      exact .inr ⟨u, hut, hu⟩
  · rintro (h | ⟨u, hut, hu⟩)
    · exact ⟨t, by rwa [Machine.setThread_self]⟩
    · exact ⟨u, by rwa [Machine.setThread_other _ hut]⟩

theorem exists_thread (P : Thread σ → Prop) (m : Machine σ) (t : Nat) :
    (∃ u, P (m.threads u)) ↔ P (m.threads t) ∨ ∃ u, u ≠ t ∧ P (m.threads u) := by
  constructor
  · rintro ⟨u, hu⟩
    by_cases hut : u = t
    · exact .inl (hut ▸ hu)
    · exact .inr ⟨u, hut, hu⟩
  · rintro (h | ⟨u, -, hu⟩)
    · exact ⟨t, h⟩
    · exact ⟨u, hu⟩

theorem pc_of_owed {f : InsertFrame σ} {p : Nat × Nat} (h : p ∈ f.owed) : f.pc ≠ .append := by
  intro hpc
  rw [InsertFrame.owed, hpc] at h
  exact List.not_mem_nil h

theorem pc_of_toCome {f : InsertFrame σ} {l : Nat} (h : f.pc.toCome l) : f.pc ≠ .append := by
  intro hpc
  rw [hpc] at h
  exact h

theorem owed_linkFrom {f : InsertFrame σ} {n : Nat} (h : f.pc = linkFrom n) : f.owed = [] := by
  rw [InsertFrame.owed, h]
  cases n <;> rfl

theorem toCome_linkFrom {n l : Nat} (h : (linkFrom n : InsertPc σ).toCome l) : l < n := by
  cases n with
  | zero => exact h.elim
  | succ n => exact Nat.lt_succ_of_le h

theorem owes_back {th : Thread σ} {f : InsertFrame σ} {lc : Nat} {cands : List (σ × Nat)} {nbs : List Nat}
    (hcall : th.call = some (.insert f)) (hpc : f.pc = .back lc cands nbs) {l x y : Nat} :
    th.Owes l x y ↔ l = lc ∧ x = f.q ∧ y ∈ nbs := by
  have howed : f.owed = nbs.map fun nb => (lc, nb) := by rw [InsertFrame.owed, hpc]
  constructor
  · rintro ⟨g, hg, hq, hy⟩
    obtain rfl := frame_unique hcall hg
    rw [howed] at hy
    obtain ⟨nb, hnb, heq⟩ := List.mem_map.mp hy
    obtain ⟨rfl, rfl⟩ := Prod.mk.inj heq
    exact ⟨rfl, hq.symm, hnb⟩
  · rintro ⟨rfl, rfl, hy⟩
    exact ⟨f, hcall, rfl, howed ▸ List.mem_map.mpr ⟨y, hy, rfl⟩⟩

section Changes

variable {γ : Groups Nat} {m m' : Machine σ} {s : HNSWIndex} {f : InsertFrame σ}

/-- A step that leaves the links alone: what is to come has been to come before, unless `f` is new. -/
structure Quiet (s s' : HNSWIndex) (f : InsertFrame σ) (next : Option (InsertFrame σ)) : Prop where
  links : s'.links = s.links
  assigns : f.assigns = none
  owed : f.owed = []
  owed_next : ∀ f', next = some f' → f'.owed = []
  toCome : ∀ f', next = some f' → ∀ l, f'.pc.toCome l → f'.q = s.numVectors ∨ f.pc.toCome l ∧ f'.q = f.q

theorem Quiet.of_some {f' : InsertFrame σ} (ha : f.assigns = none) (hf : f.owed = []) (hf' : f'.owed = [])
    (hcome : ∀ l, f'.pc.toCome l → f.pc.toCome l) (hq : f'.q = f.q) : Quiet s s f (some f') where
  links := rfl
  assigns := ha
  owed := hf
  owed_next _ h := Option.some.inj h ▸ hf'
  toCome _ h l hl := .inr ⟨hcome l (Option.some.inj h ▸ hl), Option.some.inj h ▸ hq⟩

structure Keeps (m m' : Machine σ) : Prop where
  links : m'.index.links = m.index.links
  owes : ∀ l x y, Owes m' l x y ↔ Owes m l x y
  toCome : ∀ l x, ToCome m' l x → ToCome m l x ∨ x = m.index.numVectors

/-- The list of `q` on layer `lc` becomes `nbs`, nodes outside of its group. -/
structure Assigns (γ : Groups Nat) (m m' : Machine σ) (lc q : Nat) (nbs : List Nat) : Prop where
  pending : ToCome m lc q
  own : γ.group lc q = q
  apart : ∀ y ∈ nbs, γ.group lc y ≠ q
  quiet : ∀ y, ¬ Owes m lc q y
  links : ∀ k y, m'.index.links k y = if q = y ∧ lc = k then nbs else m.index.links k y
  owes : ∀ l x y, Owes m' l x y ↔ Owes m l x y ∨ l = lc ∧ x = q ∧ y ∈ nbs
  toCome : ∀ l x, ToCome m' l x → ToCome m l x ∧ ¬ (l = lc ∧ x = q)

/-- The neighbour `nb` makes its link back to `q`. -/
structure LinksBack (m m' : Machine σ) (lc q nb : Nat) : Prop where
  owed : Owes m lc q nb
  links : ((m.index.links lc nb).length + 1 : Int) ≤ m.index.maxLinks lc →
    ∀ k y, m'.index.links k y = if nb = y ∧ lc = k then m.index.links lc nb ++ [q] else m.index.links k y
  owes : ∀ l x y, Owes m' l x y ↔ Owes m l x y ∧ ¬ (l = lc ∧ x = q ∧ y = nb)
  toCome : ∀ l x, ToCome m' l x → ToCome m l x

/-- A link back that finds room is one more link, and the others stay. -/
theorem LinksBack.mem_iff {lc q nb : Nat} (h : LinksBack m m' lc q nb)
    (hroom : ((m.index.links lc nb).length + 1 : Int) ≤ m.index.maxLinks lc) (l x y : Nat) :
    y ∈ m'.index.links l x ↔ y ∈ m.index.links l x ∨ l = lc ∧ x = nb ∧ y = q := by
  rw [h.links hroom]
  split_ifs with hc
  · obtain ⟨rfl, rfl⟩ := hc
    rw [List.mem_append, List.mem_singleton]
    exact or_congr_right ⟨fun hy => ⟨rfl, rfl, hy⟩, fun hy => hy.2.2⟩
  · exact (or_iff_left fun hy => hc ⟨hy.2.1.symm, hy.1.symm⟩).symm

theorem keeps_of_step {t : Nat} {th : Thread σ} {s' : HNSWIndex} (hlinks : s'.links = m.index.links)
    (hbefore : ∀ l x y, ¬ (m.threads t).Owes l x y) (hafter : ∀ l x y, ¬ th.Owes l x y)
    (hcome : ∀ l x, th.ToCome l x → (m.threads t).ToCome l x ∨ x = m.index.numVectors) :
    Keeps m (({ m with index := s' } : Machine σ).setThread t th) where
  links := hlinks
  owes l x y := by
    refine (exists_setThread (fun th => th.Owes l x y) m s' t th).trans
      (Iff.trans ?_ (exists_thread (fun th => th.Owes l x y) m t).symm)
    exact or_congr_left ⟨fun h => absurd h (hafter l x y), fun h => absurd h (hbefore l x y)⟩
  toCome l x hl := by
    rcases (exists_setThread (fun th => th.ToCome l x) m s' t th).mp hl with h | ⟨u, -, hu⟩
    · exact (hcome l x h).imp_left fun h => ⟨t, h⟩
    · exact .inl ⟨u, hu⟩

theorem idle_of_call {th : Thread σ} (h : ∀ f, th.call = some (.insert f) → f.pc = .append) :
    (∀ l x y, ¬ th.Owes l x y) ∧ ∀ l x, ¬ th.ToCome l x := by
  constructor
  · rintro l x y ⟨f, hf, -, hy⟩
    exact pc_of_owed hy (h f hf)
  · rintro l x ⟨f, hf, -, hl⟩
    exact pc_of_toCome hl (h f hf)

theorem keeps_of_idle {t : Nat} {th : Thread σ} {s' : HNSWIndex} (hlinks : s'.links = m.index.links)
    (hbefore : ∀ f, (m.threads t).call = some (.insert f) → f.pc = .append)
    (hafter : ∀ f, th.call = some (.insert f) → f.pc = .append) :
    Keeps m (({ m with index := s' } : Machine σ).setThread t th) :=
  keeps_of_step hlinks (idle_of_call hbefore).1 (idle_of_call hafter).1
    fun l x h => absurd h ((idle_of_call hafter).2 l x)

theorem keeps_of_quiet {t : Nat} {f : InsertFrame σ} (hcall : (m.threads t).call = some (.insert f))
    {s' : HNSWIndex} {next : Option (InsertFrame σ)} (h : Quiet m.index s' f next) {th : Thread σ}
    (hth : th.call = next.map .insert) : Keeps m (({ m with index := s' } : Machine σ).setThread t th) := by
  have hnext : ∀ f', th.call = some (.insert f') → next = some f' := by
    intro f' hf'
    obtain ⟨g, hg, heq⟩ := Option.map_eq_some_iff.mp (hth.symm.trans hf')
    exact Call.insert.inj heq ▸ hg
  refine keeps_of_step h.links ?_ ?_ ?_
  · rintro l x y ⟨g, hg, -, hy⟩
    obtain rfl := frame_unique hcall hg
    exact List.not_mem_nil (h.owed ▸ hy)
  · rintro l x y ⟨g, hg, -, hy⟩
    exact List.not_mem_nil (h.owed_next g (hnext g hg) ▸ hy)
  · rintro l x ⟨g, hg, rfl, hl⟩
    rcases h.toCome g (hnext g hg) l hl with hq | ⟨hcome, hq⟩
    · exact .inr hq
    · exact .inl ⟨f, hcall, hq.symm, hcome⟩

/-! ### Links that are answered -/

/-- Every link is answered by one back or by one that is owed, and what is owed is linked to. -/
structure Paired (m : Machine σ) : Prop where
  links : ∀ l x, ∀ y ∈ m.index.links l x, x ∈ m.index.links l y ∨ Owes m l x y
  owed : ∀ l x y, Owes m l x y → y ∈ m.index.links l x

theorem Paired.keeps (h : Paired m) (hkeeps : Keeps m m') : Paired m' where
  links l x y hy := by
    rw [hkeeps.links] at hy ⊢
    exact (h.links l x y hy).imp_right (hkeeps.owes l x y).mpr
  owed l x y hy := by
    rw [hkeeps.links]
    exact h.owed l x y ((hkeeps.owes l x y).mp hy)

theorem Paired.assigns (h : Paired m) {lc q : Nat} {nbs : List Nat} (hassigns : Assigns γ m m' lc q nbs)
    (hnil : m.index.links lc q = []) : Paired m' where
  links l x y hy := by
    rw [hassigns.links] at hy
    split_ifs at hy with hc
    · obtain ⟨rfl, rfl⟩ := hc
      exact .inr ((hassigns.owes lc q y).mpr (.inr ⟨rfl, rfl, hy⟩))
    · refine (h.links l x y hy).imp (fun hx => ?_) fun ho => (hassigns.owes l x y).mpr (.inl ho)
      -- the list that is assigned was empty, so it is not the one that answers
      rw [hassigns.links, if_neg]
      · exact hx
      · rintro ⟨rfl, rfl⟩
        rw [hnil] at hx
        contradiction
  owed l x y hy := by
    rcases (hassigns.owes l x y).mp hy with ho | ⟨rfl, rfl, hmem⟩
    · rw [hassigns.links, if_neg]
      · exact h.owed l x y ho
      · rintro ⟨rfl, rfl⟩
        exact hassigns.quiet y ho
    · rw [hassigns.links, if_pos ⟨rfl, rfl⟩]
      exact hmem

theorem Paired.linksBack (h : Paired m) {lc q nb : Nat} (hback : LinksBack m m' lc q nb)
    (hroom : ((m.index.links lc nb).length + 1 : Int) ≤ m.index.maxLinks lc) : Paired m' where
  links l x y hy := by
    rw [hback.mem_iff hroom, hback.owes]
    rcases (hback.mem_iff hroom l x y).mp hy with hy | ⟨rfl, rfl, rfl⟩
    · rcases h.links l x y hy with hx | ho
      · exact .inl (.inl hx)
      · by_cases hc : l = lc ∧ x = q ∧ y = nb
        · exact .inl (.inr ⟨hc.1, hc.2.2, hc.2.1⟩)
        · exact .inr ⟨ho, hc⟩
    · exact .inl (.inl (h.owed _ _ _ hback.owed))
  owed l x y hy := (hback.mem_iff hroom l x y).mpr (.inl (h.owed l x y ((hback.owes l x y).mp hy).1))

/-- A link from `x` to `y` without one back, and nobody left who would make it. -/
structure Lost (m : Machine σ) (l x y : Nat) : Prop where
  link : y ∈ m.index.links l x
  missing : x ∉ m.index.links l y
  owed : ¬ Owes m l x y
  done_left : ¬ ToCome m l x
  done_right : ¬ ToCome m l y

theorem Lost.keeps {l x y : Nat} (h : Lost m l x y) (hx : x < m.index.numVectors) (hy : y < m.index.numVectors)
    (hkeeps : Keeps m m') : Lost m' l x y where
  link := by
    rw [hkeeps.links]
    exact h.link
  missing := by
    rw [hkeeps.links]
    exact h.missing
  owed ho := h.owed ((hkeeps.owes l x y).mp ho)
  done_left hc := (hkeeps.toCome l x hc).elim h.done_left hx.ne
  done_right hc := (hkeeps.toCome l y hc).elim h.done_right hy.ne

theorem Lost.assigns {l x y lc q : Nat} {nbs : List Nat} (h : Lost m l x y) (hassigns : Assigns γ m m' lc q nbs) :
    Lost m' l x y := by
  have hx : ¬ (q = x ∧ lc = l) := by
    rintro ⟨rfl, rfl⟩
    exact h.done_left hassigns.pending
  have hy : ¬ (q = y ∧ lc = l) := by
    rintro ⟨rfl, rfl⟩
    exact h.done_right hassigns.pending
  refine ⟨?_, ?_, fun ho => ?_, fun hc => h.done_left (hassigns.toCome l x hc).1,
    fun hc => h.done_right (hassigns.toCome l y hc).1⟩
  · rw [hassigns.links, if_neg hx]
    exact h.link
  · rw [hassigns.links, if_neg hy]
    exact h.missing
  · rcases (hassigns.owes l x y).mp ho with ho | ⟨rfl, rfl, -⟩
    · exact h.owed ho
    · exact hx ⟨rfl, rfl⟩

theorem Lost.linksBack {l x y lc q nb : Nat} (h : Lost m l x y) (hback : LinksBack m m' lc q nb)
    (hroom : ((m.index.links lc nb).length + 1 : Int) ≤ m.index.maxLinks lc) : Lost m' l x y where
  link := (hback.mem_iff hroom l x y).mpr (.inl h.link)
  missing hmem := by
    rcases (hback.mem_iff hroom l y x).mp hmem with hmem | ⟨rfl, rfl, rfl⟩
    · exact h.missing hmem
    · exact h.owed hback.owed
  owed ho := h.owed ((hback.owes l x y).mp ho).1
  done_left hc := h.done_left (hback.toCome l x hc)
  done_right hc := h.done_right (hback.toCome l y hc)

end Changes

/-! ### Steps of the machine -/

section Machine

variable [LinearOrder σ] (rt : Runtime σ) {dim : Nat} {γ : Groups Nat} {m m' : Machine σ} {e : Nat × Action dim}

/-- A step of an insert leaves all links alone, assigns a list, or makes a link back. -/
theorem InsertFrame.step_links (s : HNSWIndex) (f : InsertFrame σ) :
    Quiet s (f.step rt s).1 f (f.step rt s).2 ∨ (∃ lc cands, f.pc = .assign lc cands) ∨
      ∃ lc cands nb nbs, f.pc = .back lc cands (nb :: nbs) := by
  have hnone : ∀ pc, f.pc = pc → f.assigns = ({ f with pc } : InsertFrame σ).assigns ∧
      f.owed = ({ f with pc } : InsertFrame σ).owed := by
    rintro pc rfl
    exact ⟨rfl, rfl⟩
  unfold InsertFrame.step
  split
  · next hpc =>
    refine .inl ⟨?_, (hnone _ hpc).1, (hnone _ hpc).2, fun f' hf' => ?_, fun f' hf' l hl => ?_⟩
    · funext l x
      exact links_append s f.id f.vec f.metadata f.level l x
    all_goals
      dsimp only at hf'
      split_ifs at hf'
      obtain rfl := Option.some.inj hf'
    · rfl
    · exact .inl rfl
  · next hpc =>
    refine .inl (.of_some (hnone _ hpc).1 (hnone _ hpc).2 ?_ (fun l _ => hpc ▸ trivial) rfl)
    dsimp only
    split_ifs
    · rfl
    · exact owed_linkFrom rfl
  · next lc out hpc =>
    refine .inl (.of_some (hnone _ hpc).1 (hnone _ hpc).2 ?_ (fun l _ => hpc ▸ trivial) rfl)
    dsimp only
    split_ifs
    · rfl
    · exact owed_linkFrom rfl
  · next lc pc _ hpc => exact .inl (.of_some (hnone _ hpc).1 (hnone _ hpc).2 rfl (fun l _ => hpc ▸ trivial) rfl)
  · next lc out hpc => exact .inl (.of_some (hnone _ hpc).1 (hnone _ hpc).2 rfl (fun l hl => hpc ▸ hl) rfl)
  · next lc pc _ hpc => exact .inl (.of_some (hnone _ hpc).1 (hnone _ hpc).2 rfl (fun l hl => hpc ▸ hl) rfl)
  · next lc cands hpc => exact .inr (.inl ⟨lc, cands, hpc⟩)
  · next lc cands nb nbs hpc => exact .inr (.inr ⟨lc, cands, nb, nbs, hpc⟩)
  · next lc cands hpc =>
    refine .inl (.of_some (hnone _ hpc).1 (hnone _ hpc).2 (owed_linkFrom rfl) (fun l hl => ?_) rfl)
    rw [hpc]
    exact toCome_linkFrom hl
  · next hpc => exact .inl ⟨raise_links s f.q f.level, (hnone _ hpc).1, (hnone _ hpc).2, nofun, nofun⟩

/-- Two threads owe links back to, and have lists to come for, different nodes. -/
theorem Linked.other (h : Linked γ m) {t u : Nat} {f : InsertFrame σ} (hf : (m.threads t).call = some (.insert f))
    (hpc : f.pc ≠ .append) (hu : u ≠ t) :
    (∀ l y, ¬ (m.threads u).Owes l f.q y) ∧ ∀ l, ¬ (m.threads u).ToCome l f.q := by
  constructor
  · rintro l y ⟨g, hg, hq, hy⟩
    exact hu (h.distinct u t g f hg hf (pc_of_owed hy) hpc hq)
  · rintro l ⟨g, hg, hq, hl⟩
    exact hu (h.distinct u t g f hg hf (pc_of_toCome hl) hpc hq)

theorem Linked.assigns (h : Linked γ m) {t lc : Nat} {f : InsertFrame σ} {cands : List (σ × Nat)}
    (hcall : (m.threads t).call = some (.insert f)) (hpc : f.pc = .assign lc cands) {th : Thread σ}
    (hth : th.call = (f.step rt m.index).2.map .insert) :
    Assigns γ m (({ m with index := (f.step rt m.index).1 } : Machine σ).setThread t th) lc f.q
      (selectNeighbours rt cands m.index.cfg.M) := by
  have hap : f.pc ≠ .append := by simp [hpc]
  have hok := (h.frames t f hcall).resolve_left hap
  have hpcok := hok.pc
  rw [hpc] at hpcok
  obtain ⟨hround, hsearch, hnodup, hcands⟩ := hpcok
  have hown := h.index.own lc f.q hsearch.join.pending
  have hlayer : lc < m.index.layers f.q := hok.layers.symm ▸ Nat.lt_succ_of_le hround.le_level
  let nbs := selectNeighbours rt cands m.index.cfg.M
  let f' : InsertFrame σ := { f with pc := .back lc cands nbs }
  have hstep : f.step rt m.index = (m.index.setLinks lc f.q nbs, some f') := by
    simp only [InsertFrame.step, hpc, f', nbs]
  have hcall' : th.call = some (.insert f') := by rw [hth, hstep]; rfl
  have howes : ∀ l x y, th.Owes l x y ↔ l = lc ∧ x = f.q ∧ y ∈ nbs := fun _ _ _ => owes_back hcall' rfl
  have hnone : ∀ l x y, ¬ (m.threads t).Owes l x y := by
    rintro l x y ⟨g, hg, -, hy⟩
    obtain rfl := frame_unique hcall hg
    rw [InsertFrame.owed, hpc] at hy
    exact List.not_mem_nil hy
  exact {
    pending := ⟨t, f, hcall, rfl, by rw [hpc]; exact le_rfl⟩
    own := hown
    apart := fun y hy hc => hsearch.join.apart
      (((select_within rt m.index.cfg.M hnodup hcands).2 y hy).2.symm.trans hc)
    quiet := by
      rintro y ⟨u, hu⟩
      by_cases hut : u = t
      · exact hnone lc f.q y (hut ▸ hu)
      · exact (h.other hcall hap hut).1 lc y hu
    links := fun k y => by
      rw [hstep]
      exact links_setLinks_of_lt hlayer nbs k y
    owes := fun l x y => by
      refine (exists_setThread (fun th => th.Owes l x y) m _ t th).trans ?_
      rw [howes l x y, or_comm]
      refine or_congr_left (Iff.trans ?_ (exists_thread (fun th => th.Owes l x y) m t).symm)
      exact (or_iff_right (hnone l x y)).symm
    toCome := fun l x hl => by
      rcases (exists_setThread (fun th => th.ToCome l x) m _ t th).mp hl with ⟨g, hg, hq, hl⟩ | ⟨u, hut, hu⟩
      · obtain rfl := frame_unique hcall' hg
        have hlt : l < lc := hl
        refine ⟨⟨t, f, hcall, hq, ?_⟩, fun hc => hlt.ne hc.1⟩
        rw [hpc]
        exact hlt.le
      · exact ⟨⟨u, hu⟩, fun hc => (h.other hcall hap hut).2 l (hc.2 ▸ hu)⟩ }

theorem Linked.linksBack (h : Linked γ m) {t lc nb : Nat} {f : InsertFrame σ} {cands : List (σ × Nat)}
    {nbs : List Nat} (hcall : (m.threads t).call = some (.insert f)) (hpc : f.pc = .back lc cands (nb :: nbs))
    {th : Thread σ} (hth : th.call = (f.step rt m.index).2.map .insert) :
    LinksBack m (({ m with index := (f.step rt m.index).1 } : Machine σ).setThread t th) lc f.q nb := by
  have hap : f.pc ≠ .append := by simp [hpc]
  have hpcok := ((h.frames t f hcall).resolve_left hap).pc
  rw [hpc] at hpcok
  obtain ⟨-, hback⟩ := hpcok
  obtain ⟨hlayer, -⟩ := hback.nbs nb List.mem_cons_self
  have hnot : nb ∉ nbs := (List.nodup_cons.mp hback.nodup).1
  let f' : InsertFrame σ := { f with pc := .back lc cands nbs }
  have hstep : f.step rt m.index =
      (HNSWIndex.backLink (m := Id) rt m.index.rawAccess m.index lc f.q nb, some f') := by
    simp only [InsertFrame.step, hpc, f']
  have hcall' : th.call = some (.insert f') := by rw [hth, hstep]; rfl
  exact {
    owed := ⟨t, (owes_back hcall hpc).mpr ⟨rfl, rfl, List.mem_cons_self⟩⟩
    links := fun hroom k y => by
      obtain ⟨ls, heq, -, -, hls⟩ := backLink_raw rt (q := f.q) hlayer
      have hlen : (((m.index.links lc nb ++ [f.q]).length : Int) ≤ m.index.maxLinks lc) := by
        rw [List.length_append, List.length_singleton]
        exact_mod_cast hroom
      rw [hstep]
      change (HNSWIndex.backLink (m := Id) rt m.index.rawAccess m.index lc f.q nb).links k y = _
      rw [heq, hls hlen]
      exact links_setLinks_of_lt hlayer _ k y
    owes := fun l x y => by
      refine (exists_setThread (fun th => th.Owes l x y) m _ t th).trans ?_
      refine Iff.trans ?_ (and_congr_left' (exists_thread (fun th => th.Owes l x y) m t)).symm
      constructor
      · rintro (hy | ⟨u, hut, hu⟩)
        · obtain ⟨rfl, rfl, hmem⟩ := (owes_back hcall' rfl).mp hy
          refine ⟨.inl ((owes_back hcall hpc).mpr ⟨rfl, rfl, List.mem_cons_of_mem nb hmem⟩), ?_⟩
          exact fun hc => hnot (hc.2.2 ▸ hmem)
        · exact ⟨.inr ⟨u, hut, hu⟩, fun hc => (h.other hcall hap hut).1 l y (hc.2.1 ▸ hu)⟩
      · rintro ⟨hy | hothers, hne⟩
        · obtain ⟨rfl, rfl, hmem⟩ := (owes_back hcall hpc).mp hy
          rcases List.mem_cons.mp hmem with rfl | hmem
          · exact absurd ⟨rfl, rfl, rfl⟩ hne
          · exact .inl ((owes_back hcall' rfl).mpr ⟨rfl, rfl, hmem⟩)
        · exact .inr hothers
    toCome := fun l x hl => by
      rcases (exists_setThread (fun th => th.ToCome l x) m _ t th).mp hl with ⟨g, hg, hq, hl⟩ | ⟨u, -, hu⟩
      · obtain rfl := frame_unique hcall' hg
        exact ⟨t, f, hcall, hq, by rwa [hpc]⟩
      · exact ⟨u, hu⟩ }

/-- What a step of the machine does to the links and to what is owed. -/
theorem Linked.next_links (h : Linked γ m) (e : Nat × Action dim) :
    (FindsEmpty m e ∧ Keeps m (m.next rt e)) ∨
    (∃ lc q nbs, (FindsEmpty m e ↔ m.index.links lc q = []) ∧ Assigns γ m (m.next rt e) lc q nbs) ∨
    ∃ lc q nb, FindsEmpty m e ∧
      (NeverFull m e → ((m.index.links lc nb).length + 1 : Int) ≤ m.index.maxLinks lc) ∧
      LinksBack m (m.next rt e) lc q nb := by
  rcases m.next_cases rt e with ⟨hsame, hidle⟩ | ⟨c, hidle, hc, hnext⟩ | ⟨c, hcall, hstep, hnext⟩
  · refine .inl ⟨fun hstep p hp => ?_, ?_⟩
    · simp [Thread.assigns, hidle hstep] at hp
    · rw [hsame]
      exact ⟨rfl, fun _ _ _ => Iff.rfl, fun _ _ => .inl⟩
  · refine .inl ⟨fun _ p hp => ?_, ?_⟩
    · simp [Thread.assigns, hidle] at hp
    · rw [hnext]
      refine keeps_of_idle rfl (fun f hf => nomatch hidle.symm.trans hf) fun f hf => ?_
      exact pc_of_call (hc.trans (congrArg some (Option.some.inj hf)))
  · rw [hnext]
    cases c with
    | insert f =>
      have hassigns : (m.threads e.1).assigns = f.assigns := by rw [Thread.assigns, hcall]
      have howes : (m.threads e.1).owesNext = f.owed.head? := by rw [Thread.owesNext, hcall]
      -- a region that writes no link, the assignment of the new list, or one back link
      rcases InsertFrame.step_links rt m.index f with hquiet | ⟨lc, cands, hpc⟩ | ⟨lc, cands, nb, nbs, hpc⟩
      · refine .inl ⟨fun _ p hp => ?_, keeps_of_quiet hcall hquiet rfl⟩
        rw [hassigns, hquiet.assigns] at hp
        contradiction
      · have hf : f.assigns = some (lc, f.q) := by rw [InsertFrame.assigns, hpc]
        refine .inr (.inl ⟨lc, f.q, _, ⟨fun h => ?_, fun hlinks _ p hp => ?_⟩, h.assigns rt hcall hpc rfl⟩)
        · exact h hstep (lc, f.q) (hassigns.trans hf)
        · obtain rfl := Option.some.inj (hf.symm.trans (hassigns.symm.trans hp))
          exact hlinks
      · have hf : f.assigns = none := by rw [InsertFrame.assigns, hpc]
        have howed : f.owed.head? = some (lc, nb) := by
          rw [InsertFrame.owed, hpc]
          rfl
        refine .inr (.inr ⟨lc, f.q, nb, fun _ p hp => ?_, fun hroom => ?_, h.linksBack rt hcall hpc rfl⟩)
        · rw [hassigns, hf] at hp
          contradiction
        · exact hroom hstep (lc, nb) (howes.trans howed)
    | search f =>
      have hnone : ∀ g, (m.threads e.1).call ≠ some (.insert g) := fun g hg => nomatch hcall.symm.trans hg
      refine .inl ⟨fun _ p hp => ?_, ?_⟩
      · simp [Thread.assigns, hcall] at hp
      · unfold Machine.callStep
        dsimp only
        split
        · exact keeps_of_idle rfl (fun g hg => absurd hg (hnone g)) nofun
        · exact keeps_of_idle rfl (fun g hg => absurd hg (hnone g)) nofun
    | delete id =>
      have hnone : ∀ g, (m.threads e.1).call ≠ some (.insert g) := fun g hg => nomatch hcall.symm.trans hg
      have hlinks : (m.index.deleteVector id).links = m.index.links := by
        unfold HNSWIndex.deleteVector
        split <;> rfl
      refine .inl ⟨fun _ p hp => ?_, keeps_of_idle hlinks (fun g hg => absurd hg (hnone g)) nofun⟩
      simp [Thread.assigns, hcall] at hp

theorem Paired.next (h : Paired m) (hm : Linked γ m) (hempty : FindsEmpty m e) (hroom : NeverFull m e) :
    Paired (m.next rt e) := by
  rcases hm.next_links rt e with ⟨-, hkeeps⟩ | ⟨lc, q, nbs, hiff, hassigns⟩ | ⟨lc, q, nb, -, hlt, hback⟩
  · exact h.keeps hkeeps
  · exact h.assigns hassigns (hiff.mp hempty)
  · exact h.linksBack hback (hlt hroom)

theorem Lost.next {l x y : Nat} (h : Lost m l x y) (hm : Linked γ m) (hroom : NeverFull m e) :
    Lost (m.next rt e) l x y := by
  rcases hm.next_links rt e with ⟨-, hkeeps⟩ | ⟨lc, q, nbs, -, hassigns⟩ | ⟨lc, q, nb, -, hlt, hback⟩
  · have hx : x < m.index.numVectors := hm.index.graph_length ▸ lt_length_of_mem_links h.link
    have hy : y < m.index.numVectors := hm.index.lt (hm.index.in_layer l x y h.link)
    exact h.keeps hx hy hkeeps
  · exact h.assigns hassigns
  · exact h.linksBack hback (hlt hroom)

/-! ### Whole runs -/

end Machine

end Concurrent

end NeuralDb
