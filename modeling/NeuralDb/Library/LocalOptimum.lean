import Mathlib.Data.Set.Card
import NeuralDb.Library.BeamSearch

/-! What a finished beam search guarantees: its results are reachable, no node is expanded twice, and a
node that is missing next to a result is no better than any result of a full beam. -/

namespace NeuralDb.Library.Beam

variable {σ ν : Type} [LinearOrder σ] [LinearOrder ν] {sim : ν → σ} {P : ν → Prop} {ef : Int} {b : Beam σ ν}
  {links : ν → List ν}

/-- The node `x` has been left out, or pushed out, by results that are no worse. -/
def Dropped (sim : ν → σ) (ef : Int) (b : Beam σ ν) (x : ν) : Prop :=
  ef ≤ (b.results.length : Int) ∧ ∀ r ∈ b.results, sim x ≤ r.1

/-- A stamped node is a result or has been dropped. -/
def Settled (sim : ν → σ) (ef : Int) (b : Beam σ ν) (x : ν) : Prop :=
  x ∈ b.results.map Prod.snd ∨ b.Dropped sim ef x

theorem worst_le (h : b.Shape sim P) {r : σ × ν} (hr : r ∈ b.results) : b.worst ≤ (r.1 : WithBot σ) := by
  unfold worst
  cases hres : b.results with
  | nil => exact bot_le
  | cons w ws =>
    have hord := h.results_ordered
    rw [hres] at hord hr
    rcases List.mem_cons.mp hr with rfl | hr
    · exact le_rfl
    · exact WithBot.coe_le_coe.mpr (nearer_fst ((List.pairwise_cons.mp hord).1 r hr))

theorem exists_worst (h : b.Shape sim P) : ∃ w ∈ b.results, b.worst = (w.1 : WithBot σ) := by
  unfold worst
  cases hres : b.results with
  | nil => exact absurd hres h.results_ne
  | cons w ws => exact ⟨w, List.mem_cons_self, rfl⟩

/-- What the source calls `worst` bounds the results from below, also after a push. -/
theorem head_le (h : b.Shape sim P) {w : σ × ν} {ws : List (σ × ν)} (hres : b.results = w :: ws) :
    ∀ r ∈ b.results, w.1 ≤ r.1 := by
  intro r hr
  have hle := worst_le h hr
  rw [worst, hres] at hle
  exact WithBot.coe_le_coe.mp hle

/-- A push settles the node that it takes, and leaves the others settled. -/
theorem settled_push (h : b.Inv sim P ef) {x : ν}
    (hkeep : b.worst < (sim x : WithBot σ) ∨ (b.results.length : Int) < ef) {y : ν}
    (hy : y = x ∨ b.Settled sim ef y) : ((b.visit x).push (sim x, x)).Settled sim ef y := by
  obtain ⟨w, hw, hworst⟩ := exists_worst h.toShape
  rcases hy with rfl | hmem | ⟨hfull, hbound⟩
  · exact .inl (List.mem_map_of_mem ((mem_push_results _ _ _).mpr (.inl rfl)))
  · obtain ⟨p, hp, rfl⟩ := List.mem_map.mp hmem
    exact .inl (List.mem_map_of_mem ((mem_push_results _ _ _).mpr (.inr hp)))
  · refine .inr ⟨?_, fun r hr => ?_⟩
    · rw [push_results_length, visit_results]
      omega
    · rcases (mem_push_results _ _ _).mp hr with rfl | hr
      · rcases hkeep with hlt | hroom
        · rw [hworst] at hlt
          exact (hbound w hw).trans (WithBot.coe_lt_coe.mp hlt).le
        · omega
      · exact hbound r hr

theorem Settled.popResult (h : b.Shape sim P) (hover : ef < b.results.length) {y : ν}
    (hy : b.Settled sim ef y) : b.popResult.Settled sim ef y := by
  cases hres : b.results with
  | nil => exact absurd hres h.results_ne
  | cons t ts =>
    have htop := head_le h hres
    have hfull : ef ≤ (ts.length : Int) := by
      rw [hres, List.length_cons] at hover
      omega
    have hts : b.popResult.results = ts := by rw [popResult_results, hres, List.tail_cons]
    unfold Settled Dropped at hy ⊢
    rw [hts]
    rw [hres] at hy htop
    rcases hy with hmem | ⟨-, hbound⟩
    · rcases List.mem_cons.mp hmem with rfl | hmem
      · refine .inr ⟨hfull, fun r hr => ?_⟩
        rw [← h.results_scored t (hres ▸ List.mem_cons_self)]
        exact htop r (List.mem_cons_of_mem t hr)
      · exact .inl hmem
    · exact .inr ⟨hfull, fun r hr => hbound r (List.mem_cons_of_mem t hr)⟩

theorem settled_offer (h : b.Inv sim P ef) {x : ν} (hx : x ∉ b.visited) (hP : P x)
    {y : ν} (hy : y = x ∨ b.Settled sim ef y) :
    ((b.visit x).offer ef (sim x, x)).Settled sim ef y := by
  unfold Beam.offer
  split_ifs with hkeep hover
  · exact (settled_push h hkeep hy).popResult (h.toShape.pushNew hx hP) hover
  · exact settled_push h hkeep hy
  · obtain ⟨hworse, hfull⟩ := not_or.mp hkeep
    rcases hy with rfl | hy
    · refine .inr ⟨not_lt.mp hfull, fun r hr => ?_⟩
      have hle := (not_lt.mp hworse).trans (worst_le h.toShape hr)
      exact WithBot.coe_le_coe.mp hle
    · exact hy

/-- A result is queued, or its links are stamped up to those that are `missing`. -/
structure Closing (sim : ν → σ) (links : ν → List ν) (ef : Int) (missing : ν → ν → Prop) (b : Beam σ ν) :
    Prop where
  settled : ∀ x ∈ b.visited, b.Settled sim ef x
  cands_ordered : b.cands.Pairwise nearer
  cands_nodup : (b.cands.map Prod.snd).Nodup
  expanded : ∀ r ∈ b.results, r ∈ b.cands ∨ ∀ y ∈ links r.2, y ∈ b.visited ∨ missing r.2 y

variable {missing missing' : ν → ν → Prop}

theorem Closing.mono (h : b.Closing sim links ef missing)
    (hm : ∀ x y, missing x y → y ∈ b.visited ∨ missing' x y) : b.Closing sim links ef missing' :=
  { h with
    expanded := fun r hr => (h.expanded r hr).imp_right fun hlinks y hy => by
      rcases hlinks y hy with hv | hmiss
      · exact .inl hv
      · exact hm _ _ hmiss }

theorem closing_start (e : ν) : (start e (sim e)).Closing sim links ef missing where
  settled x hx := .inl (by simpa [start] using hx)
  cands_ordered := List.pairwise_singleton _ _
  cands_nodup := List.nodup_singleton e
  expanded r hr := .inl hr

theorem offer_cases (ef : Int) (b : Beam σ ν) (p : σ × ν) :
    b.offer ef p = b ∨
      (b.offer ef p).cands = b.cands.orderedInsert nearer p ∧ ∀ r ∈ (b.offer ef p).results, r = p ∨ r ∈ b.results := by
  unfold offer
  split_ifs
  · exact .inr ⟨rfl, fun r hr => (mem_push_results b p r).mp (List.mem_of_mem_tail hr)⟩
  · exact .inr ⟨rfl, fun r hr => (mem_push_results b p r).mp hr⟩
  · exact .inl rfl

theorem offer_cands (ef : Int) (b : Beam σ ν) (p : σ × ν) :
    (b.offer ef p).cands = b.cands ∨ (b.offer ef p).cands.Perm (p :: b.cands) := by
  rcases offer_cases ef b p with h | ⟨h, -⟩
  · exact .inl (by rw [h])
  · exact .inr (h ▸ List.perm_orderedInsert _ _ _)

theorem Closing.offer (hc : b.Closing sim links ef missing) (h : b.Inv sim P ef) {x : ν} (hx : x ∉ b.visited)
    (hP : P x) (hm : ∀ z y, missing z y → y = x ∨ missing' z y) :
    ((b.visit x).offer ef (sim x, x)).Closing sim links ef missing' where
  settled y hy := by
    rw [offer_visited] at hy
    exact settled_offer h hx hP ((List.mem_cons.mp hy).imp_right (hc.settled y))
  cands_ordered := by
    rcases offer_cases ef (b.visit x) (sim x, x) with heq | ⟨hcands, -⟩
    · rw [heq]
      exact hc.cands_ordered
    · rw [hcands]
      exact hc.cands_ordered.orderedInsert _ _
  cands_nodup := by
    rcases offer_cands ef (b.visit x) (sim x, x) with heq | hperm
    · rw [heq]
      exact hc.cands_nodup
    · refine (hperm.map Prod.snd).nodup_iff.mpr (List.nodup_cons.mpr ⟨fun hmem => ?_, hc.cands_nodup⟩)
      obtain ⟨p, hp, rfl⟩ := List.mem_map.mp hmem
      exact hx (h.cands_visited p hp)
  expanded r hr := by
    have hold : r ∈ b.results → (r ∈ b.cands ∨ ∀ y ∈ links r.2,
        y ∈ ((b.visit x).offer ef (sim x, x)).visited ∨ missing' r.2 y) := by
      intro hr
      refine (hc.expanded r hr).imp_right fun hlinks y hy => ?_
      rw [offer_visited]
      rcases hlinks y hy with hv | hmiss
      · exact .inl (List.mem_cons_of_mem x hv)
      · rcases hm _ _ hmiss with rfl | hmiss
        · exact .inl List.mem_cons_self
        · exact .inr hmiss
    rcases offer_cases ef (b.visit x) (sim x, x) with heq | ⟨hcands, hres⟩
    · rw [heq] at hr
      have hold := hold hr
      rwa [heq] at hold ⊢
    · rw [hcands, List.mem_orderedInsert]
      rcases hres r hr with rfl | hr
      · exact .inl (.inl rfl)
      · exact (hold hr).imp_left .inr

theorem Closing.popCand (hc : b.Closing sim links ef fun _ _ => False) {c : σ × ν} {cs : List (σ × ν)}
    (hcs : b.cands = c :: cs) :
    Closing sim links ef (fun z y => z = c.2 ∧ y ∈ links c.2) { b with cands := cs } where
  settled := hc.settled
  cands_ordered := (List.pairwise_cons.mp (hcs ▸ hc.cands_ordered)).2
  cands_nodup := by
    have hnodup := hc.cands_nodup
    rw [hcs] at hnodup
    exact (List.nodup_cons.mp hnodup).2
  expanded r hr := by
    rcases hc.expanded r hr with hmem | hlinks
    · rcases List.mem_cons.mp (hcs ▸ hmem) with rfl | hmem
      · exact .inr fun y hy => .inr ⟨rfl, hy⟩
      · exact .inl hmem
    · exact .inr fun y hy => .inl ((hlinks y hy).resolve_right id)

/-- The neighbour loop stamps what was missing. -/
theorem closing_expand (c : ν) (xs : List ν) (h : b.Inv sim P ef) (hxs : ∀ x ∈ xs, P x)
    (hc : b.Closing sim links ef fun z y => z = c ∧ y ∈ xs) :
    Closing sim links ef (fun _ _ => False) (expand (m := Id) sim ef xs b) := by
  induction xs generalizing b with
  | nil => exact hc.mono fun z y hm => absurd hm.2 List.not_mem_nil
  | cons x xs ih =>
    have hrest : ∀ y ∈ xs, P y := fun y hy => hxs y (List.mem_cons_of_mem x hy)
    have hP := hxs x List.mem_cons_self
    rw [expand]
    split_ifs with hx
    · refine ih h hrest (hc.mono fun z y hm => ?_)
      rcases List.mem_cons.mp hm.2 with rfl | hy
      · exact .inl hx
      · exact .inr ⟨hm.1, hy⟩
    · refine ih (h.offer hx hP) hrest (hc.offer h hx hP fun z y hm => ?_)
      exact (List.mem_cons.mp hm.2).imp_right fun hy => ⟨hm.1, hy⟩

/-- A search that has run to its end: no link of a result is unstamped. -/
structure Finished (sim : ν → σ) (links : ν → List ν) (ef : Int) (b : Beam σ ν) : Prop where
  settled : ∀ x ∈ b.visited, b.Settled sim ef x
  closed : ∀ r ∈ b.results, ∀ y ∈ links r.2, y ∈ b.visited

theorem finished_loop {n : Nat} (hn : ∀ l : List ν, l.Nodup → (∀ x ∈ l, P x) → l.length ≤ n)
    (hP : ∀ x, P x → ∀ y ∈ links x, P y) (fuel : Nat) (h : b.Inv sim P ef)
    (hc : b.Closing sim links ef fun _ _ => False) (hfuel : pending n b ≤ fuel) :
    Finished sim links ef (loop (m := Id) links sim ef fuel b) := by
  have hempty : b.cands = [] → Finished sim links ef b := fun hnil =>
    ⟨hc.settled, fun r hr y hy => by
      rcases hc.expanded r hr with hmem | hlinks
      · exact absurd (hnil ▸ hmem) List.not_mem_nil
      · exact (hlinks y hy).resolve_right id⟩
  induction fuel generalizing b with
  | zero =>
    apply hempty
    apply List.eq_nil_of_length_eq_zero
    rw [pending] at hfuel
    omega
  | succ fuel ih =>
    rw [loop]
    split
    · next hnil => exact hempty hnil
    · next c cs hcs =>
      have hpop := h.popCand hcs
      split_ifs with hstop
      · -- every queued node is worse than the results, so none of these is queued
        refine ⟨hc.settled, fun r hr y hy => ?_⟩
        rcases hc.expanded r hr with hmem | hlinks
        · have hle : r.1 ≤ c.1 := by
            rcases List.mem_cons.mp (hcs ▸ hmem) with rfl | hmem
            · exact le_rfl
            · exact nearer_fst ((List.pairwise_cons.mp (hcs ▸ hc.cands_ordered)).1 r hmem)
          have hlt := hstop.1.trans_le (worst_le h.toShape hr)
          exact absurd hle (not_le.mpr (WithBot.coe_lt_coe.mp hlt))
        · exact (hlinks y hy).resolve_right id
      · have hlinks := hP _ (h.cand_in (hcs ▸ List.mem_cons_self))
        have hle := pending_expand hn _ hpop hlinks
        -- the expansion queues at most what it stamps, so one pending node is used up
        have hone : pending n { b with cands := cs } + 1 = pending n b := by
          simp only [pending, hcs, List.length_cons]
          omega
        have hclosing := closing_expand c.2 _ hpop hlinks (hc.popCand hcs)
        refine ih (inv_expand _ hpop hlinks) hclosing (by omega) fun hnil => ?_
        refine ⟨hclosing.settled, fun r hr y hy => ?_⟩
        rcases hclosing.expanded r hr with hmem | hall
        · exact absurd (hnil ▸ hmem) List.not_mem_nil
        · exact (hall y hy).resolve_right id

/-- The nodes that the loop expands, in order. -/
def expansions (links : ν → List ν) (sim : ν → σ) (ef : Int) : Nat → Beam σ ν → List ν
  | 0, _ => []
  | fuel + 1, b =>
    match b.cands with
    | [] => []
    | c :: cs =>
      if b.stops ef c then []
      else c.2 :: expansions links sim ef fuel (expand (m := Id) sim ef (links c.2) { b with cands := cs })

section Search

variable {e : ν} {fuel : Nat}

variable (sim ef) in
theorem search_finished {n : Nat} (hn : ∀ l : List ν, l.Nodup → (∀ x ∈ l, P x) → l.length ≤ n)
    (hP : ∀ x, P x → ∀ y ∈ links x, P y) (he : P e) (hfuel : n ≤ fuel) :
    ∃ b : Beam σ ν, b.Inv sim P ef ∧ b.Finished sim links ef ∧ e ∈ b.visited ∧
      search (m := Id) links sim ef fuel e = b.results := by
  have hone : 1 ≤ n := hn [e] (List.nodup_singleton e) (by simpa using he)
  have hpending : pending n (start e (sim e)) ≤ fuel := by
    simp only [pending, start, List.length_singleton]
    omega
  exact ⟨loop (m := Id) links sim ef fuel (start e (sim e)), inv_loop fuel (inv_start he) hP,
    finished_loop hn hP fuel (inv_start he) (closing_start e) hpending,
    visited_subset_loop fuel _ (List.mem_singleton.mpr rfl), rfl⟩

variable (h : b.Inv sim P ef) (hf : b.Finished sim links ef) (he : e ∈ b.visited)
include h hf

theorem Finished.entry_le (he : e ∈ b.visited) : ∃ r ∈ b.results, sim e ≤ r.1 := by
  rcases hf.settled e he with hmem | ⟨-, hbound⟩
  · obtain ⟨r, hr, rfl⟩ := List.mem_map.mp hmem
    exact ⟨r, hr, (h.results_scored r hr).ge⟩
  · obtain ⟨r, hr⟩ := List.exists_mem_of_ne_nil _ h.results_ne
    exact ⟨r, hr, hbound r hr⟩

/-- A link of a result leads to a result, or to a node that a full beam has no place for. -/
theorem Finished.link (hef : 1 ≤ ef) {r : σ × ν} (hr : r ∈ b.results) {y : ν} (hy : y ∈ links r.2) :
    y ∈ b.results.map Prod.snd ∨ (b.results.length : Int) = ef ∧ ∀ q ∈ b.results, sim y ≤ q.1 := by
  refine (hf.settled y (hf.closed r hr y hy)).imp_right fun hdrop => ⟨?_, hdrop.2⟩
  have := h.results_le
  have := hdrop.1
  omega

/-- A beam that is not full holds everything that can be reached from `e`. -/
theorem Finished.full_or_all (hef : 1 ≤ ef) (he : e ∈ b.visited) :
    (b.results.length : Int) = ef ∨
      ∀ y, Relation.ReflTransGen (fun x y => y ∈ links x) e y → y ∈ b.results.map Prod.snd := by
  by_cases hfull : (b.results.length : Int) = ef
  · exact .inl hfull
  right
  have hkept : ∀ x ∈ b.visited, x ∈ b.results.map Prod.snd := by
    intro x hx
    refine (hf.settled x hx).resolve_right fun hdrop => hfull ?_
    have := h.results_le
    have := hdrop.1
    omega
  intro y hy
  induction hy with
  | refl => exact hkept e he
  | tail _ hlink ih =>
    obtain ⟨r, hr, rfl⟩ := List.mem_map.mp ih
    exact hkept _ (hf.closed r hr _ hlink)

end Search

end NeuralDb.Library.Beam
