import NeuralDb.Library.LocalOptimum
import NeuralDb.Library.TopK

/-! Two beams of different widths on one graph, when no two nodes are equally similar. The wider one takes the
steps of the narrower one first, in the same order, and goes on from there. -/

namespace NeuralDb.Library.Beam

variable {σ ν : Type} [LinearOrder σ] [LinearOrder ν] {sim : ν → σ} {P : ν → Prop} {ef ef' : Int}
  {b b' : Beam σ ν} {links : ν → List ν}

theorem nearer_antisymm {p q : σ × ν} (h : nearer p q) (h' : nearer q p) : p = q := by
  have hsim : p.1 = q.1 := le_antisymm (nearer_fst h') (nearer_fst h)
  rcases h with hlt | ⟨-, hle⟩
  · exact absurd hsim hlt.ne'
  · rcases h' with hlt' | ⟨-, hle'⟩
    · exact absurd hsim hlt'.ne
    · exact Prod.ext hsim (le_antisymm hle hle')

/-- A beam in the course of its search: what is missing from its results has been dropped. -/
structure Going (sim : ν → σ) (P : ν → Prop) (ef : Int) (b : Beam σ ν) : Prop where
  inv : b.Inv sim P ef
  closing : b.Closing sim (fun _ => []) ef fun _ _ => False

theorem going_start {e : ν} (he : P e) : (start e (sim e)).Going sim P ef := ⟨inv_start he, closing_start e⟩

theorem Going.popCand (h : b.Going sim P ef) {c : σ × ν} {cs : List (σ × ν)} (hc : b.cands = c :: cs) :
    Going sim P ef { b with cands := cs } :=
  ⟨h.inv.popCand hc, (h.closing.popCand hc).mono fun _ _ hm => absurd hm.2 List.not_mem_nil⟩

theorem Going.offer (h : b.Going sim P ef) {x : ν} (hx : x ∉ b.visited) (hP : P x) :
    ((b.visit x).offer ef (sim x, x)).Going sim P ef :=
  ⟨h.inv.offer hx hP, h.closing.offer h.inv hx hP fun _ _ hm => hm.elim⟩

theorem Going.expand (xs : List ν) (h : b.Going sim P ef) (hxs : ∀ x ∈ xs, P x) :
    Going sim P ef (expand (m := Id) sim ef xs b) := by
  induction xs generalizing b with
  | nil => exact h
  | cons x xs ih =>
    have hrest : ∀ y ∈ xs, P y := fun y hy => hxs y (List.mem_cons_of_mem x hy)
    rw [Beam.expand]
    split_ifs with hx
    · exact ih h hrest
    · exact ih (h.offer hx (hxs x List.mem_cons_self)) hrest

theorem Going.loop (fuel : Nat) (h : b.Going sim P ef) (hP : ∀ x, P x → ∀ y ∈ links x, P y) :
    Going sim P ef (loop (m := Id) links sim ef fuel b) := by
  induction fuel generalizing b with
  | zero => exact h
  | succ fuel ih =>
    rw [Beam.loop]
    split
    · exact h
    · next c cs hc =>
      split_ifs
      · exact h.popCand hc
      · exact ih ((h.popCand hc).expand _ (hP _ (h.inv.cand_in (hc ▸ List.mem_cons_self))))

/-- Two entries for one node are equal. -/
theorem Going.result_eq (h : b.Going sim P ef) (h' : b'.Going sim P ef') {p q : σ × ν} (hp : p ∈ b.results)
    (hq : q ∈ b'.results) (hpq : p.2 = q.2) : p = q :=
  Prod.ext (by rw [h.inv.results_scored p hp, h'.inv.results_scored q hq, hpq]) hpq

section Order

variable (hinj : ∀ x y, P x → P y → sim x = sim y → x = y)
include hinj

/-- A node that is not a result is strictly worse than all of them. -/
theorem Going.dropped_lt (h : b.Going sim P ef) {x : ν} (hx : P x) (hres : x ∉ b.results.map Prod.snd)
    (hdrop : ∀ r ∈ b.results, sim x ≤ r.1) : ∀ r ∈ b.results, sim x < r.1 := by
  intro r hr
  refine lt_of_le_of_ne (hdrop r hr) fun heq => hres ?_
  rw [h.inv.results_scored r hr] at heq
  exact hinj x r.2 hx (h.inv.result_in hr) heq ▸ List.mem_map_of_mem hr

end Order

/-- While the nodes of a full beam are known to the narrower one, that one is full as well. -/
theorem Going.full (h : b.Going sim P ef) (h' : b'.Shape sim P) (hle : ef ≤ ef') (hv : b'.visited = b.visited)
    (hfull : ef' ≤ (b'.results.length : Int)) : ef ≤ (b.results.length : Int) := by
  by_contra hroom
  have hkept : b.visited ⊆ b.results.map Prod.snd :=
    fun x hx => (h.closing.settled x hx).resolve_right fun hdrop => hroom hdrop.1
  have hlen := (List.subperm_of_subset h.inv.visited_nodup hkept).length_le
  have hlen' := h'.results_length_le
  rw [List.length_map] at hlen
  rw [hv] at hlen'
  omega

section Widths

variable (hinj : ∀ x y, P x → P y → sim x = sim y → x = y) (hef : 1 ≤ ef) (hle : ef ≤ ef')
include hinj hef hle

/-- Of the same nodes the wider beam keeps all that the narrower one keeps. -/
theorem Going.results_subset (h : b.Going sim P ef) (h' : b'.Going sim P ef') (hv : b'.visited = b.visited) :
    ∀ r ∈ b.results, r ∈ b'.results := by
  intro r hr
  have hP : P r.2 := h.inv.result_in hr
  rcases h'.closing.settled r.2 (hv ▸ h.inv.results_visited r hr) with hmem | ⟨hfull, hdrop⟩
  · obtain ⟨q, hq, hqr⟩ := List.mem_map.mp hmem
    exact h.result_eq h' hr hq hqr.symm ▸ hq
  · by_contra hout
    have hres : r.2 ∉ b'.results.map Prod.snd := fun hmem => by
      obtain ⟨q, hq, hqr⟩ := List.mem_map.mp hmem
      exact hout (h.result_eq h' hr hq hqr.symm ▸ hq)
    have hlt := h'.dropped_lt hinj hP hres hdrop
    -- all results of the wider beam are better than `r`, so they are results of the narrower one too
    have hbetter : ∀ q ∈ b'.results, q.2 ∈ b.results.map Prod.snd := by
      intro q hq
      refine (h.closing.settled q.2 (hv ▸ h'.inv.results_visited q hq)).resolve_right fun hq' => ?_
      have hge : sim q.2 ≤ r.1 := hq'.2 r hr
      rw [← h'.inv.results_scored q hq, h.inv.results_scored r hr] at hge
      exact absurd hge (not_le.mpr (hlt q hq))
    have hsub : r.2 :: b'.results.map Prod.snd ⊆ b.results.map Prod.snd := by
      refine List.cons_subset.mpr ⟨List.mem_map_of_mem hr, fun x hx => ?_⟩
      obtain ⟨q, hq, rfl⟩ := List.mem_map.mp hx
      exact hbetter q hq
    have hlen := (List.subperm_of_subset (List.nodup_cons.mpr ⟨hres, h'.inv.results_nodup⟩) hsub).length_le
    have hmax := h.inv.results_le
    simp only [List.length_cons, List.length_map] at hlen
    omega

end Widths

/-- Two beams that have stamped the same nodes. The wider one may have queued more, but nothing that the
narrower one would still expand. -/
structure Lockstep (sim : ν → σ) (P : ν → Prop) (ef ef' : Int) (b b' : Beam σ ν) : Prop where
  narrow : b.Going sim P ef
  wide : b'.Going sim P ef'
  visited : b'.visited = b.visited
  cands : ∀ p ∈ b.cands, p ∈ b'.cands
  extra : ∀ p ∈ b'.cands, p ∈ b.cands ∨ ef ≤ (b.results.length : Int) ∧ ∀ r ∈ b.results, p.1 < r.1

theorem lockstep_start {e : ν} (he : P e) : Lockstep sim P ef ef' (start e (sim e)) (start e (sim e)) where
  narrow := going_start he
  wide := going_start he
  visited := rfl
  cands _ hp := hp
  extra _ hp := .inl hp

theorem offer_of_keep {p : σ × ν} (h : b.worst < (p.1 : WithBot σ) ∨ (b.results.length : Int) < ef) :
    (b.offer ef p).cands = b.cands.orderedInsert nearer p ∧
      (∀ r ∈ (b.offer ef p).results, r = p ∨ r ∈ b.results) ∧
      (ef ≤ (b.results.length : Int) → ef ≤ ((b.offer ef p).results.length : Int)) := by
  unfold offer
  rw [if_pos h]
  split_ifs with hover
  · refine ⟨rfl, fun r hr => (mem_push_results b p r).mp (List.mem_of_mem_tail hr), fun hfull => ?_⟩
    rw [popResult_results, List.length_tail, push_results_length]
    omega
  · refine ⟨rfl, fun r hr => (mem_push_results b p r).mp hr, fun hfull => ?_⟩
    rw [push_results_length]
    omega

theorem offer_of_not_keep {p : σ × ν} (h : ¬ (b.worst < (p.1 : WithBot σ) ∨ (b.results.length : Int) < ef)) :
    b.offer ef p = b := if_neg h

theorem loop_go {c : σ × ν} {cs : List (σ × ν)} {fuel : Nat} (hc : b.cands = c :: cs) (hgo : ¬ b.stops ef c) :
    loop (m := Id) links sim ef (fuel + 1) b =
      loop (m := Id) links sim ef fuel (expand (m := Id) sim ef (links c.2) { b with cands := cs }) := by
  rw [loop, hc]
  exact if_neg hgo

namespace Lockstep

section Step

variable (hinj : ∀ x y, P x → P y → sim x = sim y → x = y) (hef : 1 ≤ ef) (hle : ef ≤ ef')
include hinj hef hle

/-- The worst result of the wider beam is no better than that of the narrower one. -/
theorem worst_le_worst (h : Lockstep sim P ef ef' b b') : b'.worst ≤ b.worst := by
  obtain ⟨w, hw, hworst⟩ := exists_worst h.narrow.inv.toShape
  rw [hworst]
  exact worst_le h.wide.inv.toShape (h.narrow.results_subset hinj hef hle h.wide h.visited w hw)

theorem stops (h : Lockstep sim P ef ef' b b') {c : σ × ν} (hc : b'.stops ef' c) : b.stops ef c :=
  ⟨hc.1.trans_le (h.worst_le_worst hinj hef hle), h.narrow.full h.wide.inv.toShape hle h.visited hc.2⟩

omit hinj hef hle in
/-- As long as the narrower beam goes on, the wider one takes the same candidate. -/
theorem pop (h : Lockstep sim P ef ef' b b') {c : σ × ν} {cs : List (σ × ν)} (hc : b.cands = c :: cs)
    (hgo : ¬ b.stops ef c) :
    ∃ cs', b'.cands = c :: cs' ∧ Lockstep sim P ef ef' { b with cands := cs } { b' with cands := cs' } := by
  have hmem : c ∈ b'.cands := h.cands c (hc ▸ List.mem_cons_self)
  cases hc' : b'.cands with
  | nil => exact absurd (hc' ▸ hmem) List.not_mem_nil
  | cons c' cs' =>
    have hordered := h.narrow.closing.cands_ordered
    have hordered' := h.wide.closing.cands_ordered
    have hnodup := h.narrow.closing.cands_nodup
    have hnodup' := h.wide.closing.cands_nodup
    rw [hc] at hordered hnodup
    rw [hc'] at hordered' hnodup' hmem
    have hfirst : c = c' := by
      rcases List.mem_cons.mp hmem with heq | hin
      · exact heq
      have hnear : nearer c' c := (List.pairwise_cons.mp hordered').1 c hin
      rcases h.extra c' (hc' ▸ List.mem_cons_self) with hin' | ⟨hfull, hbelow⟩
      · rcases List.mem_cons.mp (hc ▸ hin') with heq | hin'
        · exact heq.symm
        · exact nearer_antisymm ((List.pairwise_cons.mp hordered).1 c' hin') hnear
      · -- then the narrower beam would have stopped
        obtain ⟨w, hw, hworst⟩ := exists_worst h.narrow.inv.toShape
        have hlt : c.1 < w.1 := (nearer_fst hnear).trans_lt (hbelow w hw)
        exact absurd ⟨hworst ▸ WithBot.coe_lt_coe.mpr hlt, hfull⟩ hgo
    subst hfirst
    refine ⟨cs', rfl, h.narrow.popCand hc, h.wide.popCand hc', h.visited, fun p hp => ?_, fun p hp => ?_⟩
    · rcases List.mem_cons.mp (hc' ▸ h.cands p (hc ▸ List.mem_cons_of_mem c hp)) with rfl | hin
      · exact absurd (List.mem_map_of_mem hp) (List.nodup_cons.mp hnodup).1
      · exact hin
    · refine (h.extra p (hc' ▸ List.mem_cons_of_mem c hp)).imp_left fun hin => ?_
      rcases List.mem_cons.mp (hc ▸ hin) with rfl | hin
      · exact absurd (List.mem_map_of_mem hp) (List.nodup_cons.mp hnodup').1
      · exact hin

/-- What the narrower beam keeps, the wider one keeps. -/
theorem keep (h : Lockstep sim P ef ef' b b') {x : ν}
    (hkeep : b.worst < (sim x : WithBot σ) ∨ (b.results.length : Int) < ef) :
    b'.worst < (sim x : WithBot σ) ∨ (b'.results.length : Int) < ef' := by
  by_contra hnot
  obtain ⟨hworse, hfull⟩ := not_or.mp hnot
  have hfull' := h.narrow.full h.wide.inv.toShape hle h.visited (not_lt.mp hfull)
  rcases hkeep with hlt | hroom
  · exact hworse ((h.worst_le_worst hinj hef hle).trans_lt hlt)
  · omega

theorem offer (h : Lockstep sim P ef ef' b b') {x : ν} (hx : x ∉ b.visited) (hP : P x) :
    Lockstep sim P ef ef' ((b.visit x).offer ef (sim x, x)) ((b'.visit x).offer ef' (sim x, x)) := by
  have hx' : x ∉ b'.visited := h.visited.symm ▸ hx
  have hnew : x ∉ b.results.map Prod.snd := fun hmem => by
    obtain ⟨r, hr, rfl⟩ := List.mem_map.mp hmem
    exact hx (h.narrow.inv.results_visited r hr)
  obtain ⟨w, hw, hworst⟩ := exists_worst h.narrow.inv.toShape
  have hvisited : ((b'.visit x).offer ef' (sim x, x)).visited = ((b.visit x).offer ef (sim x, x)).visited := by
    rw [offer_visited, offer_visited, visit_visited, visit_visited, h.visited]
  by_cases hkeep : b.worst < (sim x : WithBot σ) ∨ (b.results.length : Int) < ef
  · obtain ⟨hcands, hresults, hfull⟩ := offer_of_keep (b := b.visit x) (p := (sim x, x)) hkeep
    obtain ⟨hcands', -, -⟩ := offer_of_keep (b := b'.visit x) (p := (sim x, x)) (h.keep hinj hef hle hkeep)
    refine ⟨h.narrow.offer hx hP, h.wide.offer hx' hP, hvisited, fun p hp => ?_, fun p hp => ?_⟩
    · rw [hcands, List.mem_orderedInsert] at hp
      rw [hcands', List.mem_orderedInsert]
      exact hp.imp_right (h.cands p)
    · rw [hcands', List.mem_orderedInsert] at hp
      rw [hcands, List.mem_orderedInsert]
      rcases hp with rfl | hp
      · exact .inl (.inl rfl)
      · refine (h.extra p hp).imp .inr fun hextra => ⟨hfull hextra.1, fun r hr => ?_⟩
        rcases hresults r hr with rfl | hr
        · -- the beam is full, so the new result is better than the worst one
          have hlt : w.1 < sim x := by
            refine WithBot.coe_lt_coe.mp (hworst ▸ hkeep.resolve_right ?_)
            exact not_lt.mpr hextra.1
          exact (hextra.2 w hw).trans hlt
        · exact hextra.2 r hr
  · have hsame : (b.visit x).offer ef (sim x, x) = b.visit x := offer_of_not_keep hkeep
    have hgoing := h.narrow.offer hx hP
    obtain ⟨hworse, hfull⟩ := not_or.mp hkeep
    rw [hsame] at hvisited hgoing ⊢
    have hbelow : ∀ r ∈ b.results, sim x < r.1 := by
      have hdrop : ∀ r ∈ b.results, sim x ≤ r.1 := fun r hr =>
        WithBot.coe_le_coe.mp ((not_lt.mp hworse).trans (worst_le h.narrow.inv.toShape hr))
      exact h.narrow.dropped_lt hinj hP hnew hdrop
    have hextra : ∀ p ∈ b'.cands, p ∈ b.cands ∨ ef ≤ (b.results.length : Int) ∧ ∀ r ∈ b.results, p.1 < r.1 :=
      h.extra
    rcases offer_cands ef' (b'.visit x) (sim x, x) with hcands' | hcands'
    · refine ⟨hgoing, h.wide.offer hx' hP, hvisited, fun p hp => ?_, fun p hp => ?_⟩
      · rw [hcands']
        exact h.cands p hp
      · rw [hcands'] at hp
        exact hextra p hp
    · refine ⟨hgoing, h.wide.offer hx' hP, hvisited, fun p hp => ?_, fun p hp => ?_⟩
      · exact hcands'.mem_iff.mpr (List.mem_cons_of_mem _ (h.cands p hp))
      · rcases List.mem_cons.mp (hcands'.mem_iff.mp hp) with rfl | hp
        · exact .inr ⟨not_lt.mp hfull, hbelow⟩
        · exact hextra p hp

theorem expand (xs : List ν) (h : Lockstep sim P ef ef' b b') (hxs : ∀ x ∈ xs, P x) :
    Lockstep sim P ef ef' (expand (m := Id) sim ef xs b) (Beam.expand (m := Id) sim ef' xs b') := by
  induction xs generalizing b b' with
  | nil => exact h
  | cons x xs ih =>
    have hrest : ∀ y ∈ xs, P y := fun y hy => hxs y (List.mem_cons_of_mem x hy)
    rw [Beam.expand, Beam.expand, h.visited]
    split_ifs with hx
    · exact ih h hrest
    · exact ih (h.offer hinj hef hle hx (hxs x List.mem_cons_self)) hrest

/-- The wider search expands, in the same order, what the narrower one expands, and stamps what that one
stamps. -/
theorem loop (hP : ∀ x, P x → ∀ y ∈ links x, P y) (fuel : Nat) (h : Lockstep sim P ef ef' b b') :
    expansions links sim ef fuel b <+: expansions links sim ef' fuel b' ∧
      Beam.visited (loop (m := Id) links sim ef fuel b) ⊆
        Beam.visited (Beam.loop (m := Id) links sim ef' fuel b') := by
  induction fuel generalizing b b' with
  | zero => exact ⟨List.prefix_rfl, h.visited ▸ List.Subset.refl _⟩
  | succ fuel ih =>
    have hstopped : b.visited ⊆ Beam.visited (Beam.loop (m := Id) links sim ef' (fuel + 1) b') :=
      h.visited ▸ visited_subset_loop (fuel + 1) b'
    cases hc : b.cands with
    | nil =>
      have hloop : Beam.loop (m := Id) links sim ef (fuel + 1) b = b := by
        rw [Beam.loop, hc]
        rfl
      rw [hloop, expansions, hc]
      exact ⟨List.nil_prefix, hstopped⟩
    | cons c cs =>
      by_cases hstop : b.stops ef c
      · have hloop : Beam.loop (m := Id) links sim ef (fuel + 1) b = { b with cands := cs } := by
          rw [Beam.loop, hc]
          exact if_pos hstop
        rw [hloop, expansions, hc]
        simp only [if_pos hstop]
        exact ⟨List.nil_prefix, hstopped⟩
      · obtain ⟨cs', hc', hpop⟩ := h.pop hc hstop
        have hstop' : ¬ b'.stops ef' c := fun hs => hstop (h.stops hinj hef hle hs)
        have hlinks := hP c.2 (h.narrow.inv.cand_in (hc ▸ List.mem_cons_self))
        rw [loop_go hc hstop, loop_go hc' hstop', expansions, expansions, hc, hc']
        simp only [if_neg hstop, if_neg hstop']
        obtain ⟨hbefore, hvisited⟩ := ih (hpop.expand hinj hef hle (links c.2) hlinks)
        exact ⟨List.cons_prefix_cons.mpr ⟨rfl, hbefore⟩, hvisited⟩

end Step

end Lockstep

/-! ### What two searches return -/

section Ranks

variable (hef : 1 ≤ ef) (hle : ef ≤ ef') (h : b.Going sim P ef) (h' : b'.Going sim P ef')
  (hv : b.visited ⊆ b'.visited)

include hef hle h h' hv

theorem results_length_le_of_visited : b.results.length ≤ b'.results.length := by
  have hmax := h.inv.results_le
  by_cases hfull : ef' ≤ (b'.results.length : Int)
  · omega
  · have hkept : b.results.map Prod.snd ⊆ b'.results.map Prod.snd := by
      intro x hx
      obtain ⟨r, hr, rfl⟩ := List.mem_map.mp hx
      have hmem := hv (h.inv.results_visited r hr)
      exact (h'.closing.settled r.2 hmem).resolve_right fun hdrop => hfull hdrop.1
    simpa using (List.subperm_of_subset h.inv.results_nodup hkept).length_le

/-- Rank by rank the beam that has stamped more, and is at least as wide, has the better results. -/
theorem rank_le_of_visited {out out' : List (σ × ν)} (hout : out.Perm b.results) (hout' : out'.Perm b'.results)
    (hdesc : out.Pairwise fun p q => q.1 ≤ p.1) (hdesc' : out'.Pairwise fun p q => q.1 ≤ p.1) {i : Nat}
    (hi : i < out.length) : ∃ hi' : i < out'.length, (out[i]).1 ≤ (out'[i]).1 := by
  classical
  have hlen : out.length ≤ out'.length := by
    rw [hout.length_eq, hout'.length_eq]
    exact results_length_le_of_visited hef hle h h' hv
  let rest := (b'.visited.filter fun x => decide (x ∉ b'.results.map Prod.snd)).map fun x => (sim x, x)
  have htop : TopSorted out'.length (out' ++ rest) := by
    refine ⟨by rwa [List.take_left], fun p hp q hq => ?_⟩
    rw [List.take_left] at hp
    rw [List.drop_left] at hq
    obtain ⟨x, hx, rfl⟩ := List.mem_map.mp hq
    obtain ⟨hvisited, hnot⟩ := List.mem_filter.mp hx
    have hdrop := (h'.closing.settled x hvisited).resolve_left (of_decide_eq_true hnot)
    exact hdrop.2 p (hout'.mem_iff.mp hp)
  have hnodup : out.Nodup := by
    refine List.Nodup.of_map Prod.snd ?_
    exact (hout.map Prod.snd).nodup_iff.mpr h.inv.results_nodup
  have hsub : out.Subperm (out' ++ rest) := by
    refine List.subperm_of_subset hnodup fun p hp => ?_
    have hp := hout.mem_iff.mp hp
    have hscore := h.inv.results_scored p hp
    by_cases hmem : p.2 ∈ b'.results.map Prod.snd
    · obtain ⟨q, hq, hqp⟩ := List.mem_map.mp hmem
      exact List.mem_append_left _ (hout'.mem_iff.mpr (h.result_eq h' hp hq hqp.symm ▸ hq))
    · refine List.mem_append_right _ (List.mem_map.mpr ⟨p.2, ?_, Prod.ext hscore.symm rfl⟩)
      exact List.mem_filter.mpr ⟨hv (h.inv.results_visited p hp), decide_eq_true hmem⟩
  have hi' : i < out'.length := hi.trans_le hlen
  obtain ⟨hil, hrank⟩ := htop.rank_le hsub hdesc hi hi'
  exact ⟨hi', by rwa [List.getElem_append_left hi'] at hrank⟩

end Ranks

/-- Two searches from the same entry, of which the second has the wider beam. -/
theorem search_wider (sim : ν → σ) (hinj : ∀ x y, P x → P y → sim x = sim y → x = y) (hef : 1 ≤ ef) (hle : ef ≤ ef')
    (hP : ∀ x, P x → ∀ y ∈ links x, P y) (fuel : Nat) {e : ν} (he : P e) :
    let b := loop (m := Id) links sim ef fuel (start e (sim e))
    let b' := loop (m := Id) links sim ef' fuel (start e (sim e))
    Going sim P ef b ∧ Going sim P ef' b' ∧ Beam.visited b ⊆ Beam.visited b' ∧
      expansions links sim ef fuel (start e (sim e)) <+: expansions links sim ef' fuel (start e (sim e)) := by
  intro b b'
  obtain ⟨hbefore, hvisited⟩ := (lockstep_start he).loop hinj hef hle hP fuel
  exact ⟨(going_start he).loop fuel hP, (going_start he).loop fuel hP, hvisited, hbefore⟩

end NeuralDb.Library.Beam
