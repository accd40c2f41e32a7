import NeuralDb.Concurrent.Table
import NeuralDb.Concurrent.Visited
import NeuralDb.Hnsw.Search

/-! What a search returns while other threads insert and delete. The graph may change between two of its
reads, but a slot keeps its vector and a tombstone stays, so every hit is right at the moment of return. -/

namespace NeuralDb

open Library HNSWIndex

/-- The table `ws` continues `vs`: it has every slot of `vs` with its contents, and a deleted slot stays
deleted. -/
def Continues (vs ws : List VectorSlot) : Prop :=
  ∀ (i : Nat) (v : VectorSlot), vs[i]? = some v →
    ∃ w, ws[i]? = some w ∧ w.id = v.id ∧ w.metadata = v.metadata ∧ w.data = v.data ∧
      (v.deleted = true → w.deleted = true)

theorem continues_refl (vs : List VectorSlot) : Continues vs vs :=
  fun _ v hv => ⟨v, hv, rfl, rfl, rfl, id⟩

theorem Continues.trans {us vs ws : List VectorSlot} (h : Continues us vs) (h' : Continues vs ws) :
    Continues us ws := by
  intro i u hu
  obtain ⟨v, hv, hid, hmeta, hdata, hdel⟩ := h i u hu
  obtain ⟨w, hw, hid', hmeta', hdata', hdel'⟩ := h' i v hv
  exact ⟨w, hw, hid'.trans hid, hmeta'.trans hmeta, hdata'.trans hdata, fun hu => hdel' (hdel hu)⟩

theorem continues_append (vs us : List VectorSlot) : Continues vs (vs ++ us) := by
  intro i v hv
  have hi : i < vs.length := (List.getElem?_eq_some_iff.mp hv).1
  exact ⟨v, by rw [List.getElem?_append_left hi, hv], rfl, rfl, rfl, id⟩

theorem continues_markFirst (id : UInt64) (vs : List VectorSlot) : Continues vs (markFirst id vs) := by
  induction vs with
  | nil => exact continues_refl []
  | cons a vs ih =>
    intro i v hv
    rw [markFirst]
    cases i with
    | zero =>
      obtain rfl : a = v := by simpa using hv
      split_ifs
      · exact ⟨_, rfl, rfl, rfl, rfl, fun _ => rfl⟩
      · exact ⟨a, rfl, rfl, rfl, rfl, fun h => h⟩
    | succ i =>
      rw [List.getElem?_cons_succ] at hv
      split_ifs
      · exact ⟨v, by rwa [List.getElem?_cons_succ], rfl, rfl, rfl, fun h => h⟩
      · simpa only [List.getElem?_cons_succ] using ih i v hv

theorem continues_stepSlots {dim : Nat} (vs : List VectorSlot) (op : Op dim) : Continues vs (stepSlots vs op) := by
  cases op with
  | insert id vec metadata level => exact continues_append vs _
  | delete id => exact continues_markFirst id vs

theorem continues_foldl {dim : Nat} (vs : List VectorSlot) (ops : List (Op dim)) :
    Continues vs (ops.foldl stepSlots vs) := by
  induction ops generalizing vs with
  | nil => exact continues_refl vs
  | cons op ops ih => exact (continues_stepSlots vs op).trans (ih _)

namespace HNSWIndex

variable {s t : HNSWIndex}

theorem continues_rawVec (h : Continues s.slots t.slots) {i : Nat} (hi : i < s.numVectors) :
    t.rawVec i = s.rawVec i := by
  obtain ⟨w, hw, -, -, hdata, -⟩ := h i _ (slots_getElem? s hi)
  have hit : i < t.numVectors := slots_length t ▸ (List.getElem?_eq_some_iff.mp hw).1
  obtain rfl := Option.some.inj ((slots_getElem? t hit).symm.trans hw)
  exact hdata

end HNSWIndex

namespace Concurrent

section Layer

variable {σ : Type} [LinearOrder σ] {P Q : Nat → Prop} {sim sim' : Nat → σ} {ef : Int}

/-- A `search_layer_` call whose scores are right for nodes of `P` and whose beam is within its width. -/
def LayerPc.Finds (sim : Nat → σ) (P : Nat → Prop) (ef : Int) : LayerPc σ → Prop
  | .load => True
  | .score => True
  | .loop b => b.Inv sim P ef
  | .expand xs b => b.Inv sim P ef ∧ ∀ x ∈ xs, P x
  | .done out => LayerResult sim P ef out

theorem beam_congr {b : Beam σ Nat} (h : b.Inv sim P ef) (heq : ∀ x, P x → sim x = sim' x)
    (hPQ : ∀ x, P x → Q x) : b.Inv sim' Q ef :=
  { (h.toShape.congr fun x hx => heq x (h.visited_in x hx)).mono hPQ with
    results_le := h.results_le
    results_all := h.results_all }

theorem layerResult_congr {r : List (σ × Nat)} (h : LayerResult sim P ef r) (heq : ∀ x, P x → sim x = sim' x)
    (hPQ : ∀ x, P x → Q x) : LayerResult sim' Q ef r :=
  { h with
    mem := fun c hc => hPQ c.2 (h.mem c hc)
    scored := fun c hc => (h.scored c hc).trans (heq c.2 (h.mem c hc)) }

/-- More nodes do no harm as long as those that are there keep their similarities. -/
theorem LayerPc.Finds.mono {pc : LayerPc σ} (h : pc.Finds sim P ef) (heq : ∀ x, P x → sim x = sim' x)
    (hPQ : ∀ x, P x → Q x) : pc.Finds sim' Q ef := by
  cases pc with
  | load => trivial
  | score => trivial
  | loop b => exact beam_congr h heq hPQ
  | expand xs b => exact ⟨beam_congr h.1 heq hPQ, fun x hx => hPQ x (h.2 x hx)⟩
  | done out => exact layerResult_congr h heq hPQ

theorem LayerPc.Finds.step (rt : Runtime σ) {s : HNSWIndex} {a : LayerArgs} {pc : LayerPc σ}
    (h : pc.Finds (s.simRaw rt a.query) P a.ef) (hep : P a.ep) (hlinks : ∀ x, P x → ∀ y ∈ s.links a.layer x, P y) :
    (pc.step rt s a).Finds (s.simRaw rt a.query) P a.ef := by
  cases pc with
  | load => trivial
  | score => exact Beam.inv_start hep
  | loop b =>
    rw [LayerPc.step]
    split
    · exact layerResult_sort rt h
    · next c cs hc =>
      split_ifs
      · exact layerResult_sort rt h
      · exact ⟨h.popCand hc, hlinks c.2 (h.cand_in (hc ▸ List.mem_cons_self))⟩
  | expand xs b =>
    cases xs with
    | nil => exact h.1
    | cons x xs =>
      have htail : ∀ y ∈ xs, P y := fun y hy => h.2 y (List.mem_cons_of_mem x hy)
      rw [LayerPc.step]
      split_ifs with hx
      · exact ⟨h.1, htail⟩
      · exact ⟨h.1.offer hx (h.2 x List.mem_cons_self), htail⟩
  | done out => exact h

end Layer

section Search

variable {σ : Type} [LinearOrder σ] (rt : Runtime σ) {s t : HNSWIndex}

/-- The candidates that a search holds are slots with their own scores. -/
def SearchFrame.Finds (s : HNSWIndex) (f : SearchFrame σ) : Prop :=
  match f.pc with
  | .descend _ pc => pc.Finds (s.simRaw rt f.query) (· < s.numVectors) 1
  | .bottom pc => pc.Finds (s.simRaw rt f.query) (· < s.numVectors) s.cfg.efSearch
  | .collect cands => LayerResult (s.simRaw rt f.query) (· < s.numVectors) s.cfg.efSearch cands
  | _ => True

/-- A search does not mind what the steps of other threads do to the table. -/
theorem SearchFrame.Finds.mono {f : SearchFrame σ} (h : f.Finds rt s) (hslots : Continues s.slots t.slots)
    (hcfg : t.cfg = s.cfg) : f.Finds rt t := by
  have hsim : ∀ x, x < s.numVectors → s.simRaw rt f.query x = t.simRaw rt f.query x := by
    intro x hx
    rw [simRaw, simRaw, continues_rawVec hslots hx]
  have hlt : ∀ x, x < s.numVectors → x < t.numVectors := by
    intro x hx
    obtain ⟨w, hw, -⟩ := hslots x _ (slots_getElem? s hx)
    exact slots_length t ▸ (List.getElem?_eq_some_iff.mp hw).1
  unfold SearchFrame.Finds at h ⊢
  split at h
  · exact LayerPc.Finds.mono h hsim hlt
  · rw [hcfg]
    exact LayerPc.Finds.mono h hsim hlt
  · rw [hcfg]
    exact layerResult_congr h hsim hlt
  · next hd hb hc => trivial

theorem SearchFrame.Finds.step {f f' : SearchFrame σ} (h : f.Finds rt s) (hs : Concurrent.InRange s)
    (hf : f.InRange s.numVectors) (hf' : f.step rt s = .inl f') : f'.Finds rt s := by
  have hdown : ∀ (g : SearchFrame σ) (n : Nat), g.pc = SearchFrame.descendFrom n → g.Finds rt s := by
    intro g n hpc
    unfold SearchFrame.Finds
    rw [hpc]
    cases n <;> trivial
  unfold SearchFrame.Finds at h
  unfold SearchFrame.step at hf'
  split at hf'
  · split_ifs at hf'
    exact Sum.inl.inj hf' ▸ trivial
  · dsimp only at hf'
    split at hf'
    · contradiction
    · exact Sum.inl.inj hf' ▸ hdown _ _ rfl
  · exact Sum.inl.inj hf' ▸ hdown _ _ rfl
  · next lc pc _ hd =>
    rw [hd] at h
    obtain rfl := Sum.inl.inj hf'
    exact LayerPc.Finds.step rt (a := ⟨f.query, f.ep, 1, lc⟩) h (hf.held (by simp [hd])).2 (hs.closed lc)
  · next out hd =>
    rw [hd] at h
    exact Sum.inl.inj hf' ▸ h
  · next pc _ hd =>
    rw [hd] at h
    obtain rfl := Sum.inl.inj hf'
    exact LayerPc.Finds.step rt (a := ⟨f.query, f.ep, s.cfg.efSearch, 0⟩) h (hf.held (by simp [hd])).2
      (hs.closed 0)
  · contradiction

/-- What a search returns are hits of the index as it is at that moment. -/
theorem SearchFrame.Finds.hits {f : SearchFrame σ} (h : f.Finds rt s) {out : List (σ × UInt64)} (hk : 1 ≤ f.k)
    (hout : f.step rt s = .inr out) : ∃ hits, out = hits.map s.external ∧ Hits rt s f.query f.k hits := by
  have hnone : ∀ {out : List (σ × UInt64)}, out = [] →
      ∃ hits, out = hits.map s.external ∧ Hits rt s f.query f.k hits :=
    fun hout => ⟨[], hout, hits_nil rt s f.query hk⟩
  unfold SearchFrame.Finds at h
  unfold SearchFrame.step at hout
  split at hout
  · split_ifs at hout
    exact hnone (Sum.inr.inj hout).symm
  · dsimp only at hout
    split at hout
    · exact hnone (Sum.inr.inj hout).symm
    · contradiction
  · contradiction
  · contradiction
  · contradiction
  · contradiction
  · next cands hd =>
    rw [hd] at h
    obtain ⟨n, hn⟩ : ∃ n : Nat, f.k = n := ⟨f.k.toNat, (Int.toNat_of_nonneg (by omega)).symm⟩
    refine ⟨_, (Sum.inr.inj hout).symm.trans ?_, hn ▸ LayerResult.hits rt n h⟩
    have hroom : ([] : List (σ × UInt64)).length < n := show 0 < n by omega
    rw [hn, collect_eq s cands hroom]
    rfl

/-- A call with a vector that fits, ids in range and right scores. -/
structure Call.Sound (dim : Nat) (s : HNSWIndex) (c : Call σ) : Prop where
  sized : c.Sized dim
  inRange : c.InRange s.numVectors
  finds : ∀ f, c = .search f → f.Finds rt s

structure IndexSound (dim : Nat) (cfg : HNSWConfig) (s : HNSWIndex) : Prop where
  table : TableOk dim cfg s
  inRange : InRange s

structure Sound (dim : Nat) (cfg : HNSWConfig) (m : Machine σ) : Prop where
  index : IndexSound dim cfg m.index
  calls : ∀ t c, (m.threads t).call = some c → c.Sound rt dim m.index

variable {dim : Nat} {cfg : HNSWConfig} {m : Machine σ}

theorem Call.Sound.step {c : Call σ} (hc : c.Sound rt dim s) (hs : IndexSound dim cfg s)
    (hits : List (σ × UInt64)) :
    let s' := (Machine.callStep rt s hits c).1
    IndexSound dim cfg s' ∧ Continues s.slots s'.slots ∧
      (∀ c', (Machine.callStep rt s hits c).2.1 = some c' → c'.Sound rt dim s') ∧
      ∀ d : Call σ, d.Sound rt dim s → d.Sound rt dim s' := by
  intro s'
  obtain ⟨htable, hslots, hsized⟩ := hc.sized.step rt hs.table hits
  obtain ⟨hstays, hrange⟩ := callStep_inRange rt hs.inRange hc.inRange hits
  have hcont : Continues s.slots s'.slots := hslots ▸ continues_foldl s.slots _
  have hcfg : s'.cfg = s.cfg := htable.cfg_eq.trans hs.table.cfg_eq.symm
  refine ⟨⟨htable, hstays.inRange⟩, hcont, fun c' hc' => ⟨hsized c' hc', (hrange c' hc').1, ?_⟩, fun d hd => ?_⟩
  · rintro f rfl
    cases c with
    | insert g =>
      obtain ⟨g', -, h⟩ := Option.map_eq_some_iff.mp hc'
      contradiction
    | search g =>
      unfold Machine.callStep at hc'
      dsimp only at hc'
      split at hc'
      · next g' hg' =>
        obtain rfl := Call.search.inj (Option.some.inj hc')
        exact (SearchFrame.Finds.step rt (hc.finds g rfl) hs.inRange hc.inRange hg').mono rt hcont hcfg
      · contradiction
    | delete id => contradiction
  · exact ⟨hd.sized, hd.inRange.mono hstays.grows.1, fun f hf => (hd.finds f hf).mono rt hcont hcfg⟩

theorem sound_new (dim : Nat) (cfg : HNSWConfig) : Sound rt dim cfg (Machine.new dim cfg) :=
  ⟨⟨tableOk_new dim cfg, (bounds_new (σ := σ) dim cfg).index⟩, nofun⟩

theorem sound_of_call {a : Action dim} {c : Call σ} (hc : a.call? = some c) (s : HNSWIndex) : c.Sound rt dim s := by
  refine ⟨Tabled.sized_of_call hc, (fresh_of_call hc).1 _, ?_⟩
  rintro f rfl
  cases a with
  | search query k =>
    obtain rfl := Call.search.inj (Option.some.inj hc)
    trivial
  | insert id vec metadata level => exact nomatch Option.some.inj hc
  | delete id => exact nomatch Option.some.inj hc
  | step => contradiction

theorem Sound.next (h : Sound rt dim cfg m) (e : Nat × Action dim) : Sound rt dim cfg (m.next rt e) := by
  obtain ⟨hindex, hcalls⟩ := Machine.next_holds rt (I := IndexSound dim cfg)
    (C := fun s c => c.Sound rt dim s) h.index h.calls (fun c hc => sound_of_call rt hc _) fun c hits hc => by
      obtain ⟨hs, -, hnext, hothers⟩ := hc.step rt h.index hits
      exact ⟨hs, hnext, hothers⟩
  exact ⟨hindex, hcalls⟩

theorem sound_run (cfg : HNSWConfig) (es : List (Nat × Action dim)) : Sound rt dim cfg (Machine.run rt cfg es) :=
  invariant_run (fun _ e h _ => h.next rt e) (sound_new rt dim cfg) (along_true _ es)

end Search

end Concurrent

end NeuralDb
