import NeuralDb.Kernel
import NeuralDb.Paged.Audit
import NeuralDb.Paged.Simulation

/-! Whether the pages stay cached while the index reads through its pointers. Only the pruning of a list
keeps a pointer over later gets, those of the links. -/

namespace NeuralDb

open Library PagedVectorStore

namespace HNSWIndex

section Degrees

variable {cfg : HNSWConfig} {s : HNSWIndex} {lc q nb : Nat}

/-- An index of the given configuration whose lists keep to their bounds. -/
structure Degrees (cfg : HNSWConfig) (s : HNSWIndex) : Prop where
  cfg_eq : s.cfg = cfg
  degree : ∀ l x, (s.links l x).length ≤ (s.maxLinks l).toNat

theorem links_pushLink_of_ne {l x : Nat} (h : ¬ (nb = x ∧ lc = l)) : (s.pushLink lc nb q).links l x = s.links l x := by
  rw [pushLink, links_setLinks, if_neg fun hc => h ⟨hc.1, hc.2.1⟩, links_growTo]

theorem length_links_pushLink (s : HNSWIndex) (lc q nb : Nat) :
    ((s.pushLink lc nb q).links lc nb).length ≤ (s.links lc nb).length + 1 := by
  rw [pushLink, links_setLinks, links_growTo]
  split_ifs
  · rw [List.length_append, List.length_singleton]
  · exact Nat.le_succ _

theorem Degrees.setLinks (h : s.Degrees cfg) {ls : List Nat} (hls : ls.length ≤ (s.maxLinks lc).toNat) :
    (s.setLinks lc nb ls).Degrees cfg where
  cfg_eq := h.cfg_eq
  degree := forall_links_setLinks (P := fun l _ ls => ls.length ≤ (s.maxLinks l).toNat) h.degree hls

theorem Degrees.pushLink (h : s.Degrees cfg)
    (hroom : ¬ (s.pushLink lc nb q).maxLinks lc < ((s.pushLink lc nb q).links lc nb).length) :
    (s.pushLink lc nb q).Degrees cfg where
  cfg_eq := h.cfg_eq
  degree l x := by
    by_cases hself : nb = x ∧ lc = l
    · obtain ⟨rfl, rfl⟩ := hself
      omega
    · rw [links_pushLink_of_ne hself]
      exact h.degree l x

theorem Degrees.prune (h : s.Degrees cfg) {ls : List Nat} (hls : ls.length ≤ (s.maxLinks lc).toNat) :
    ((s.pushLink lc nb q).setLinks lc nb ls).Degrees cfg where
  cfg_eq := h.cfg_eq
  degree l x := by
    rw [links_setLinks]
    split_ifs with hset
    · exact hset.2.1 ▸ hls
    · by_cases hself : nb = x ∧ lc = l
      · -- a list that could not be set is not there
        have hlayers : (s.pushLink lc nb q).layers x ≤ l := not_lt.mp fun hlt => hset ⟨hself.1, hself.2, hlt⟩
        rw [links_of_layers_le hlayers]
        exact Nat.zero_le _
      · rw [links_pushLink_of_ne hself]
        exact h.degree l x

theorem Degrees.append (h : s.Degrees cfg) (id : UInt64) (vec : Vec) (metadata : Bytes) (level : Nat) :
    (s.append id vec metadata level).Degrees cfg where
  cfg_eq := h.cfg_eq
  degree l x := by
    rw [links_append]
    exact h.degree l x

theorem Degrees.raise (h : s.Degrees cfg) (q level : Nat) : (s.raise q level).Degrees cfg := by
  unfold HNSWIndex.raise
  split_ifs
  · exact ⟨h.cfg_eq, h.degree⟩
  · exact h

theorem degrees_new (dim : Nat) (cfg : HNSWConfig) : (HNSWIndex.new dim cfg).Degrees cfg where
  cfg_eq := rfl
  degree _ _ := Nat.zero_le _

end Degrees

end HNSWIndex

open HNSWIndex

section Operations

variable {cap vpp : Nat} {cfg : HNSWConfig} {σ : Type} [LinearOrder σ] (rt : Runtime σ) (junk : Nat → Vec)

/-- The audited computation `c` takes the same course as `d` while no page is missed. -/
abbrev Watches {α : Type} (I : Audit → Prop) (Q : α → Audit → Prop) (c : StateT Audit Option α)
    (d : StateT PagedVectorStore Option α) : Prop := Observes Audit.store Audit.Resident I id Q c d

theorem observes_get (x : Nat) : Observes Audit.store Audit.Resident (Audit.Ok cap vpp cfg) AuditPointer.pointer
    (fun p a => a.Ok cap vpp cfg ∧ a.Tracks p x []) (Audit.get x) (PagedVectorStore.get x) := by
  intro a ha
  obtain ⟨p, a', hget, ha', hp, huses, hstore, -⟩ := ha.get x
  refine ⟨p, a', hget, ⟨ha', hp⟩, fun hgood => ⟨?_, hstore⟩⟩
  rwa [Audit.Resident, huses] at hgood

/-- A get while the pointer `p` is held. -/
theorem observes_get_holding (p : AuditPointer) (slot : Nat) (since : List Nat) (x : Nat) :
    Observes Audit.store Audit.Resident (fun a => a.Ok cap vpp cfg ∧ a.Tracks p slot since) AuditPointer.pointer
      (fun px a => a.Ok cap vpp cfg ∧ a.Tracks p slot (since ++ [x]) ∧ a.Tracks px x [])
      (Audit.get x) (PagedVectorStore.get x) := by
  rintro a ⟨ha, hp⟩
  obtain ⟨px, a', hget, ha', hpx, huses, hstore, hkeep⟩ := ha.get x
  refine ⟨px, a', hget, ⟨ha', hkeep p slot since hp, hpx⟩, fun hgood => ⟨?_, hstore⟩⟩
  rwa [Audit.Resident, huses] at hgood

/-- A read keeps what does not depend on the record of the uses. -/
theorem watches_read {index : HNSWIndex} {p : AuditPointer} {slot : Nat} {since : List Nat} {K : Audit → Prop}
    (hK : ∀ a uses, K a → K { a with uses := uses })
    (horigin : since = [] ∨ PointerUse.FromPruning ⟨index, slot, since, false⟩)
    (hshort : since = [] ∨ 0 < cfg.M ∧ (since.length : Int) ≤ 2 * cfg.M + 1)
    (hp : ∀ a, K a → a.Tracks p slot since) :
    Watches (fun a => a.Ok cap vpp cfg ∧ K a) (fun _ a => a.Ok cap vpp cfg ∧ K a)
      (Audit.read junk index p) (PagedVectorStore.read p.pointer) := by
  rintro a ⟨ha, hk⟩
  obtain ⟨use, hread, huse, hstore⟩ := ha.read (hp a hk) junk horigin hshort
  refine ⟨_, _, hread, ⟨ha.log huse, hK a _ hk⟩, fun hgood => ?_⟩
  obtain ⟨hbefore, hin⟩ := Audit.resident_concat hgood
  exact ⟨hbefore, hstore hin⟩

theorem watches_simTo (s : HNSWIndex) (query : Vec) (x : Nat) :
    Watches (Audit.Ok cap vpp cfg) (fun _ => Audit.Ok cap vpp cfg)
      (simTo rt (Audit.access junk s) query x) (simTo rt pagedAccess query x) := by
  refine (observes_get x).bind fun p => ?_
  refine (watches_read junk (fun _ _ h => h.log) (.inl rfl) (.inl rfl) fun _ h => h).bind fun words => ?_
  exact observes_pure fun a ha => ha.1

theorem watches_searchLayer (s : HNSWIndex) (query : Vec) (ep : Nat) (ef : Int) (layer : Nat) :
    Watches (Audit.Ok cap vpp cfg) (fun _ => Audit.Ok cap vpp cfg)
      (searchLayer rt (Audit.access junk s) s query ep ef layer) (searchLayer rt pagedAccess s query ep ef layer) :=
  (Beam.observes_search (watches_simTo rt junk s query) _ _).bind fun _ => observes_pure fun _ h => h

theorem watches_descend (s : HNSWIndex) (query : Vec) (floor n ep : Nat) :
    Watches (Audit.Ok cap vpp cfg) (fun _ => Audit.Ok cap vpp cfg)
      (descend rt (Audit.access junk s) s query floor n ep) (descend rt pagedAccess s query floor n ep) := by
  induction n generalizing ep with
  | zero => exact observes_pure fun _ h => h
  | succ n ih => exact (watches_searchLayer rt junk s query ep 1 _).bind fun c => ih _

/-- The scoring of the links `done ++ xs`, when those of `done` are scored. -/
theorem watches_scoreLinks (s : HNSWIndex) {lc q nb : Nat}
    (hfull : (s.pushLink lc nb q).maxLinks lc < ((s.pushLink lc nb q).links lc nb).length) (hM : 0 < cfg.M)
    (hlen : (((s.pushLink lc nb q).links lc nb).length : Int) ≤ 2 * cfg.M + 1) (p : AuditPointer) (xs : List Nat)
    {done : List Nat} (h : done ++ xs = (s.pushLink lc nb q).links lc nb) :
    Watches (fun a => a.Ok cap vpp cfg ∧ a.Tracks p nb done) (fun _ => Audit.Ok cap vpp cfg)
      (scoreLinks rt (Audit.access junk s) p xs) (scoreLinks rt pagedAccess p.pointer xs) := by
  induction xs generalizing done with
  | nil => exact observes_pure fun a ha => ha.1
  | cons x xs ih =>
    have hnext : (done ++ [x]) ++ xs = (s.pushLink lc nb q).links lc nb := by
      rw [List.append_assoc]
      exact h
    have hprefix : done ++ [x] <+: (s.pushLink lc nb q).links lc nb := ⟨xs, hnext⟩
    have hshort : ((done ++ [x]).length : Int) ≤ 2 * cfg.M + 1 := by
      have hle := hprefix.length_le
      omega
    refine (observes_get_holding p nb done x).bind fun px => ?_
    -- first the vector of `nb`, through the pointer held since before the loop
    refine (watches_read junk (fun _ _ h => ⟨h.1.log, h.2.log⟩) (.inr ⟨lc, q, hfull, hprefix⟩) (.inr ⟨hM, hshort⟩)
      fun _ h => h.1).bind fun a => ?_
    refine (watches_read junk (fun _ _ h => ⟨h.1.log, h.2.log⟩) (.inl rfl) (.inl rfl) fun _ h => h.2).bind fun b => ?_
    refine Observes.bind (fun a ha => ih hnext a ⟨ha.1, ha.2.1⟩) fun rest => ?_
    exact observes_pure fun _ h => h

variable {s : HNSWIndex}

theorem watches_backLink (hs : s.Degrees cfg) (hM : 0 < cfg.M) (lc q nb : Nat) :
    Watches (Audit.Ok cap vpp cfg) (fun t a => a.Ok cap vpp cfg ∧ t.Degrees cfg)
      (backLink rt (Audit.access junk s) s lc q nb) (backLink rt pagedAccess s lc q nb) := by
  unfold backLink
  dsimp only
  split_ifs with hfull
  · -- a list that is pruned is one longer than its bound
    have hlen : (((s.pushLink lc nb q).links lc nb).length : Int) ≤ 2 * cfg.M + 1 := by
      have hpush := length_links_pushLink s lc q nb
      have hdegree := hs.degree lc nb
      have hmax : s.maxLinks lc ≤ 2 * cfg.M := by
        rw [maxLinks, hs.cfg_eq]
        split_ifs <;> omega
      omega
    refine (observes_get nb).bind fun p => ?_
    refine (watches_scoreLinks rt junk s hfull hM hlen p _ (List.nil_append _)).bind fun cands => ?_
    exact observes_pure fun a ha => ⟨ha, hs.prune (selectNeighbours_length rt _ _)⟩
  · exact observes_pure fun a ha => ⟨ha, hs.pushLink hfull⟩

theorem watches_backLinks (lc q : Nat) (nbs : List Nat) (hM : nbs ≠ [] → 0 < cfg.M) {s : HNSWIndex}
    (hs : s.Degrees cfg) :
    Watches (Audit.Ok cap vpp cfg) (fun t a => a.Ok cap vpp cfg ∧ t.Degrees cfg)
      (backLinks rt (Audit.access junk) lc q nbs s) (backLinks rt (fun _ => pagedAccess) lc q nbs s) := by
  induction nbs generalizing s with
  | nil => exact observes_pure fun a ha => ⟨ha, hs⟩
  | cons nb nbs ih =>
    have hpos : 0 < cfg.M := hM (List.cons_ne_nil nb nbs)
    refine (watches_backLink rt junk hs hpos lc q nb).bind fun t => ?_
    exact observes_of_and fun ht => ih (fun _ => hpos) ht

theorem watches_linkLayers (q : Nat) (vec : Vec) (k ep : Nat) {s : HNSWIndex} (hs : s.Degrees cfg) :
    Watches (Audit.Ok cap vpp cfg) (fun t a => a.Ok cap vpp cfg ∧ t.Degrees cfg)
      (linkLayers rt (Audit.access junk) q vec k ep s) (linkLayers rt (fun _ => pagedAccess) q vec k ep s) := by
  induction k generalizing s ep with
  | zero => exact observes_pure fun a ha => ⟨ha, hs⟩
  | succ lc ih =>
    refine (watches_searchLayer rt junk s vec ep _ lc).bind fun cands => ?_
    let nbs := selectNeighbours rt cands s.cfg.M
    have hpos : nbs ≠ [] → 0 < cfg.M := fun h => hs.cfg_eq ▸ selectNeighbours_pos rt h
    have hset : (s.setLinks lc q nbs).Degrees cfg :=
      hs.setLinks ((selectNeighbours_length rt _ _).trans (maxLinks_ge s lc))
    refine (watches_backLinks rt junk lc q nbs hpos hset).bind fun t => ?_
    exact observes_of_and fun ht => ih _ ht

theorem watches_insert (hs : s.Degrees cfg) (id : UInt64) (vec : Vec) (metadata : Bytes) (level : Nat) :
    Watches (Audit.Ok cap vpp cfg) (fun t a => a.Ok cap vpp cfg ∧ t.Degrees cfg)
      (HNSWIndex.insert rt (Audit.access junk) s id vec metadata level)
      (HNSWIndex.insert rt (fun _ => pagedAccess) s id vec metadata level) := by
  have hnew := hs.append id vec metadata level
  unfold HNSWIndex.insert
  dsimp only
  split_ifs
  · exact observes_pure fun a ha => ⟨ha, hnew⟩
  · refine (watches_descend rt junk _ vec level _ _).bind fun ep => ?_
    refine (watches_linkLayers rt junk _ vec _ ep hnew).bind fun t => ?_
    exact observes_pure fun a ha => ⟨ha.1, ha.2.raise _ level⟩

theorem watches_search (s : HNSWIndex) (query : Vec) (k : Int) :
    Watches (Audit.Ok cap vpp cfg) (fun _ => Audit.Ok cap vpp cfg)
      (HNSWIndex.search rt (Audit.access junk s) s query k) (HNSWIndex.search rt pagedAccess s query k) := by
  unfold HNSWIndex.search
  split_ifs
  · exact observes_pure fun _ h => h
  · split
    · exact observes_pure fun _ h => h
    · refine (watches_descend rt junk s query 0 _ _).bind fun ep => ?_
      exact (watches_searchLayer rt junk s query ep _ 0).bind fun cands => observes_pure fun _ h => h

end Operations

/-- A call on a paged index, an insert with the level that it draws. -/
inductive IndexCall (dim : Nat) where
  | insert (i : Insertion dim)
  | search (query : VecOf dim) (k : Int)

def PagedIndex.call {σ : Type} [LinearOrder σ] (rt : Runtime σ) {dim : Nat} (p : PagedIndex) :
    IndexCall dim → Option PagedIndex
  | .insert i => p.insert rt i
  | .search query k => (p.search rt query k).map Prod.snd

/-- A paged index whose store is watched. -/
structure AuditedIndex where
  audit : Audit
  hnsw : HNSWIndex

/-- The index with an audit that starts now. -/
def PagedIndex.audited (p : PagedIndex) : AuditedIndex := ⟨{ store := p.store }, p.hnsw⟩

namespace AuditedIndex

def plain (p : AuditedIndex) : PagedIndex := ⟨p.audit.store, p.hnsw⟩

variable {σ : Type} [LinearOrder σ] (rt : Runtime σ) (junk : Nat → Vec) {dim : Nat}

def call (p : AuditedIndex) : IndexCall dim → Option AuditedIndex
  | .insert i =>
    (HNSWIndex.insert rt (Audit.access junk) p.hnsw i.id i.vec i.metadata i.level
      { p.audit with store := p.audit.store.push i.vec }).map fun r => ⟨r.2, r.1⟩
  | .search query k =>
    (HNSWIndex.search rt (Audit.access junk p.hnsw) p.hnsw query k p.audit).map fun r => ⟨r.2, p.hnsw⟩

def run (p : AuditedIndex) (calls : List (IndexCall dim)) : Option AuditedIndex := calls.foldlM (call rt junk) p

structure Ok (cap vpp : Nat) (cfg : HNSWConfig) (p : AuditedIndex) : Prop where
  audit : p.audit.Ok cap vpp cfg
  degrees : p.hnsw.Degrees cfg

variable {cap vpp : Nat} {cfg : HNSWConfig} {p : AuditedIndex}

/-- One call: it returns, and if it misses no page the paged index makes the same step. -/
theorem Ok.call (h : p.Ok cap vpp cfg) (c : IndexCall dim) :
    ∃ p', p.call rt junk c = some p' ∧ p'.Ok cap vpp cfg ∧
      (p'.audit.Resident → p.audit.Resident ∧ p.plain.call rt c = some p'.plain) := by
  cases c with
  | insert i =>
    obtain ⟨t, a, hrun, ⟨ha, ht⟩, hback⟩ :=
      watches_insert rt junk h.degrees i.id i.vec i.metadata i.level _ (h.audit.push i.vec)
    refine ⟨⟨a, t⟩, congrArg (Option.map _) hrun, ⟨ha, ht⟩, fun hgood => ?_⟩
    obtain ⟨hbefore, hplain⟩ := hback hgood
    exact ⟨hbefore, congrArg (Option.map _) hplain⟩
  | search query k =>
    obtain ⟨hits, a, hrun, ha, hback⟩ := watches_search rt junk p.hnsw query k _ h.audit
    refine ⟨⟨a, p.hnsw⟩, congrArg (Option.map _) hrun, ⟨ha, h.degrees⟩, fun hgood => ?_⟩
    obtain ⟨hbefore, hplain⟩ := hback hgood
    refine ⟨hbefore, ?_⟩
    change (Option.map _ (HNSWIndex.search rt pagedAccess p.hnsw query k p.audit.store)).map _ = _
    rw [hplain]
    rfl

theorem Ok.run (h : p.Ok cap vpp cfg) (calls : List (IndexCall dim)) :
    ∃ p', p.run rt junk calls = some p' ∧ p'.Ok cap vpp cfg ∧
      (p'.audit.Resident → calls.foldlM (PagedIndex.call rt) p.plain = some p'.plain) := by
  let I (calls : List (IndexCall dim)) (t : AuditedIndex) : Prop :=
    t.Ok cap vpp cfg ∧ (t.audit.Resident → calls.foldlM (PagedIndex.call rt) p.plain = some t.plain)
  have hstep : ∀ calls t c, I calls t → ∃ t', t.call rt junk c = some t' ∧ I (calls ++ [c]) t' := by
    rintro calls t c ⟨ht, hback⟩
    obtain ⟨t', hcall, h', hback'⟩ := ht.call rt junk c
    refine ⟨t', hcall, h', fun hgood => ?_⟩
    obtain ⟨hbefore, hplain⟩ := hback' hgood
    rw [foldlM_concat, hback hbefore, Option.bind_some, hplain]
  exact invariant_foldlM hstep ⟨h, fun _ => rfl⟩ calls

/-- A cache with a page for every link of an overfull list and for its owner misses none. -/
theorem Ok.resident (h : p.Ok cap vpp cfg) (hcap : 0 < cap) (hfits : PruneFits cap cfg) : p.audit.Resident := by
  intro use huse
  have hsound := h.audit.sound use huse
  refine hsound.resident_iff.mpr (Lru.outlives_of_room _ ?_)
  rw [List.length_nil, Nat.zero_add, List.length_map]
  rcases hsound.short with hnone | ⟨hpos, hlen⟩
  · rwa [hnone]
  · unfold PruneFits at hfits
    omega

theorem ok_openFile {file : Bytes} {cacheBytes : Nat} {p : PagedIndex}
    (h : PagedIndex.openFile file dim cacheBytes cfg = .ok p) :
    p.audited.Ok (max 1 (cacheBytes / pagedPageSize)) (perPage dim) cfg := by
  unfold PagedIndex.openFile PagedVectorStore.openFile at h
  dsimp only at h
  split_ifs at h
  · contradiction
  obtain rfl := Except.ok.inj h
  exact {
    audit := {
      lru := ⟨List.Perm.refl _, Nat.zero_le _, lt_of_lt_of_le Nat.one_pos (le_max_left _ _)⟩
      blocks := backed_empty _ _
      cap_eq := rfl
      perPage_eq := rfl
      sound := fun use huse => absurd huse List.not_mem_nil }
    degrees := degrees_new dim cfg }

/-- In a run of inserts and searches every vector is read from a page that is still cached exactly when
each pruned list leaves room for the page of its owner: the pages of the links scored so far have not filled
the cache since that page was got. -/
theorem pages_resident_iff {file : Bytes} {cacheBytes : Nat} {p₀ : PagedIndex}
    (hopen : PagedIndex.openFile file dim cacheBytes cfg = .ok p₀) (calls : List (IndexCall dim)) :
    let cap := max 1 (cacheBytes / pagedPageSize)
    ∃ p, p₀.audited.run rt junk calls = some p ∧
      (p.audit.Resident ↔ ∀ use ∈ p.audit.uses, use.FromPruning → use.Outlives cap (perPage dim)) ∧
      (∀ use ∈ p.audit.uses, use.resident = true ↔ use.Outlives cap (perPage dim)) ∧
      (∀ use ∈ p.audit.uses, use.since = [] ∨ use.FromPruning) ∧
      (PruneFits cap cfg → p.audit.Resident) ∧
      (p.audit.Resident → calls.foldlM (PagedIndex.call rt) p₀ = some p.plain) := by
  intro cap
  have hcap : 0 < cap := lt_of_lt_of_le Nat.one_pos (le_max_left _ _)
  obtain ⟨p, hrun, hok, hback⟩ := (ok_openFile hopen).run rt junk calls
  have hsound := hok.audit.sound
  refine ⟨p, hrun, ⟨fun hgood use huse _ => ?_, fun hall use huse => ?_⟩, fun use huse => ?_, fun use huse => ?_,
    hok.resident hcap, hback⟩
  · exact (hsound use huse).resident_iff.mp (hgood use huse)
  · rcases (hsound use huse).origin with hnone | hprune
    · apply (hsound use huse).resident_iff.mpr
      rw [PointerUse.Outlives, hnone]
      rfl
    · exact (hsound use huse).resident_iff.mpr (hall use huse hprune)
  · exact (hsound use huse).resident_iff
  · exact (hsound use huse).origin

/-- With a page for each link of a full list and its owner no run misses a page. -/
theorem pages_resident_roomy :
    ∃ p₀ p, PagedIndex.openFile [] 2 (34 * pagedPageSize) {} = .ok p₀ ∧
      p₀.audited.run Runtime.cosine (fun _ => []) [.insert ⟨7, ⟨[1, 2], rfl⟩, [], 0⟩,
        .insert ⟨8, ⟨[2, 1], rfl⟩, [], 1⟩, (.search ⟨[1, 1], rfl⟩ 1 : IndexCall 2)] = some p ∧ p.audit.Resident := by
  have hopen : PagedIndex.openFile [] 2 (34 * pagedPageSize) {} =
      .ok ⟨opened [] 2 (34 * pagedPageSize), .new 2 {}⟩ := rfl
  obtain ⟨p, hrun, -, -, -, hfits, -⟩ := pages_resident_iff Runtime.cosine (fun _ => []) hopen
    [.insert ⟨7, ⟨[1, 2], rfl⟩, [], 0⟩, .insert ⟨8, ⟨[2, 1], rfl⟩, [], 1⟩, .search ⟨[1, 1], rfl⟩ 1]
  exact ⟨_, p, hopen, hrun, hfits (.inr (by decide))⟩

/-- A zero vector on layers 0 and 1. Every similarity with it is 0. -/
def zeroCall : IndexCall 256 := .insert ⟨0, ⟨List.replicate 256 0, List.length_replicate⟩, [], 1⟩

/-- Three vectors share a page, and the cache has room for one. The fourth vector is linked to a slot whose
list it fills over the bound, and the get for it evicts the page of that slot. -/
theorem pages_lost :
    ∃ p₀ p, PagedIndex.openFile [] 256 pagedPageSize { M := 2 } = .ok p₀ ∧
      p₀.audited.run Runtime.cosine (fun _ => []) (List.replicate 4 zeroCall) = some p ∧ ¬ p.audit.Resident ∧
      ∃ use ∈ p.audit.uses, use.slot = 2 ∧ use.since = [1, 0, 3] ∧ use.resident = false := by
  have hopen : PagedIndex.openFile [] 256 pagedPageSize { M := 2 } =
      .ok ⟨opened [] 256 pagedPageSize, .new 256 { M := 2 }⟩ := rfl
  obtain ⟨p, hrun, -⟩ := (ok_openFile hopen).run Runtime.cosine (fun _ => []) (List.replicate 4 zeroCall)
  have hlost : ((PagedIndex.audited ⟨opened [] 256 pagedPageSize, .new 256 { M := 2 }⟩).run Runtime.cosine
      (fun _ => []) (List.replicate 4 zeroCall)).all (fun p => p.audit.uses.any fun use =>
        use.slot == 2 && use.since == [1, 0, 3] && !use.resident) = true := by decide +kernel
  rw [hrun, Option.all_some, List.any_eq_true] at hlost
  obtain ⟨use, huse, hspec⟩ := hlost
  simp only [Bool.and_eq_true, beq_iff_eq, Bool.not_eq_true'] at hspec
  obtain ⟨⟨hslot, hsince⟩, hgone⟩ := hspec
  refine ⟨_, p, hopen, hrun, fun hgood => ?_, use, huse, hslot, hsince, hgone⟩
  rw [hgood use huse] at hgone
  contradiction

end AuditedIndex

end NeuralDb
