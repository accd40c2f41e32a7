import NeuralDb.Concurrent.Visited
import NeuralDb.Persist.IndexFile
import Mathlib.Data.List.Induction

/-! One `save` among the calls of other threads. The header is written before the lock is taken, so its
count and the arrays behind it can belong to different moments. -/

namespace NeuralDb

open Library HNSWIndex

namespace HNSWIndex

/-- The header that `save` writes, with the count that it has loaded. -/
def headerOf (dim nv : Nat) : Bytes :=
  leBytes 4 magic ++ (leBytes 4 2 ++ (leBytes 4 dim ++ (leBytes 4 0 ++ leBytes 8 nv)))

/-- The locked region of `save`: the arrays as they are, the tombstones and links of `nv` slots. -/
def bodyOf (s : HNSWIndex) (nv : Nat) : Bytes :=
  s.idMap.flatMap idBytes ++ (s.rawVectors.flatMap wordBytes ++ (s.metadata.flatMap encodeMetadata ++
    (intBytes s.maxLayer ++ (leBytes 4 s.entryPoint ++
      ((packBits 64 nv s.isTombstoned).flatMap (leBytes 8) ++
        ((List.range nv).map fun i => s.graph.getD i []).flatMap encodeLayers)))))

/-- With the count of the moment the file is that of a `save` nothing interferes with. -/
theorem headerOf_bodyOf (s : HNSWIndex) : headerOf s.dim s.numVectors ++ s.bodyOf s.numVectors = s.save := rfl

/-- An index whose parts fit the fields of the file as long as its slots do. -/
structure Savable (dim : Nat) (s : HNSWIndex) : Prop where
  aligned : s.Aligned
  dim_eq : s.dim = dim
  metadata_lt : ∀ m ∈ s.metadata, m.length < 2 ^ 32
  layers_le : ∀ x, s.layers x ≤ 2 ^ 31
  maxLayer_ge : 0 ≤ s.maxLayer
  maxLayer_lt : s.maxLayer < 2 ^ 31
  entry_le : s.entryPoint ≤ s.numVectors

variable {dim : Nat} {s : HNSWIndex}

theorem savable_new (dim : Nat) (cfg : HNSWConfig) : (new dim cfg).Savable dim where
  aligned := aligned_new dim cfg
  dim_eq := rfl
  metadata_lt _ hm := absurd hm List.not_mem_nil
  layers_le _ := Nat.zero_le _
  maxLayer_ge := le_rfl
  maxLayer_lt := Int.pow_pos (by decide)
  entry_le := le_rfl

theorem Savable.append (h : s.Savable dim) (id : UInt64) {vec : Vec} (hvec : vec.length = dim) {metadata : Bytes}
    (hmeta : metadata.length < 2 ^ 32) {level : Nat} (hlevel : level < 2 ^ 31) :
    (s.append id vec metadata level).Savable dim where
  aligned := h.aligned.append id (hvec.trans h.dim_eq.symm) metadata level
  dim_eq := h.dim_eq
  metadata_lt m hm := by
    rcases List.mem_append.mp hm with hm | hm
    · exact h.metadata_lt m hm
    · exact List.mem_singleton.mp hm ▸ hmeta
  layers_le x := by
    rw [layers_append]
    split_ifs
    · exact hlevel
    · exact h.layers_le x
  maxLayer_ge := by
    change 0 ≤ if s.numVectors = 0 then (level : Int) else s.maxLayer
    split_ifs
    · exact Int.natCast_nonneg level
    · exact h.maxLayer_ge
  maxLayer_lt := by
    change (if s.numVectors = 0 then (level : Int) else s.maxLayer) < 2 ^ 31
    split_ifs
    · exact_mod_cast hlevel
    · exact h.maxLayer_lt
  entry_le := by
    change (if s.numVectors = 0 then 0 else s.entryPoint) ≤ s.numVectors + 1
    split_ifs
    · exact Nat.zero_le _
    · exact Nat.le_succ_of_le h.entry_le

theorem Savable.regraph {t : HNSWIndex} (h : s.Savable dim) (ht : Regraphed s t)
    (hlayers : ∀ x, t.layers x ≤ 2 ^ 31) : t.Savable dim := by
  have hframe := ht.frame
  refine ⟨ht.table.aligned h.aligned, ht.table.dim_eq.trans h.dim_eq, ?_, hlayers, ?_, ?_, ?_⟩
  all_goals rw [hframe]
  · exact h.metadata_lt
  · exact h.maxLayer_ge
  · exact h.maxLayer_lt
  · exact h.entry_le

theorem Savable.setLinks (h : s.Savable dim) (l x : Nat) (ls : List Nat) : (s.setLinks l x ls).Savable dim := by
  apply h.regraph (regraphed_setLinks s l x ls)
  intro y
  rw [layers_setLinks]
  exact h.layers_le y

theorem layers_growTo_le (s : HNSWIndex) (l x y : Nat) :
    (s.growTo l x).layers y ≤ max (s.layers y) (l + 1) := by
  simp only [layers, growTo, List.getD_eq_getElem?_getD, List.getElem?_modify]
  cases s.graph[y]? with
  | none => simp
  | some g =>
    by_cases h : x = y
    · simp only [h, if_true, Option.map_eq_map, Option.map_some, Option.getD_some, List.length_append,
        List.length_replicate]
      omega
    · simp [h]

theorem Savable.backLink {σ : Type} [LinearOrder σ] (rt : Runtime σ) (h : s.Savable dim) {lc : Nat}
    (hlc : lc < 2 ^ 31) (q nb : Nat) : Savable dim (HNSWIndex.backLink (m := Id) rt s.rawAccess s lc q nb) := by
  have hpush : (s.pushLink lc nb q).Savable dim := by
    apply h.regraph (regraphed_pushLink s lc nb q)
    intro y
    rw [pushLink, layers_setLinks]
    exact (layers_growTo_le s lc nb y).trans (max_le (h.layers_le y) hlc)
  unfold HNSWIndex.backLink
  dsimp only
  split_ifs
  · exact hpush.setLinks lc nb _
  · exact hpush

theorem Savable.raise (h : s.Savable dim) {q level : Nat} (hq : q ≤ s.numVectors) (hlevel : level < 2 ^ 31) :
    (s.raise q level).Savable dim := by
  unfold HNSWIndex.raise
  split_ifs
  · have hlt : (level : Int) < 2 ^ 31 := by exact_mod_cast hlevel
    exact { h with
      aligned := { h.aligned with }
      maxLayer_ge := Int.natCast_nonneg level
      maxLayer_lt := hlt
      entry_le := hq }
  · exact h

theorem Savable.deleteVector (h : s.Savable dim) (id : UInt64) : (s.deleteVector id).Savable dim := by
  have haligned := h.aligned.deleteVector id
  unfold HNSWIndex.deleteVector at haligned ⊢
  split at haligned
  · exact { h with aligned := haligned }
  · exact h

end HNSWIndex

namespace Concurrent

variable {σ : Type} [LinearOrder σ]

/-! ### Arguments that fit the file -/

/-- The arguments of an insert fit the file: a `level` is an `int`, a metadata string has its length in
32 bits. -/
def Action.Fits {dim : Nat} : Action dim → Prop
  | .insert _ _ metadata level => metadata.length < 2 ^ 32 ∧ level < 2 ^ 31
  | _ => True

/-- The layer of the round that the linking loop is in. -/
def InsertPc.linkLayer : InsertPc σ → Option Nat
  | .link lc _ => some lc
  | .assign lc _ => some lc
  | .back lc _ _ => some lc
  | _ => none

structure InsertFrame.Fits (dim : Nat) (f : InsertFrame σ) : Prop where
  vec_length : f.vec.length = dim
  metadata_lt : f.metadata.length < 2 ^ 32
  level_lt : f.level < 2 ^ 31
  layer_le : ∀ lc, f.pc.linkLayer = some lc → lc ≤ f.level

def Call.Fits (dim : Nat) : Call σ → Prop
  | .insert f => f.Fits dim
  | _ => True

omit [LinearOrder σ] in
theorem linkLayer_linkFrom {n lc : Nat} (h : (linkFrom n : InsertPc σ).linkLayer = some lc) : lc + 1 = n := by
  cases n with
  | zero => contradiction
  | succ n => exact congrArg (· + 1) (Option.some.inj h).symm

omit [LinearOrder σ] in
theorem linkLayer_linkPc {f : InsertFrame σ} {lc : Nat} (h : f.linkPc.linkLayer = some lc) : lc ≤ f.level := by
  have hlc := linkLayer_linkFrom h
  omega

section Step

variable (rt : Runtime σ) {dim : Nat} {s : HNSWIndex}

/-- A step of an insert leaves its arguments alone, and goes down from layer to layer. -/
theorem InsertFrame.Fits.next {f f' : InsertFrame σ} (h : f.Fits dim) (hf' : (f.step rt s).2 = some f') :
    f'.Fits dim := by
  have hkeep : ∀ (q ep : Nat) (curMax : Int) (pc : InsertPc σ), (∀ lc, pc.linkLayer = some lc → lc ≤ f.level) →
      ({ f with q, ep, curMax, pc } : InsertFrame σ).Fits dim :=
    fun _ _ _ _ hpc => ⟨h.vec_length, h.metadata_lt, h.level_lt, hpc⟩
  have hsame : ∀ (lc : Nat) (pc : InsertPc σ), f.pc.linkLayer = some lc → pc.linkLayer = some lc →
      ∀ k, pc.linkLayer = some k → k ≤ f.level :=
    fun lc pc hlc hpc k hk => h.layer_le k (hlc.trans (hpc.symm.trans hk))
  unfold InsertFrame.step at hf'
  split at hf'
  · dsimp only at hf'
    split_ifs at hf'
    exact Option.some.inj hf' ▸ hkeep _ _ _ _ nofun
  · refine Option.some.inj hf' ▸ hkeep _ _ _ _ fun lc hlc => ?_
    split_ifs at hlc
    · contradiction
    · have hle := linkLayer_linkPc hlc
      exact hle
  · refine Option.some.inj hf' ▸ hkeep _ _ _ _ fun lc hlc => ?_
    split_ifs at hlc
    · contradiction
    · have hle := linkLayer_linkPc hlc
      exact hle
  · exact Option.some.inj hf' ▸ hkeep _ _ _ _ nofun
  · next lc out hd => exact Option.some.inj hf' ▸ hkeep _ _ _ _ (hsame lc _ (by rw [hd]; rfl) rfl)
  · next lc pc _ hd => exact Option.some.inj hf' ▸ hkeep _ _ _ _ (hsame lc _ (by rw [hd]; rfl) rfl)
  · next lc cands hd => exact Option.some.inj hf' ▸ hkeep _ _ _ _ (hsame lc _ (by rw [hd]; rfl) rfl)
  · next lc cands nb nbs hd => exact Option.some.inj hf' ▸ hkeep _ _ _ _ (hsame lc _ (by rw [hd]; rfl) rfl)
  · next lc cands hd =>
    have hle : lc ≤ f.level := h.layer_le lc (by rw [hd]; rfl)
    refine Option.some.inj hf' ▸ hkeep _ _ _ _ fun k hk => ?_
    have hk := linkLayer_linkFrom hk
    omega
  · contradiction

theorem InsertFrame.Fits.step {f : InsertFrame σ} (h : f.Fits dim) (hs : s.Savable dim)
    (hf : f.InRange s.numVectors) : (f.step rt s).1.Savable dim := by
  unfold InsertFrame.step
  split
  · exact hs.append f.id h.vec_length h.metadata_lt h.level_lt
  · exact hs
  · exact hs
  · exact hs
  · exact hs
  · exact hs
  · next lc cands hd => exact hs.setLinks lc f.q _
  · next lc cands nb nbs hd =>
    have hle : lc ≤ f.level := h.layer_le lc (by rw [hd]; rfl)
    exact hs.backLink rt (hle.trans_lt h.level_lt) f.q nb
  · exact hs
  · next hr => exact hs.raise (hf.held (by simp [hr])).1.le h.level_lt

theorem Call.Fits.step {c : Call σ} (h : c.Fits dim) (hs : s.Savable dim) (hc : c.InRange s.numVectors)
    (hits : List (σ × UInt64)) : (Machine.callStep rt s hits c).1.Savable dim ∧
      ∀ c', (Machine.callStep rt s hits c).2.1 = some c' → c'.Fits dim := by
  cases c with
  | insert f =>
    refine ⟨InsertFrame.Fits.step rt h hs hc, fun c' hc' => ?_⟩
    obtain ⟨f', hf', rfl⟩ := Option.map_eq_some_iff.mp hc'
    exact InsertFrame.Fits.next rt h hf'
  | search f =>
    unfold Machine.callStep
    dsimp only
    split
    · exact ⟨hs, fun c' hc' => Option.some.inj hc' ▸ trivial⟩
    · exact ⟨hs, nofun⟩
  | delete id => exact ⟨hs.deleteVector id, nofun⟩

end Step

/-- The index can be written to a file and read back. -/
structure Writable (dim : Nat) (m : Machine σ) : Prop where
  index : InRange m.index ∧ m.index.Savable dim
  calls : ∀ t c, (m.threads t).call = some c → c.InRange m.index.numVectors ∧ c.Fits dim

theorem writable_new (dim : Nat) (cfg : HNSWConfig) : Writable dim (Machine.new dim cfg : Machine σ) :=
  ⟨⟨(bounds_new dim cfg : Bounds (Machine.new dim cfg : Machine σ)).index, savable_new dim cfg⟩, nofun⟩

theorem Writable.next (rt : Runtime σ) {dim : Nat} {m : Machine σ} {e : Nat × Action dim} (h : Writable dim m)
    (he : e.2.Fits) : Writable dim (m.next rt e) := by
  have hbegin : ∀ c, e.2.call? = some c → Call.InRange m.index.numVectors (c : Call σ) ∧ c.Fits dim := by
    obtain ⟨t, a⟩ := e
    intro c hc
    cases a with
    | insert id vec metadata level =>
      obtain rfl := Option.some.inj hc
      exact ⟨⟨.inl ⟨rfl, rfl⟩, trivial⟩, vec.2, he.1, he.2, nofun⟩
    | search query k =>
      obtain rfl := Option.some.inj hc
      exact ⟨⟨.inl ⟨rfl, rfl⟩, trivial⟩, trivial⟩
    | delete id =>
      obtain rfl := Option.some.inj hc
      exact ⟨trivial, trivial⟩
    | step => contradiction
  obtain ⟨hindex, hcalls⟩ := Machine.next_holds rt (I := fun s => InRange s ∧ s.Savable dim)
    (C := fun s c => c.InRange s.numVectors ∧ c.Fits dim) h.index h.calls hbegin fun c hits hc => by
      obtain ⟨hstays, hafter⟩ := callStep_inRange rt h.index.1 hc.1 hits
      obtain ⟨hsavable, hfits⟩ := hc.2.step rt h.index.2 hc.1 hits
      exact ⟨⟨hstays.inRange, hsavable⟩, fun c' hc' => ⟨(hafter c' hc').1, hfits c' hc'⟩,
        fun d hd => ⟨hd.1.mono hstays.grows.1, hd.2⟩⟩
  exact ⟨hindex, hcalls⟩

theorem Writable.grows (rt : Runtime σ) {dim : Nat} {m : Machine σ} (h : Writable dim m) (e : Nat × Action dim) :
    m.index.numVectors ≤ (m.next rt e).index.numVectors := by
  rcases m.next_cases rt e with ⟨hsame, -⟩ | ⟨c, -, -, hnext⟩ | ⟨c, hcall, -, hnext⟩
  · rw [hsame]
  · rw [hnext]
    exact le_rfl
  · rw [hnext]
    exact (callStep_inRange rt h.index.1 (h.calls _ c hcall).1 _).1.grows.1

theorem Writable.count (rt : Runtime σ) {dim : Nat} {m : Machine σ} (h : Writable dim m) {e : Nat × Action dim}
    (he : e.2 = .step → ¬ (m.threads e.1).appends) :
    (m.next rt e).index.numVectors = m.index.numVectors := by
  rcases m.next_cases rt e with ⟨hsame, -⟩ | ⟨c, -, -, hnext⟩ | ⟨c, hcall, hstep, hnext⟩
  · rw [hsame]
  · rw [hnext]
    rfl
  · rw [hnext]
    apply (callStep_inRange rt h.index.1 (h.calls _ c hcall).1 _).1.count
    rintro ⟨f, rfl, hpc⟩
    exact he hstep ⟨f, hcall, hpc⟩

theorem Writable.save_loads {dim : Nat} {m : Machine σ} (h : Writable dim m) (hdim : dim < 2 ^ 32)
    (hnum : m.index.numVectors < 2 ^ 32) (r : HNSWIndex) (path : String) (junk : Nat → UInt8) :
    load r path (some m.index.save) junk = .ok { m.index with cfg := r.cfg } := by
  obtain ⟨hrange, hs⟩ := h.index
  have hstorable : m.index.Storable := {
    dim_lt := hs.dim_eq.trans_lt hdim
    num_lt := hnum.trans (by decide)
    metadata_lt := hs.metadata_lt
    layers_lt := fun g hg => by
      obtain ⟨x, hx⟩ := exists_layers_of_mem hg
      exact hx ▸ (hs.layers_le x).trans_lt (by decide)
    links_lt := fun g hg ls hls => by
      obtain ⟨l, x, rfl⟩ := exists_links_of_mem hg hls
      exact (hrange.bounded.degree l x).trans_lt (maxLinks_lt m.index l)
    maxLayer_ge := le_trans (by decide) hs.maxLayer_ge
    maxLayer_lt := hs.maxLayer_lt }
  rw [load_save_narrow hs.aligned hstorable, narrow_of_lt (hs.entry_le.trans_lt hnum)]
  intro g hg ls hls y hy
  obtain ⟨l, x, rfl⟩ := exists_links_of_mem hg hls
  exact (hrange.bounded.lt l x y hy).trans hnum

/-! ### The save -/

/-- Where the call of `save` stands. -/
inductive SavePc where
  /-- before the load of `num_vectors_` -/
  | load
  /-- before the locked region, with the count that was loaded and the header written with it -/
  | region (nv : Nat) (fp : Bytes)
  | done (fp : Bytes)

def SavePc.step (s : HNSWIndex) : SavePc → SavePc
  | .load => .region s.numVectors (headerOf s.dim s.numVectors)
  | .region nv fp => .done (fp ++ s.bodyOf nv)
  | .done fp => .done fp

/-- The calls of the threads and one `save`. -/
structure Saving (σ : Type) where
  machine : Machine σ
  pc : SavePc := .load

inductive SavingEvent (dim : Nat) where
  | thread (e : Nat × Action dim)
  | save

namespace Saving

def next {dim : Nat} (rt : Runtime σ) (m : Saving σ) : SavingEvent dim → Saving σ
  | .thread e => { m with machine := m.machine.next rt e }
  | .save => { m with pc := m.pc.step m.machine.index }

def new (dim : Nat) (cfg : HNSWConfig) : Saving σ := { machine := .new dim cfg }

def run {dim : Nat} (rt : Runtime σ) (cfg : HNSWConfig) (es : List (SavingEvent dim)) : Saving σ :=
  runFrom (next rt) (new dim cfg) es

/-- The call of `save` has loaded the count and has not returned. -/
def InSave (m : Saving σ) : Prop := ∃ nv fp, m.pc = .region nv fp

/-- No vector is appended between the load of the count and the locked region of `save`. -/
def KeepsCount {dim : Nat} (m : Saving σ) : SavingEvent dim → Prop
  | .thread e => m.InSave → e.2 = .step → ¬ (m.machine.threads e.1).appends
  | .save => True

/-- Loading `file` gives the index as it was at a moment of the call. -/
def SavesSnapshot {dim : Nat} (rt : Runtime σ) (cfg : HNSWConfig) (es : List (SavingEvent dim))
    (file : Bytes) : Prop :=
  ∃ past, past <+: es ∧ (run rt cfg past).InSave ∧ ∀ r path junk,
    load r path (some file) junk = .ok { (run rt cfg past).machine.index with cfg := r.cfg }

section Run

variable (rt : Runtime σ) {dim : Nat} {cfg : HNSWConfig} {es : List (SavingEvent dim)}

theorem run_concat (es : List (SavingEvent dim)) (e : SavingEvent dim) :
    run rt cfg (es ++ [e]) = next rt (run rt cfg es) e := runFrom_append _ _ _ _

theorem writable_run (hes : ∀ e, .thread e ∈ es → e.2.Fits) :
    Writable dim (run rt cfg es).machine := by
  induction es using List.reverseRecOn with
  | nil => exact writable_new dim cfg
  | append_singleton es e ih =>
    have hm := ih fun e he => hes e (List.mem_append_left _ he)
    rw [run_concat]
    cases e with
    | thread e => exact hm.next rt (hes e (List.mem_append_right _ (List.mem_singleton_self _)))
    | save => exact hm

theorem run_grows {past : List (SavingEvent dim)} (hes : ∀ e, .thread e ∈ es → e.2.Fits) (hpast : past <+: es) :
    (run rt cfg past).machine.index.numVectors ≤ (run rt cfg es).machine.index.numVectors := by
  obtain ⟨rest, rfl⟩ := hpast
  induction rest using List.reverseRecOn with
  | nil => rw [List.append_nil]
  | append_singleton rest e ih =>
    rw [← List.append_assoc] at hes ⊢
    have hinit : ∀ e, .thread e ∈ past ++ rest → e.2.Fits := fun e he => hes e (List.mem_append_left _ he)
    refine (ih hinit).trans ?_
    rw [run_concat]
    cases e with
    | thread e => exact (writable_run rt hinit).grows rt e
    | save => exact le_rfl

/-- What `save` has written so far, in a run in which no append comes between its two steps. -/
def Written (rt : Runtime σ) (cfg : HNSWConfig) (es : List (SavingEvent dim)) : Prop :=
  match (run rt cfg es).pc with
  | .load => True
  | .region nv fp => nv = (run rt cfg es).machine.index.numVectors ∧ fp = headerOf dim nv
  | .done fp => ∃ past, past <+: es ∧ (run rt cfg past).InSave ∧ fp = (run rt cfg past).machine.index.save

theorem written_run (hfits : ∀ e, .thread e ∈ es → e.2.Fits)
    (hes : Along (next rt) KeepsCount (new dim cfg) es) : Written rt cfg es := by
  induction es using List.reverseRecOn with
  | nil => trivial
  | append_singleton es e ih =>
    have hinit : ∀ e, .thread e ∈ es → e.2.Fits := fun e he => hfits e (List.mem_append_left _ he)
    have hm : Writable dim (run rt cfg es).machine := writable_run rt hinit
    obtain ⟨hbefore, hkeeps, -⟩ := along_append.mp hes
    have hwritten := ih hinit hbefore
    unfold Written at hwritten ⊢
    rw [run_concat]
    cases e with
    | thread e =>
      simp only [next]
      cases hpc : (run rt cfg es).pc with
      | load => trivial
      | region nv fp =>
        rw [hpc] at hwritten
        refine ⟨hwritten.1.trans ?_, hwritten.2⟩
        exact (hm.count rt (hkeeps ⟨nv, fp, hpc⟩)).symm
      | done fp =>
        rw [hpc] at hwritten
        obtain ⟨past, hpast, hrest⟩ := hwritten
        exact ⟨past, hpast.trans (List.prefix_append _ _), hrest⟩
    | save =>
      simp only [next]
      cases hpc : (run rt cfg es).pc with
      | load => exact ⟨rfl, congrArg (headerOf · _) hm.index.2.dim_eq⟩
      | region nv fp =>
        rw [hpc] at hwritten
        obtain ⟨rfl, rfl⟩ := hwritten
        refine ⟨es, List.prefix_append _ _, ⟨_, _, hpc⟩, ?_⟩
        rw [← headerOf_bodyOf, hm.index.2.dim_eq]
      | done fp =>
        rw [hpc] at hwritten
        obtain ⟨past, hpast, hrest⟩ := hwritten
        exact ⟨past, hpast.trans (List.prefix_append _ _), hrest⟩

/-- When no vector is appended between the two steps of `save`, its file is a snapshot. -/
theorem save_snapshot (hdim : dim < 2 ^ 32) (hfits : ∀ e, .thread e ∈ es → e.2.Fits)
    (hnum : (run rt cfg es).machine.index.numVectors < 2 ^ 32)
    (hes : Along (next rt) KeepsCount (new dim cfg) es) {file : Bytes}
    (hfile : (run rt cfg es).pc = .done file) : SavesSnapshot rt cfg es file := by
  have hwritten := written_run rt hfits hes
  unfold Written at hwritten
  rw [hfile] at hwritten
  obtain ⟨past, hpast, hin, rfl⟩ := hwritten
  have hm : Writable dim (run rt cfg past).machine :=
    writable_run rt fun e he => hfits e (hpast.subset he)
  exact ⟨past, hpast, hin, hm.save_loads hdim ((run_grows rt hfits hpast).trans_lt hnum)⟩

end Run

/-- A vector is deleted between the two steps of `save`. -/
def deletedMeanwhile : List (SavingEvent 1) :=
  [.thread (0, .insert 7 ⟨[7], rfl⟩ [65] 1), .thread (0, .step), .save, .thread (1, .delete 7),
    .thread (1, .step), .save]

theorem save_snapshot_deleted : ∃ file, (run Runtime.sample {} deletedMeanwhile).pc = .done file ∧
    SavesSnapshot Runtime.sample {} deletedMeanwhile file := by
  refine ⟨_, rfl, save_snapshot Runtime.sample (by decide) ?_ (by decide) ?_ rfl⟩
  · intro e he
    simp only [deletedMeanwhile, List.mem_cons, SavingEvent.thread.injEq, reduceCtorEq, List.not_mem_nil,
      or_false, false_or] at he
    rcases he with rfl | rfl | rfl | rfl
    · exact ⟨by decide, by decide⟩
    all_goals trivial
  · -- the append comes before the load of the count, and a deletion adds no slot
    have hidle : ∀ m : Saving Nat, m.pc = .load → ∀ e, KeepsCount m (.thread e : SavingEvent 1) := by
      rintro m hpc e ⟨nv, fp, hin⟩
      exact nomatch hpc.symm.trans hin
    refine .intro (hidle _ rfl _) (.intro (hidle _ rfl _) (.intro trivial (.intro (fun _ h => nomatch h)
      (.intro (fun _ _ => ?_) (.intro trivial trivial)))))
    rintro ⟨f, hf, -⟩
    exact nomatch hf

/-- A vector is appended between the two steps of `save`. -/
def appendedMeanwhile : List (SavingEvent 1) :=
  [.thread (0, .insert 7 ⟨[7], rfl⟩ [] 0), .thread (0, .step), .save, .thread (0, .insert 8 ⟨[9], rfl⟩ [] 0),
    .thread (0, .step), .save]

/-- What `save` writes there: one slot in the header, and two in the arrays. -/
def tornFile : Bytes :=
  match (run Runtime.sample { M := 6 } appendedMeanwhile).pc with
  | .done fp => fp
  | _ => []

/-- The count of the header is one, and the second id is read back as the first vector. -/
theorem save_torn : (run Runtime.sample { M := 6 } appendedMeanwhile).pc = .done tornFile ∧
    ¬ SavesSnapshot Runtime.sample { M := 6 } appendedMeanwhile tornFile := by
  refine ⟨rfl, ?_⟩
  rintro ⟨past, hpast, -, hload⟩
  have hraw := congrArg (Except.map rawVectors) (hload (.new 1 {}) "index" fun _ => 0)
  have hread : Except.map rawVectors (load (.new 1 {}) "index" (some tornFile) fun _ => 0) = .ok [8] := by
    decide +kernel
  have hnever : ∀ n < 7,
      (run Runtime.sample { M := 6 } (appendedMeanwhile.take n)).machine.index.rawVectors ≠ [8] := by decide
  apply hnever past.length (Nat.lt_succ_of_le hpast.length_le)
  rw [← List.prefix_iff_eq_take.mp hpast]
  exact Except.ok.inj (hraw.symm.trans hread)

end Saving

end Concurrent

end NeuralDb
