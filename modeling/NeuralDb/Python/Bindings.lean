import NeuralDb.Filter.Where
import NeuralDb.Hnsw.Deletion
import NeuralDb.Hnsw.Exact
import NeuralDb.Hnsw.NodeIds
import NeuralDb.Python.Arrays

/-! `Index.search` of the Python module. A search of the index gives external ids, and the binding looks
up the metadata of the first slot that carries the id, which need not be the slot that was found. -/

namespace NeuralDb

open Library

/-- A hit as Python gets it. Its dict is made from the metadata text. -/
structure Hit (σ : Type) where
  id : UInt64
  score : σ
  metadata : Bytes
  deriving DecidableEq

def FitsInt (z : Int) : Prop := -2 ^ 31 ≤ z ∧ z < 2 ^ 31

instance (z : Int) : Decidable (FitsInt z) := inferInstanceAs (Decidable (_ ∧ _))

namespace HNSWIndex

/-- The metadata of the internal id that the binding finds for an external one. It counts the slots with a
`uint32_t`, and takes slot 0 when it finds none. -/
def lookupMetadata (s : HNSWIndex) (id : UInt64) : Bytes :=
  s.metadata.getD (((s.idMap.take (s.numVectors % 2 ^ 32)).idxOf? id).getD 0) []

def toHit {σ : Type} (s : HNSWIndex) (r : σ × UInt64) : Hit σ := ⟨r.2, r.1, s.lookupMetadata r.2⟩

/-- `!has_where || evaluate_filter(meta, wc)`. -/
def passes (lib : JsonLib) (wc : Option WhereClause) (metadata : Bytes) : Bool :=
  wc.all fun wc => lib.evaluateFilter metadata wc

/-- The loop over the results of the index, until `k` hits are returned. -/
def collectHits {σ : Type} (lib : JsonLib) (s : HNSWIndex) (k : Int) (wc : Option WhereClause) :
    List (σ × UInt64) → List (Hit σ) → List (Hit σ)
  | [], out => out
  | r :: rs, out =>
    if k ≤ out.length then out
    else if passes lib wc (s.lookupMetadata r.2) then collectHits lib s k wc rs (out ++ [s.toHit r])
    else collectHits lib s k wc rs out

/-- `search` through the pointer of an array. An index without a live slot does not read the query. -/
def searchPointed {σ : Type} [LinearOrder σ] (rt : Runtime σ) (s : HNSWIndex) (floats : Option Vec) (k : Int) :
    Except PyError (List (σ × UInt64)) :=
  if s.numVectors = 0 ∨ s.liveEntry = none then .ok []
  else
    match floats with
    | some query => .ok (s.searchRaw rt query k)
    | none => .error .undefined

/-- The where clause of a search, from the JSON value that `py_to_json` makes of a `where` that is not `None`. -/
def whereClause (filter : Option Json) : Except PyError (Option WhereClause) :=
  filter.mapM fun w => (parseWhere w).mapError .invalidArgument

def fetched (k : Int) (wc : Option WhereClause) : Int := if wc.isSome then k * 4 else k

/-- `Index.search`. -/
def indexSearch {σ : Type} [LinearOrder σ] (lib : JsonLib) (rt : Runtime σ) (s : HNSWIndex) (query : NumpyArray)
    (k : Int) (filter : Option Json) : Except PyError (List (Hit σ)) := do
  let floats ← query.getPtr s.dim
  let wc ← whereClause filter
  if FitsInt (fetched k wc) then do
    let rawResults ← s.searchPointed rt floats (fetched k wc)
    pure (collectHits lib s k wc rawResults [])
  else .error .undefined

/-- The metadata satisfies the where clause, if one is given. -/
def Satisfies (lib : JsonLib) (filter : Option Json) (metadata : Bytes) : Prop :=
  ∀ w, filter = some w → ∃ wc, parseWhere w = .ok wc ∧ lib.evaluateFilter metadata wc = true

section Collect

variable {σ : Type} (lib : JsonLib) (s : HNSWIndex) {k : Int} {wc : Option WhereClause}

theorem mem_collectHits {rs : List (σ × UInt64)} {out : List (Hit σ)} {h : Hit σ}
    (hh : h ∈ collectHits lib s k wc rs out) :
    h ∈ out ∨ ∃ r ∈ rs, h = s.toHit r ∧ passes lib wc h.metadata = true := by
  induction rs generalizing out with
  | nil => exact .inl hh
  | cons r rs ih =>
    have hlater : (∃ r' ∈ rs, h = s.toHit r' ∧ passes lib wc h.metadata = true) →
        ∃ r' ∈ r :: rs, h = s.toHit r' ∧ passes lib wc h.metadata = true :=
      fun ⟨r', hr', hrest⟩ => ⟨r', List.mem_cons_of_mem r hr', hrest⟩
    rw [collectHits] at hh
    split_ifs at hh with hk hpass
    · exact .inl hh
    · rcases ih hh with hout | hrest
      · rcases List.mem_append.mp hout with hout | hnew
        · exact .inl hout
        · obtain rfl := List.mem_singleton.mp hnew
          exact .inr ⟨r, List.mem_cons_self, rfl, hpass⟩
      · exact .inr (hlater hrest)
    · exact (ih hh).imp_right hlater

end Collect

section Search

variable {σ : Type} [LinearOrder σ] (lib : JsonLib) (rt : Runtime σ) {s : HNSWIndex} {query : NumpyArray} {k : Int}
  {filter : Option Json} {wc : Option WhereClause} {hits : List (Hit σ)}

theorem searchPointed_some (s : HNSWIndex) (words : Vec) (k : Int) :
    s.searchPointed rt (some words) k = .ok (s.searchRaw rt words k) := by
  unfold searchPointed
  split_ifs with hnone
  · refine congrArg Except.ok (Eq.symm ?_)
    unfold searchRaw search
    split_ifs with h0
    · rfl
    · rw [hnone.resolve_left h0]
      rfl
  · rfl

theorem indexSearch_eq (hshape : query.shape = [s.dim]) (hwc : whereClause filter = .ok wc)
    (hfit : FitsInt (fetched k wc)) :
    s.indexSearch lib rt query k filter = (s.searchPointed rt (query.pointed s.dim) (fetched k wc)).map fun raw =>
      collectHits lib s k wc raw [] := by
  unfold indexSearch
  rw [NumpyArray.getPtr_of_shape hshape, hwc]
  change (if FitsInt (fetched k wc) then _ else _) = _
  rw [if_pos hfit]
  cases s.searchPointed rt (query.pointed s.dim) (fetched k wc) <;> rfl

theorem indexSearch_of_getPtr_error {e : PyError} (h : query.getPtr s.dim = .error e) :
    s.indexSearch lib rt query k filter = .error e := by
  unfold indexSearch
  rw [h]
  rfl

theorem indexSearch_of_clause_error {e : PyError} (hshape : query.shape = [s.dim])
    (hwc : whereClause filter = .error e) : s.indexSearch lib rt query k filter = .error e := by
  unfold indexSearch
  rw [NumpyArray.getPtr_of_shape hshape, hwc]
  rfl

theorem indexSearch_unfit (hshape : query.shape = [s.dim]) (hwc : whereClause filter = .ok wc)
    (hfit : ¬ FitsInt (fetched k wc)) : s.indexSearch lib rt query k filter = .error .undefined := by
  unfold indexSearch
  rw [NumpyArray.getPtr_of_shape hshape, hwc]
  exact if_neg hfit

theorem shape_of_ok (h : s.indexSearch lib rt query k filter = .ok hits) : query.shape = [s.dim] := by
  by_contra hne
  obtain ⟨message, herror⟩ := NumpyArray.getPtr_of_ne hne
  rw [indexSearch_of_getPtr_error lib rt herror] at h
  contradiction

theorem whereClause_none : whereClause none = .ok none := rfl

theorem whereClause_some {w : Json} {clause : WhereClause} (hw : parseWhere w = .ok clause) :
    whereClause (some w) = .ok (some clause) := by
  rw [whereClause, Option.mapM_some, hw]
  rfl

theorem whereClause_malformed {w : Json} {message : String} (hw : parseWhere w = .error message) :
    whereClause (some w) = .error (.invalidArgument message) := by
  rw [whereClause, Option.mapM_some, hw]
  rfl

theorem parsed_of_whereClause {w : Json} (hwc : whereClause (some w) = .ok wc) :
    ∃ clause, parseWhere w = .ok clause ∧ wc = some clause := by
  cases hw : parseWhere w with
  | error message =>
    rw [whereClause_malformed hw] at hwc
    contradiction
  | ok clause =>
    rw [whereClause_some hw] at hwc
    exact ⟨clause, rfl, (Except.ok.inj hwc).symm⟩

/-- A search that returns has read its clause and, if there is anything to be found, its query. -/
theorem indexSearch_ok (h : s.indexSearch lib rt query k filter = .ok hits) :
    ∃ wc raw, whereClause filter = .ok wc ∧ FitsInt (fetched k wc) ∧
      s.searchPointed rt (query.pointed s.dim) (fetched k wc) = .ok raw ∧ hits = collectHits lib s k wc raw [] := by
  have hshape := shape_of_ok lib rt h
  cases hwc : whereClause filter with
  | error e =>
    rw [indexSearch_of_clause_error lib rt hshape hwc] at h
    contradiction
  | ok wc =>
    by_cases hfit : FitsInt (fetched k wc)
    · rw [indexSearch_eq lib rt hshape hwc hfit] at h
      cases hraw : s.searchPointed rt (query.pointed s.dim) (fetched k wc) with
      | error e =>
        rw [hraw] at h
        contradiction
      | ok raw =>
        rw [hraw] at h
        exact ⟨wc, raw, rfl, hfit, hraw, (Except.ok.inj h).symm⟩
    · rw [indexSearch_unfit lib rt hshape hwc hfit] at h
      contradiction

theorem satisfies_of_passes (hwc : whereClause filter = .ok wc) {metadata : Bytes}
    (h : passes lib wc metadata = true) : Satisfies lib filter metadata := by
  rintro w rfl
  obtain ⟨clause, hparse, rfl⟩ := parsed_of_whereClause hwc
  exact ⟨clause, hparse, h⟩

/-- A hit stands for a live slot that was reached, but it has the metadata of the first slot of the id. -/
theorem Inv.hit_reached (h : s.Inv) (hk : 1 ≤ k) (hhits : s.indexSearch lib rt query k filter = .ok hits)
    {r : Hit σ} (hr : r ∈ hits) :
    ∃ words e, query.pointed s.dim = some words ∧ 0 < s.size ∧ s.searchStart rt words = some e ∧ ∃ x ∈ s.liveReached e,
      r = ⟨(s.slot x).id, rt.cosineSimilarity words (s.slot x).data, s.lookupMetadata (s.slot x).id⟩ ∧
        Satisfies lib filter r.metadata := by
  obtain ⟨wc, raw, hwc, -, hsearch, rfl⟩ := indexSearch_ok lib rt hhits
  obtain hnil | ⟨hit, hraw, rfl, hpass⟩ := mem_collectHits lib s hr
  · exact absurd hnil List.not_mem_nil
  cases hwords : query.pointed s.dim with
  | none =>
    rw [hwords] at hsearch
    unfold searchPointed at hsearch
    split_ifs at hsearch
    exact absurd (Except.ok.inj hsearch ▸ hraw) List.not_mem_nil
  | some words =>
    rw [hwords, searchPointed_some] at hsearch
    obtain rfl := Except.ok.inj hsearch
    have hfetch : 1 ≤ fetched k wc := by
      rw [fetched]
      split_ifs <;> omega
    rw [searchRaw_take hfetch] at hraw
    obtain ⟨c, hc, rfl⟩ := List.mem_map.mp hraw
    obtain ⟨e, hpos, he, hreached, hscore⟩ := h.mem_liveCandidates (List.mem_of_mem_take hc)
    refine ⟨words, e, rfl, hpos, he, c.2, hreached, ?_, satisfies_of_passes lib hwc hpass⟩
    rw [toHit, external, hscore]
    rfl

end Search

section Runs

variable {σ : Type} [LinearOrder σ] (lib : JsonLib) (rt : Runtime σ) {s : HNSWIndex} {dim : Nat}

theorem lookupMetadata_eq (h : s.numVectors < 2 ^ 32) (id : UInt64) :
    s.lookupMetadata id = s.metadata.getD ((s.firstSlot id).getD 0) [] := by
  rw [lookupMetadata, Nat.mod_eq_of_lt h]
  rfl

/-- Where no id repeats, the first slot of an id is its only one. -/
theorem Aligned.lookupMetadata_slot (h : s.Aligned) (hfew : s.numVectors < 2 ^ 32)
    (hnodup : (s.slots.map VectorSlot.id).Nodup) {x : Nat} (hx : x < s.numVectors) :
    s.lookupMetadata (s.slot x).id = (s.slot x).metadata := by
  have hlen : x < (s.slots.map VectorSlot.id).length := by rwa [List.length_map, slots_length]
  have hid : (s.slots.map VectorSlot.id)[x] = (s.slot x).id := by simp [slots]
  have hfirst : s.firstSlot (s.slot x).id = some x := by
    rw [h.firstSlot_eq, List.idxOf?_eq_some_iff]
    refine ⟨hlen, hid, fun j hj heq => ?_⟩
    exact hj.ne (hnodup.getElem_inj_iff.mp (heq.trans hid.symm))
  rw [lookupMetadata_eq hfew, hfirst]
  rfl

end Runs

end HNSWIndex

end NeuralDb
