import NeuralDb.Python.Bindings

/-! A filtered `Index.search` beside a plain one. It asks the index for four times as many hits and keeps the first
that pass the filter. -/

namespace NeuralDb

open Library

namespace HNSWIndex

variable {σ : Type} (lib : JsonLib) (s : HNSWIndex)

theorem collectHits_of_le {k : Int} {wc : Option WhereClause} (rs : List (σ × UInt64)) {out : List (Hit σ)}
    (hk : k ≤ out.length) : collectHits lib s k wc rs out = out := by
  cases rs with
  | nil => rfl
  | cons r rs => rw [collectHits, if_pos hk]

/-- The loop appends the first hits that pass, as many as `k` leaves room for. -/
theorem collectHits_eq (wc : Option WhereClause) (rs : List (σ × UInt64)) {k : Nat} {out : List (Hit σ)}
    (hout : out.length ≤ k) :
    collectHits lib s (k : Int) wc rs out =
      out ++ ((rs.map s.toHit).filter fun h => passes lib wc h.metadata).take (k - out.length) := by
  induction rs generalizing out with
  | nil => simp [collectHits]
  | cons r rs ih =>
    rw [collectHits, List.map_cons]
    by_cases hk : (k : Int) ≤ out.length
    · rw [if_pos hk, show k - out.length = 0 by omega, List.take_zero, List.append_nil]
    rw [if_neg hk]
    by_cases hpass : passes lib wc (s.lookupMetadata r.2) = true
    · obtain ⟨n, hn⟩ : ∃ n, k - out.length = n + 1 := ⟨k - out.length - 1, by omega⟩
      have hlen : (out ++ [s.toHit r]).length = out.length + 1 := by simp
      rw [if_pos hpass, ih (by omega), hlen, hn, show k - (out.length + 1) = n by omega, List.append_assoc]
      have hhit : passes lib wc (s.toHit r).metadata = true := hpass
      rw [List.filter_cons_of_pos (p := fun h : Hit σ => passes lib wc h.metadata) hhit]
      rfl
    · have hhit : ¬ passes lib wc (s.toHit r).metadata = true := hpass
      rw [if_neg hpass, ih hout, List.filter_cons_of_neg (p := fun h : Hit σ => passes lib wc h.metadata) hhit]

/-- The loop from its start, for any `k`. -/
theorem collectHits_nil (wc : Option WhereClause) (rs : List (σ × UInt64)) (k : Int) :
    collectHits lib s k wc rs [] = ((rs.map s.toHit).filter fun h => passes lib wc h.metadata).take k.toNat := by
  rcases le_total k 0 with hk | hk
  · rw [collectHits_of_le lib s rs (by simpa using hk), show k.toNat = 0 by omega, List.take_zero]
  · obtain ⟨n, rfl⟩ := Int.eq_ofNat_of_zero_le hk
    have hempty : ([] : List (Hit σ)).length ≤ n := Nat.zero_le n
    have hloop := collectHits_eq lib s wc rs hempty
    rw [hloop, List.nil_append, List.length_nil, Nat.sub_zero, Int.toNat_natCast]

variable [LinearOrder σ] (rt : Runtime σ)

/-- The hits that Python would get without a bound on their number. -/
def allHits (floats : Option Vec) : Except PyError (List (Hit σ)) :=
  if s.numVectors = 0 ∨ s.liveEntry = none then .ok []
  else
    match floats with
    | some query => .ok ((s.liveCandidates rt query).map fun c => s.toHit (s.external c))
    | none => .error .undefined

/-- The hits of a search are the first that pass among those that it asks the index for. -/
theorem collectHits_searchPointed (wc : Option WhereClause) (k : Int) (floats : Option Vec) :
    (s.searchPointed rt floats (fetched k wc)).map (fun raw => collectHits lib s k wc raw []) =
      (s.allHits rt floats).map fun all =>
        ((all.take (fetched k wc).toNat).filter fun h => passes lib wc h.metadata).take k.toNat := by
  unfold searchPointed allHits
  split_ifs with hidle
  · rw [Except.map, Except.map, List.take_nil, List.filter_nil, List.take_nil]
    rfl
  · cases floats with
    | none => rfl
    | some query =>
      refine congrArg Except.ok ?_
      dsimp only
      rw [collectHits_nil]
      rcases le_or_gt k 0 with hk | hk
      · rw [show k.toNat = 0 by omega, List.take_zero, List.take_zero]
      · have hfetch : 1 ≤ fetched k wc := by
          rw [fetched]
          split_ifs <;> omega
        rw [searchRaw_take hfetch, List.map_map, ← List.map_take]
        rfl

variable {lib s rt} {query : NumpyArray} {k k' : Int} {filter : Option Json} {wc : Option WhereClause}
  {hits hits' : List (Hit σ)}

theorem indexSearch_all (hshape : query.shape = [s.dim]) (hwc : whereClause filter = .ok wc)
    (hfit : FitsInt (fetched k wc)) :
    s.indexSearch lib rt query k filter = (s.allHits rt (query.pointed s.dim)).map fun all =>
      ((all.take (fetched k wc).toNat).filter fun h => passes lib wc h.metadata).take k.toNat :=
  (indexSearch_eq lib rt hshape hwc hfit).trans (collectHits_searchPointed lib s rt wc k _)

/-- Without a where clause every hit passes. -/
theorem indexSearch_plain (hshape : query.shape = [s.dim]) (hfit : FitsInt k) :
    s.indexSearch lib rt query k none = (s.allHits rt (query.pointed s.dim)).map fun all => all.take k.toNat := by
  rw [indexSearch_all hshape whereClause_none hfit]
  congr 1
  funext all
  have hpass : ∀ hits : List (Hit σ), (hits.filter fun h => passes lib none h.metadata) = hits :=
    fun hits => List.filter_eq_self.mpr fun _ _ => rfl
  rw [hpass, List.take_take]
  exact congrArg (all.take ·) (Nat.min_self _)

/-- The clause that a search is made with, and the hits that it returns. -/
theorem indexSearch_hits (h : s.indexSearch lib rt query k filter = .ok hits) :
    ∃ wc all, whereClause filter = .ok wc ∧ s.allHits rt (query.pointed s.dim) = .ok all ∧
      hits = ((all.take (fetched k wc).toNat).filter fun h => passes lib wc h.metadata).take k.toNat := by
  obtain ⟨wc, raw, hwc, hfit, -, -⟩ := indexSearch_ok lib rt h
  rw [indexSearch_all (shape_of_ok lib rt h) hwc hfit] at h
  obtain ⟨all, hall, rfl⟩ := exists_of_map_ok h
  exact ⟨wc, all, hwc, hall, rfl⟩

theorem indexSearch_prefix (hk : k ≤ k') (h : s.indexSearch lib rt query k filter = .ok hits)
    (h' : s.indexSearch lib rt query k' filter = .ok hits') : hits <+: hits' := by
  obtain ⟨wc, all, hwc, hall, rfl⟩ := indexSearch_hits h
  obtain ⟨wc', all', hwc', hall', rfl⟩ := indexSearch_hits h'
  obtain rfl := Except.ok.inj (hwc.symm.trans hwc')
  obtain rfl := Except.ok.inj (hall.symm.trans hall')
  have hfetch : (fetched k wc).toNat ≤ (fetched k' wc).toNat := by
    unfold fetched
    split_ifs <;> omega
  have hpassed := (List.take_prefix_take_left (l := all) hfetch).filter fun h => passes lib wc h.metadata
  exact (hpassed.take k.toNat).trans (List.take_prefix_take_left (show k.toNat ≤ k'.toNat by omega))

theorem indexSearch_filtered (k : Int) (w : Json) :
    s.indexSearch lib rt query k (some w) = (do
      let _ ← query.getPtr s.dim
      let wc ← (parseWhere w).mapError .invalidArgument
      let hits ← s.indexSearch lib rt query (k * 4) none
      pure ((hits.filter fun h => lib.evaluateFilter h.metadata wc).take k.toNat)) := by
  by_cases hshape : query.shape = [s.dim]
  · rw [NumpyArray.getPtr_of_shape hshape]
    cases hw : parseWhere w with
    | error message =>
      exact indexSearch_of_clause_error lib rt hshape (whereClause_malformed hw)
    | ok wc =>
      have hwc : whereClause (some w) = .ok (some wc) := whereClause_some hw
      have hfetch : fetched k (some wc) = k * 4 := rfl
      by_cases hfit : FitsInt (k * 4)
      · rw [indexSearch_all hshape hwc (hfetch ▸ hfit), indexSearch_plain hshape hfit]
        cases s.allHits rt (query.pointed s.dim) <;> rfl
      · rw [indexSearch_unfit lib rt hshape hwc (hfetch ▸ hfit), indexSearch_unfit lib rt hshape whereClause_none hfit]
        rfl
  · obtain ⟨message, herror⟩ := NumpyArray.getPtr_of_ne hshape
    rw [indexSearch_of_getPtr_error lib rt herror, herror]
    rfl

/-- A filtered search for `k` hits is a plain one for `4 * k`, filtered and cut to `k`, also in what it throws. Any
search returns at most `k` hits, which a search for more begins with. When a filtered search comes back short, and the
plain one for `4 * k` too, no plain search has another match. -/
theorem filtered_search (lib : JsonLib) (rt : Runtime σ) (s : HNSWIndex) (query : NumpyArray) :
    (∀ (k : Int) (w : Json), s.indexSearch lib rt query k (some w) = (do
      let _ ← query.getPtr s.dim
      let wc ← (parseWhere w).mapError .invalidArgument
      let hits ← s.indexSearch lib rt query (k * 4) none
      pure ((hits.filter fun h => lib.evaluateFilter h.metadata wc).take k.toNat))) ∧
    (∀ (k k' : Int) (filter : Option Json) (hits hits' : List (Hit σ)), k ≤ k' →
      s.indexSearch lib rt query k filter = .ok hits → s.indexSearch lib rt query k' filter = .ok hits' →
      hits.length ≤ k.toNat ∧ hits <+: hits') ∧
    ∀ (k k' : Int) (w : Json) (wc : WhereClause) (hits plain all : List (Hit σ)),
      parseWhere w = .ok wc → s.indexSearch lib rt query k (some w) = .ok hits →
      s.indexSearch lib rt query (k * 4) none = .ok plain → s.indexSearch lib rt query k' none = .ok all →
      hits.length < k → plain.length < k * 4 → k * 4 ≤ k' →
      hits = all.filter fun h => lib.evaluateFilter h.metadata wc := by
  refine ⟨indexSearch_filtered, fun k k' filter hits hits' hk h h' => ⟨?_, indexSearch_prefix hk h h'⟩, ?_⟩
  · obtain ⟨wc, all, -, -, rfl⟩ := indexSearch_hits h
    exact List.length_take_le _ _
  · intro k k' w wc hits plain all hw hhits hplain hall hshort hfew hk
    have hfound : ∀ {k : Int} {hits : List (Hit σ)}, s.indexSearch lib rt query k none = .ok hits →
        ∃ found, s.allHits rt (query.pointed s.dim) = .ok found ∧ hits = found.take k.toNat := by
      intro k hits h
      obtain ⟨wc, raw, hwc, hfit, -⟩ := indexSearch_ok lib rt h
      obtain rfl : none = wc := Except.ok.inj hwc
      have hk : FitsInt k := hfit
      rw [indexSearch_plain (shape_of_ok lib rt h) hk] at h
      obtain ⟨found, hfound, rfl⟩ := exists_of_map_ok h
      exact ⟨found, hfound, rfl⟩
    rw [indexSearch_filtered, hplain, NumpyArray.getPtr_of_shape (shape_of_ok lib rt hplain), hw] at hhits
    obtain rfl : ((plain.filter fun h => lib.evaluateFilter h.metadata wc).take k.toNat) = hits := Except.ok.inj hhits
    -- the plain search is short, so there is no more to be found
    have hsame : all = plain := by
      obtain ⟨found, hp, rfl⟩ := hfound hplain
      obtain ⟨found', ha, rfl⟩ := hfound hall
      obtain rfl := Except.ok.inj (hp.symm.trans ha)
      have hlen : found.length ≤ (k * 4).toNat := by
        rw [List.length_take] at hfew
        omega
      rw [List.take_of_length_le hlen, List.take_of_length_le (by omega)]
    rw [List.length_take] at hshort
    rw [hsame, List.take_of_length_le (by omega)]

end HNSWIndex

end NeuralDb
