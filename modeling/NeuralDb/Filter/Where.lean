import NeuralDb.Filter.Json

/-! `parse_where` and `evaluate_filter`: a where clause means the conjunction of its constraints. -/

namespace NeuralDb

/-- The fields with their constraints, in the order in which the map is iterated. -/
abbrev WhereClause := AList fun _ : String => List FieldFilter

def opMap : List (String × FilterOp) :=
  [("$eq", .eq), ("$ne", .ne), ("$gt", .gt), ("$gte", .gte), ("$lt", .lt), ("$lte", .lte), ("$in", .isIn),
    ("$nin", .nin)]

def parseOp (constraint : String × Json) : Except String FieldFilter :=
  match opMap.lookup constraint.1 with
  | none => .error ("Unknown filter operator: " ++ constraint.1)
  | some op => .ok ⟨op, constraint.2⟩

/-- The filters of one field; a bare value is compared with `$eq`. -/
def parseSpec : Json → Except String (List FieldFilter)
  | .object items => items.mapM parseOp
  | spec => .ok [⟨.eq, spec⟩]

/-- One round of the loop over the fields. -/
def addField (result : WhereClause) (f : String × Json) : Except String WhereClause := do
  let filters ← parseSpec f.2
  pure (result.insert f.1 filters)

def parseWhere : Json → Except String WhereClause
  | .object fields => fields.foldlM addField ∅
  | _ => .ok ∅

namespace JsonLib

variable (lib : JsonLib)

def evaluateFilter (metadata : Bytes) (clause : WhereClause) : Bool :=
  if clause.entries = [] then true
  else
    match lib.parse metadata with
    | some (.object fields) => clause.entries.all fun ⟨field, filters⟩ =>
      match fields.lookup field with
      | none => false
      | some fieldVal => filters.all fun ff => lib.applyOp fieldVal ff.op ff.value
    | _ => false

/-- `evaluate_filter(m, parse_where({field: {op: operand}}))`. -/
def satisfies (metadata : Bytes) (field op : String) (operand : Json) : Bool :=
  match parseWhere (.object [(field, .object [(op, operand)])]) with
  | .ok clause => lib.evaluateFilter metadata clause
  | .error _ => false

/-- The metadata is an object with the field, and its value passes. -/
def holdsAt (metadata : Bytes) (field : String) (passes : Json → Bool) : Bool :=
  match lib.parse metadata with
  | some (.object fields) => (fields.lookup field).any passes
  | _ => false

/-- The early returns together say that every entry of the map holds. -/
theorem evaluateFilter_eq (metadata : Bytes) (clause : WhereClause) :
    lib.evaluateFilter metadata clause = clause.entries.all fun e =>
      lib.holdsAt metadata e.1 fun v => e.2.all fun ff => lib.applyOp v ff.op ff.value := by
  unfold evaluateFilter holdsAt
  split_ifs with hempty
  · rw [hempty]
    rfl
  · obtain ⟨e, rest, hcons⟩ := List.exists_cons_of_ne_nil hempty
    split
    · next fields _ =>
      congr 1
      funext ⟨field, filters⟩
      dsimp only
      cases fields.lookup field <;> rfl
    · rw [hcons, List.all_cons, Bool.false_and]

theorem holdsAt_all {β : Type} (metadata : Bytes) (field : String) (passes : β → Json → Bool) {bs : List β}
    (hne : bs ≠ []) :
    lib.holdsAt metadata field (fun v => bs.all fun b => passes b v) =
      bs.all fun b => lib.holdsAt metadata field (passes b) := by
  obtain ⟨b, rest, rfl⟩ := List.exists_cons_of_ne_nil hne
  unfold holdsAt
  split
  · next fields _ =>
    cases fields.lookup field with
    | none => rfl
    | some v => rfl
  · rfl

theorem holdsAt_any {β : Type} (metadata : Bytes) (field : String) (passes : β → Json → Bool) (bs : List β) :
    lib.holdsAt metadata field (fun v => bs.any fun b => passes b v) =
      bs.any fun b => lib.holdsAt metadata field (passes b) := by
  unfold holdsAt
  split
  · next fields _ =>
    cases fields.lookup field with
    | none => simp
    | some v => rfl
  · simp

end JsonLib

/-! ### What a clause is parsed to -/

/-- The constraints of a field's specification, a bare value as one with `$eq`. -/
def specConstraints : Json → List (String × Json)
  | .object items => items
  | spec => [("$eq", spec)]

def constraints (fields : List (String × Json)) : List (String × String × Json) :=
  fields.flatMap fun f => (specConstraints f.2).map fun c => (f.1, c)

theorem parseSpec_eq (spec : Json) : parseSpec spec = (specConstraints spec).mapM parseOp := by
  cases spec <;> rfl

/-- The filters that are parsed, for constraints with known operators. -/
def knownFilters (cs : List (String × Json)) : List FieldFilter :=
  cs.filterMap fun c => (opMap.lookup c.1).map fun op => ⟨op, c.2⟩

def Known (cs : List (String × Json)) : Prop := ∀ c ∈ cs, (opMap.lookup c.1).isSome

instance (cs : List (String × Json)) : Decidable (Known cs) := inferInstanceAs (Decidable (∀ c ∈ cs, _))

theorem mapM_parseOp (cs : List (String × Json)) :
    (Known cs ∧ cs.mapM parseOp = .ok (knownFilters cs)) ∨
      ∃ c ∈ cs, opMap.lookup c.1 = none ∧ cs.mapM parseOp = .error ("Unknown filter operator: " ++ c.1) := by
  induction cs with
  | nil => exact .inl ⟨fun c hc => absurd hc List.not_mem_nil, rfl⟩
  | cons c cs ih =>
    cases hop : opMap.lookup c.1 with
    | none =>
      refine .inr ⟨c, List.mem_cons_self, hop, ?_⟩
      rw [List.mapM_cons, parseOp, hop]
      rfl
    | some op =>
      rcases ih with ⟨hknown, hparse⟩ | ⟨d, hd, hlookup, hparse⟩
      · refine .inl ⟨?_, ?_⟩
        · intro d hd
          rcases List.mem_cons.mp hd with rfl | hd
          · rw [hop]
            rfl
          · exact hknown d hd
        · have hfilters : knownFilters (c :: cs) = ⟨op, c.2⟩ :: knownFilters cs :=
            List.filterMap_cons_some (by rw [hop]; rfl)
          rw [List.mapM_cons, parseOp, hop, hparse, hfilters]
          rfl
      · refine .inr ⟨d, List.mem_cons_of_mem c hd, hlookup, ?_⟩
        rw [List.mapM_cons, parseOp, hop, hparse]
        rfl

/-- The entry of the map for a field. -/
def fieldEntry (f : String × Json) : (_ : String) × List FieldFilter := ⟨f.1, knownFilters (specConstraints f.2)⟩

theorem foldlM_addField (fields : List (String × Json)) {clause : WhereClause}
    (hkeys : (fields.map Prod.fst).Nodup) (hnew : ∀ f ∈ fields, f.1 ∉ clause) :
    ((∀ f ∈ fields, Known (specConstraints f.2)) ∧
        ∃ result, fields.foldlM addField clause = .ok result ∧
          result.entries.Perm (fields.map fieldEntry ++ clause.entries)) ∨
      ∃ f ∈ fields, ∃ c ∈ specConstraints f.2, opMap.lookup c.1 = none ∧
        fields.foldlM addField clause = .error ("Unknown filter operator: " ++ c.1) := by
  induction fields generalizing clause with
  | nil => exact .inl ⟨fun f hf => absurd hf List.not_mem_nil, clause, rfl, List.Perm.refl _⟩
  | cons f fields ih =>
    obtain ⟨hf, hrest⟩ := List.nodup_cons.mp hkeys
    rcases mapM_parseOp (specConstraints f.2) with ⟨hknown, hparse⟩ | ⟨c, hc, hlookup, hparse⟩
    · let next := clause.insert f.1 (knownFilters (specConstraints f.2))
      have hadd : addField clause f = .ok next := by
        rw [addField, parseSpec_eq, hparse]
        rfl
      have hfold : (f :: fields).foldlM addField clause = fields.foldlM addField next := by
        rw [List.foldlM_cons, hadd]
        rfl
      have hout : ∀ g ∈ fields, g.1 ∉ next := by
        intro g hg hmem
        rcases (AList.mem_insert clause).mp hmem with heq | hmem
        · exact hf (heq ▸ List.mem_map_of_mem hg)
        · exact hnew g (List.mem_cons_of_mem f hg) hmem
      rw [hfold]
      rcases ih hrest hout with ⟨hall, result, hresult, hperm⟩ | ⟨g, hg, herror⟩
      · left
        refine ⟨?_, result, hresult, ?_⟩
        · intro g hg
          rcases List.mem_cons.mp hg with rfl | hg
          · exact hknown
          · exact hall g hg
        · rw [AList.entries_insert_of_notMem (hnew f List.mem_cons_self)] at hperm
          exact hperm.trans List.perm_middle
      · exact .inr ⟨g, List.mem_cons_of_mem f hg, herror⟩
    · right
      refine ⟨f, List.mem_cons_self, c, hc, hlookup, ?_⟩
      rw [List.foldlM_cons, addField, parseSpec_eq, hparse]
      rfl

/-- An unknown operator stands in an object: a bare value has the operator `$eq`. -/
theorem exists_items {spec : Json} {c : String × Json} (hc : c ∈ specConstraints spec)
    (hlookup : opMap.lookup c.1 = none) : ∃ items, spec = .object items ∧ c ∈ items := by
  have hbare : c ∉ [("$eq", spec)] := by
    intro hmem
    rw [List.mem_singleton.mp hmem] at hlookup
    change opMap.lookup "$eq" = none at hlookup
    exact absurd hlookup (by decide)
  cases spec with
  | object items => exact ⟨items, rfl, hc⟩
  | _ => exact absurd hc hbare

theorem lookup_opMap_eq_none {key : String} : opMap.lookup key = none ↔ key ∉ opMap.map Prod.fst := by
  rw [List.lookup_eq_none_iff, List.mem_map]
  constructor
  · rintro h ⟨p, hp, rfl⟩
    exact absurd rfl (bne_iff_ne.mp (h p hp))
  · intro h p hp
    apply bne_iff_ne.mpr
    exact fun heq => h ⟨p, hp, heq.symm⟩

/-- `parse_where` gives the filters of each field, or names an operator that it does not know. -/
theorem parseWhere_object {fields : List (String × Json)} (hkeys : (fields.map Prod.fst).Nodup) :
    ((∀ f ∈ fields, Known (specConstraints f.2)) ∧
        ∃ clause, parseWhere (.object fields) = .ok clause ∧ clause.entries.Perm (fields.map fieldEntry)) ∨
      ∃ field items key val, (field, .object items) ∈ fields ∧ (key, val) ∈ items ∧ key ∉ opMap.map Prod.fst ∧
        parseWhere (.object fields) = .error ("Unknown filter operator: " ++ key) := by
  have hfold := @foldlM_addField fields ∅ hkeys fun f _ => AList.notMem_empty f.1
  rcases hfold with ⟨hall, clause, hparse, hperm⟩ | ⟨f, hf, c, hc, hlookup, herror⟩
  · rw [AList.empty_entries, List.append_nil] at hperm
    exact .inl ⟨hall, clause, hparse, hperm⟩
  · obtain ⟨items, hspec, hin⟩ := exists_items hc hlookup
    refine .inr ⟨f.1, items, c.1, c.2, ?_, hin, lookup_opMap_eq_none.mp hlookup, herror⟩
    rw [← hspec]
    exact hf

namespace JsonLib

section Clause

variable (lib : JsonLib)

theorem evaluateFilter_fields {fields : List (String × Json)} {clause : WhereClause}
    (h : clause.entries.Perm (fields.map fieldEntry)) (metadata : Bytes) :
    lib.evaluateFilter metadata clause = fields.all fun f => lib.holdsAt metadata f.1 fun v =>
      (knownFilters (specConstraints f.2)).all fun ff => lib.applyOp v ff.op ff.value := by
  rw [evaluateFilter_eq, h.all_eq, List.all_map]
  rfl

theorem satisfies_eq (metadata : Bytes) (field : String) {key : String} {op : FilterOp}
    (hop : opMap.lookup key = some op) (operand : Json) :
    lib.satisfies metadata field key operand = lib.holdsAt metadata field fun v => lib.applyOp v op operand := by
  have hfilters : knownFilters [(key, operand)] = [⟨op, operand⟩] :=
    List.filterMap_cons_some (by rw [hop]; rfl)
  have hkeys : ([(field, Json.object [(key, operand)])].map Prod.fst).Nodup := List.nodup_singleton field
  rcases parseWhere_object hkeys with ⟨-, clause, hparse, hperm⟩ | ⟨f, items, k, v, hin, hmem, hk, -⟩
  · rw [satisfies, hparse]
    dsimp only
    rw [lib.evaluateFilter_fields hperm, List.all_cons, List.all_nil, Bool.and_true]
    change lib.holdsAt metadata field (fun v => (knownFilters [(key, operand)]).all _) = _
    rw [hfilters]
    simp only [List.all_cons, List.all_nil, Bool.and_true]
  · -- the one key of the clause is known
    obtain ⟨rfl, hitems⟩ := Prod.mk.inj (List.mem_singleton.mp hin)
    rw [Json.object.inj hitems] at hmem
    obtain ⟨rfl, -⟩ := Prod.mk.inj (List.mem_singleton.mp hmem)
    rw [lookup_opMap_eq_none.mpr hk] at hop
    contradiction

/-- The filters of a field hold together when its constraints hold one by one. -/
theorem holdsAt_knownFilters (metadata : Bytes) (field : String) {cs : List (String × Json)} (hknown : Known cs)
    (hne : cs ≠ []) :
    lib.holdsAt metadata field (fun v => (knownFilters cs).all fun ff => lib.applyOp v ff.op ff.value) =
      cs.all fun c => lib.satisfies metadata field c.1 c.2 := by
  have hfilters : (fun v => (knownFilters cs).all fun ff => lib.applyOp v ff.op ff.value) =
      fun v => cs.all fun c => (opMap.lookup c.1).all fun op => lib.applyOp v op c.2 := by
    funext v
    rw [knownFilters, List.all_filterMap]
    congr 1
    funext c
    cases opMap.lookup c.1 <;> rfl
  rw [hfilters, lib.holdsAt_all metadata field _ hne]
  rw [Bool.eq_iff_iff, List.all_eq_true, List.all_eq_true]
  apply forall₂_congr
  intro c hc
  obtain ⟨op, hop⟩ := Option.isSome_iff_exists.mp (hknown c hc)
  rw [lib.satisfies_eq metadata field hop, hop]
  rfl

theorem holdsAt_mono {metadata : Bytes} {field : String} {p q : Json → Bool} (hpq : ∀ v, p v = true → q v = true)
    (h : lib.holdsAt metadata field p = true) : lib.holdsAt metadata field q = true := by
  unfold holdsAt at h ⊢
  split at h
  · next fields _ =>
    cases hv : fields.lookup field with
    | none =>
      rw [hv] at h
      exact absurd h Bool.false_ne_true
    | some v =>
      rw [hv] at h
      exact hpq v h
  · exact absurd h Bool.false_ne_true

end Clause

/-- Every field of the one clause is in the other with its constraints, and perhaps others. -/
def Extends (fields fields' : List (String × Json)) : Prop :=
  ∀ f ∈ fields, ∃ spec, (f.1, spec) ∈ fields' ∧ specConstraints f.2 ⊆ specConstraints spec

theorem knownFilters_subset {cs cs' : List (String × Json)} (h : cs ⊆ cs') : knownFilters cs ⊆ knownFilters cs' := by
  intro ff hff
  obtain ⟨c, hc, heq⟩ := List.mem_filterMap.mp hff
  exact List.mem_filterMap.mpr ⟨c, h hc, heq⟩

variable (lib : JsonLib)

theorem evaluateFilter_extends {fields fields' : List (String × Json)} {clause clause' : WhereClause}
    (h : clause.entries.Perm (fields.map fieldEntry)) (h' : clause'.entries.Perm (fields'.map fieldEntry))
    (hext : Extends fields fields') {metadata : Bytes} (htrue : lib.evaluateFilter metadata clause' = true) :
    lib.evaluateFilter metadata clause = true := by
  rw [lib.evaluateFilter_fields h', List.all_eq_true] at htrue
  rw [lib.evaluateFilter_fields h, List.all_eq_true]
  intro f hf
  obtain ⟨spec, hspec, hsub⟩ := hext f hf
  apply lib.holdsAt_mono _ (htrue (f.1, spec) hspec)
  intro v hall
  rw [List.all_eq_true] at hall ⊢
  exact fun ff hff => hall ff (knownFilters_subset hsub hff)

theorem lookup_eq : opMap.lookup "$eq" = some .eq := rfl

theorem lookup_in : opMap.lookup "$in" = some .isIn := rfl

theorem satisfies_in (metadata : Bytes) (field : String) (elems : List Json) :
    lib.satisfies metadata field "$in" (.array elems) = elems.any fun e => lib.satisfies metadata field "$eq" e := by
  simp only [lib.satisfies_eq metadata field lookup_in, lib.satisfies_eq metadata field lookup_eq]
  exact lib.holdsAt_any metadata field (fun e v => lib.applyOp v .eq e) elems

theorem satisfies_nin {metadata : Bytes} {field : String} {contents : List (String × Json)} (elems : List Json)
    (hmeta : lib.parse metadata = some (.object contents)) (hfield : (contents.lookup field).isSome = true) :
    lib.satisfies metadata field "$nin" (.array elems) = !elems.any fun e => lib.satisfies metadata field "$eq" e := by
  obtain ⟨v, hv⟩ := Option.isSome_iff_exists.mp hfield
  have hpresent : ∀ passes : Json → Bool, lib.holdsAt metadata field passes = passes v := by
    intro passes
    rw [holdsAt, hmeta]
    dsimp only
    rw [hv]
    rfl
  have hnin : opMap.lookup "$nin" = some .nin := rfl
  rw [← lib.satisfies_in, lib.satisfies_eq metadata field hnin, lib.satisfies_eq metadata field lookup_in, hpresent,
    hpresent]
  rfl

section Parsed

variable {fields : List (String × Json)} (hkeys : (fields.map Prod.fst).Nodup)

include hkeys

theorem parseWhere_ok {clause : WhereClause} (hparse : parseWhere (.object fields) = .ok clause) :
    (∀ f ∈ fields, Known (specConstraints f.2)) ∧ clause.entries.Perm (fields.map fieldEntry) := by
  rcases parseWhere_object hkeys with ⟨hknown, result, hresult, hperm⟩ | ⟨_, _, _, _, -, -, -, herror⟩
  · rw [hparse] at hresult
    exact ⟨hknown, Except.ok.inj hresult ▸ hperm⟩
  · rw [hparse] at herror
    contradiction

theorem parseWhere_error_iff : (∃ message, parseWhere (.object fields) = .error message) ↔
    ∃ field items key val, (field, .object items) ∈ fields ∧ (key, val) ∈ items ∧ key ∉ opMap.map Prod.fst := by
  constructor
  · rintro ⟨message, hmessage⟩
    rcases parseWhere_object hkeys with ⟨-, clause, hparse, -⟩ | ⟨field, items, key, val, hin, hmem, hkey, -⟩
    · rw [hparse] at hmessage
      contradiction
    · exact ⟨field, items, key, val, hin, hmem, hkey⟩
  · rintro ⟨field, items, key, val, hin, hmem, hkey⟩
    rcases parseWhere_object hkeys with ⟨hknown, -⟩ | ⟨_, _, _, _, -, -, -, herror⟩
    · have hsome := hknown _ hin (key, val) hmem
      rw [lookup_opMap_eq_none.mpr hkey] at hsome
      exact absurd hsome Bool.false_ne_true
    · exact ⟨_, herror⟩

/-- Without an empty condition a parsed clause means the conjunction of its constraints. -/
theorem evaluateFilter_constraints {clause clause' : WhereClause} (hparse : parseWhere (.object fields) = .ok clause)
    (hperm : clause'.entries.Perm clause.entries) (hempty : ∀ field, (field, .object []) ∉ fields)
    (metadata : Bytes) : lib.evaluateFilter metadata clause' =
      (constraints fields).all fun c => lib.satisfies metadata c.1 c.2.1 c.2.2 := by
  obtain ⟨hknown, hentries⟩ := parseWhere_ok hkeys hparse
  rw [lib.evaluateFilter_fields (hperm.trans hentries), constraints, List.all_flatMap, Bool.eq_iff_iff,
    List.all_eq_true, List.all_eq_true]
  apply forall₂_congr
  intro f hf
  have hne : specConstraints f.2 ≠ [] := by
    intro hnil
    cases hspec : f.2 with
    | object items =>
      rw [hspec] at hnil
      obtain rfl : items = [] := hnil
      exact hempty f.1 (hspec ▸ hf)
    | _ =>
      -- any other condition is one `$eq`
      rw [hspec] at hnil
      exact absurd hnil (List.cons_ne_nil _ _)
  rw [lib.holdsAt_knownFilters metadata f.1 (hknown f hf) hne, List.all_map]
  rfl

end Parsed

/-- `parse_where` throws exactly on an unknown operator. Otherwise the clause, in any order of its map, means
the conjunction of its constraints; `$in` means some `$eq` and `$nin` on a present field no `$eq`; and more
constraints never match more. -/
theorem where_conjunction {fields : List (String × Json)} (hkeys : (fields.map Prod.fst).Nodup) :
    ((∃ message, parseWhere (.object fields) = .error message) ↔
      ∃ field items key val, (field, .object items) ∈ fields ∧ (key, val) ∈ items ∧ key ∉ opMap.map Prod.fst) ∧
    (∀ clause clause', parseWhere (.object fields) = .ok clause → clause'.entries.Perm clause.entries →
      (∀ field, (field, .object []) ∉ fields) → ∀ metadata,
        lib.evaluateFilter metadata clause' =
          (constraints fields).all fun c => lib.satisfies metadata c.1 c.2.1 c.2.2) ∧
    (∀ metadata field elems, lib.satisfies metadata field "$in" (.array elems) =
      elems.any fun e => lib.satisfies metadata field "$eq" e) ∧
    (∀ metadata field elems contents, lib.parse metadata = some (.object contents) →
      (contents.lookup field).isSome = true → lib.satisfies metadata field "$nin" (.array elems) =
        !elems.any fun e => lib.satisfies metadata field "$eq" e) ∧
    ∀ fields' clause clause' metadata, (fields'.map Prod.fst).Nodup → Extends fields fields' →
      parseWhere (.object fields) = .ok clause → parseWhere (.object fields') = .ok clause' →
      lib.evaluateFilter metadata clause = false → lib.evaluateFilter metadata clause' = false := by
  refine ⟨parseWhere_error_iff hkeys, ?_, ?_, ?_, ?_⟩
  · intro clause clause' hparse hperm hempty metadata
    exact lib.evaluateFilter_constraints hkeys hparse hperm hempty metadata
  · intro metadata field elems
    exact lib.satisfies_in metadata field elems
  · intro metadata field elems contents hmeta hfield
    exact lib.satisfies_nin elems hmeta hfield
  · intro fields' clause clause' metadata hkeys' hext hparse hparse' hfalse
    by_contra htrue
    rw [Bool.not_eq_false] at htrue
    have hentries := (parseWhere_ok hkeys hparse).2
    have hentries' := (parseWhere_ok hkeys' hparse').2
    rw [lib.evaluateFilter_extends hentries hentries' hext htrue] at hfalse
    exact absurd hfalse.symm Bool.false_ne_true

def yearClause : List (String × Json) :=
  [("year", .object [("$gte", .integer 2020), ("$lt", .integer 2024)]), ("tag", .string "x")]

def yearText : Bytes := "\x7b\"tag\":\"x\",\"year\":2022\x7d".toUTF8.toList

def yearLib : JsonLib := sample [(yearText, .object [("tag", .string "x"), ("year", .unsigned 2022)])]

theorem where_conjunction_year :
    ∃ clause, parseWhere (.object yearClause) = .ok clause ∧ yearLib.evaluateFilter yearText clause = true ∧
      yearLib.evaluateFilter yearText clause =
        (constraints yearClause).all fun c => yearLib.satisfies yearText c.1 c.2.1 c.2.2 := by
  have hkeys : (yearClause.map Prod.fst).Nodup := by decide
  refine ⟨_, rfl, by decide +kernel,
    (where_conjunction yearLib hkeys).2.1 _ _ rfl (List.Perm.refl _) (fun field hempty => ?_) yearText⟩
  rcases List.mem_cons.mp hempty with heq | hempty
  · exact absurd (Json.object.inj (Prod.mk.inj heq).2) (List.cons_ne_nil _ _).symm
  · have heq := List.mem_singleton.mp hempty
    exact absurd (Prod.mk.inj heq).2 (fun h => Json.noConfusion h)

end JsonLib

end NeuralDb
