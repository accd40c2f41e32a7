import NeuralDb.Python.Bindings

/-! Metadata on its way from Python into the index and back. It is stored as JSON text, and a dict comes back with
its numbers, strings and booleans, and with text for everything else. -/

namespace NeuralDb

open Library

/-- The objects that `py_to_json` tells apart. A dict has the texts of its keys, which need not differ, and `other` is
any object that cannot be cast to a string. There are no floats but the finite ones, and no `bytes` but those of a text
in UTF-8: JSON has no other numbers, and its printer throws at other bytes. -/
inductive PyObject where
  | none
  | bool (b : Bool)
  | int (n : Int)
  | float (d : Double)
  | str (s : String)
  | bytes (text : String)
  | list (items : List PyObject)
  | dict (items : List (String × PyObject))
  | other

/-- `j[key] = value` on an object, whose keys are kept in order. -/
def assignField (key : String) (value : Json) : List (String × Json) → List (String × Json)
  | [] => [(key, value)]
  | f :: fs =>
    if key < f.1 then (key, value) :: f :: fs
    else if key = f.1 then (key, value) :: fs
    else f :: assignField key value fs

mutual

def pyToJson : PyObject → Except PyError Json
  | .none => .ok .null
  | .bool b => .ok (.bool b)
  | .int n => if -2 ^ 63 ≤ n ∧ n < 2 ^ 63 then .ok (.integer (Int64.ofInt n)) else .error .cast
  | .float d => .ok (.float d)
  | .str s => .ok (.string s)
  | .bytes text => .ok (.string text)
  | .list items => (pyToJsonList items).map .array
  | .dict items => (pyToJsonFields [] items).map .object
  | .other => .error .cast

def pyToJsonList : List PyObject → Except PyError (List Json)
  | [] => .ok []
  | item :: items => do
    let elem ← pyToJson item
    let elems ← pyToJsonList items
    pure (elem :: elems)

def pyToJsonFields (fields : List (String × Json)) : List (String × PyObject) → Except PyError (List (String × Json))
  | [] => .ok fields
  | (key, item) :: items => do
    let value ← pyToJson item
    pyToJsonFields (assignField key value fields) items

end

/-- The bytes of a string. -/
def textBytes (s : String) : Bytes := s.toUTF8.data.toList

def dictToJson (lib : JsonLib) : PyObject → Except PyError Bytes
  | .none => .ok (textBytes "{}")
  | obj => (pyToJson obj).map fun j => textBytes (lib.dump j)

/-- The value that a field of the metadata has in the dict. -/
def fieldValue (lib : JsonLib) : Json → PyObject
  | .string s => .str s
  | .integer i => .int i.toInt
  | .unsigned u => .int u.toInt64.toInt
  | .float d => .float d
  | .bool b => .bool b
  | j => .str (lib.dump j)

/-- `items()` of the library. A value that is neither an object nor an array has itself under an empty key. -/
def Json.items : Json → List (String × Json)
  | .object fields => fields
  | .array elems => elems.zipIdx.map fun e => (toString e.2, e.1)
  | .null => []
  | j => [("", j)]

def jsonMetaToDict (lib : JsonLib) (metadata : Bytes) : Except PyError (List (String × PyObject)) :=
  match lib.parse metadata with
  | some j => .ok (j.items.map fun f => (f.1, fieldValue lib f.2))
  | none =>
    match String.fromUTF8? ⟨metadata.toArray⟩ with
    | some text => .ok [("_raw", .str text)]
    | none => .error .unicode

mutual

/-- What the library makes of the text of a value: an integer that is not negative is read as unsigned. -/
def Json.reparsed : Json → Json
  | .integer i => if 0 ≤ i.toInt then .unsigned i.toUInt64 else .integer i
  | .array elems => .array (reparsedElems elems)
  | .object fields => .object (reparsedFields fields)
  | j => j

def Json.reparsedElems : List Json → List Json
  | [] => []
  | j :: js => j.reparsed :: reparsedElems js

def Json.reparsedFields : List (String × Json) → List (String × Json)
  | [] => []
  | (key, j) :: fields => (key, j.reparsed) :: reparsedFields fields

end

/-! ### One dict, there and back -/

section Fields

theorem lookup_cons_eq_ite {α : Type} (f : String × α) (fields : List (String × α)) (x : String) :
    (f :: fields).lookup x = if x = f.1 then some f.2 else fields.lookup x := by
  rw [List.lookup_cons]
  by_cases hx : x = f.1
  · rw [if_pos hx, beq_iff_eq.mpr hx]
  · rw [if_neg hx, beq_eq_false_iff_ne.mpr hx]

theorem lookup_assignField (key x : String) (value : Json) (fields : List (String × Json)) :
    (assignField key value fields).lookup x = if x = key then some value else fields.lookup x := by
  induction fields with
  | nil => exact lookup_cons_eq_ite _ _ _
  | cons f fields ih =>
    rw [assignField]
    by_cases hlt : key < f.1
    · rw [if_pos hlt, lookup_cons_eq_ite]
    rw [if_neg hlt]
    by_cases heq : key = f.1
    · rw [if_pos heq, lookup_cons_eq_ite, lookup_cons_eq_ite, heq]
      split_ifs <;> rfl
    · rw [if_neg heq, lookup_cons_eq_ite, ih, lookup_cons_eq_ite]
      by_cases hx : x = key
      · rw [if_pos hx, if_pos hx, if_neg (hx ▸ heq)]
      · rw [if_neg hx, if_neg hx]

/-- Of the items whose keys have the same text the last one counts. -/
theorem lookup_pyToJsonFields {items : List (String × PyObject)} {fields fields' : List (String × Json)}
    (h : pyToJsonFields fields items = .ok fields') (x : String) :
    fields'.lookup x =
      match items.reverse.lookup x with
      | some item => (pyToJson item).toOption
      | none => fields.lookup x := by
  induction items generalizing fields with
  | nil =>
    rw [pyToJsonFields] at h
    exact congrArg (List.lookup x) (Except.ok.inj h).symm
  | cons item items ih =>
    obtain ⟨key, item⟩ := item
    rw [pyToJsonFields] at h
    cases hvalue : pyToJson item with
    | error e =>
      rw [hvalue] at h
      contradiction
    | ok value =>
      rw [hvalue] at h
      rw [ih h, List.reverse_cons, List.lookup_append, lookup_assignField]
      cases hlast : items.reverse.lookup x with
      | some last => rfl
      | none =>
        rw [Option.none_or, lookup_cons_eq_ite]
        by_cases hx : x = key
        · rw [if_pos hx, if_pos hx]
          exact (congrArg Except.toOption hvalue).symm
        · rw [if_neg hx, if_neg hx]
          rfl

theorem forall_mem_assignField {P : String → Prop} {key : String} (value : Json) {fields : List (String × Json)}
    (hkey : P key) (h : ∀ f ∈ fields, P f.1) : ∀ f ∈ assignField key value fields, P f.1 := by
  induction fields with
  | nil => simpa [assignField] using hkey
  | cons f fields ih =>
    rw [List.forall_mem_cons] at h
    rw [assignField]
    split_ifs
    · exact List.forall_mem_cons.mpr ⟨hkey, List.forall_mem_cons.mpr h⟩
    · exact List.forall_mem_cons.mpr ⟨hkey, h.2⟩
    · exact List.forall_mem_cons.mpr ⟨h.1, ih h.2⟩

/-- An object has its keys in order, and each of them once. -/
theorem sorted_assignField (key : String) (value : Json) {fields : List (String × Json)}
    (h : (fields.map Prod.fst).Pairwise (· < ·)) : ((assignField key value fields).map Prod.fst).Pairwise (· < ·) := by
  rw [List.pairwise_map] at h ⊢
  induction fields with
  | nil => exact List.pairwise_singleton _ _
  | cons f fields ih =>
    have hlater := List.pairwise_cons.mp h
    rw [assignField]
    split_ifs with hlt heq
    · refine List.pairwise_cons.mpr ⟨fun g hg => ?_, h⟩
      rcases List.mem_cons.mp hg with rfl | hg
      · exact hlt
      · exact hlt.trans (hlater.1 g hg)
    · exact List.pairwise_cons.mpr ⟨fun g hg => heq ▸ hlater.1 g hg, hlater.2⟩
    · have hgt : f.1 < key := lt_of_le_of_ne (not_lt.mp hlt) fun hne => heq hne.symm
      exact List.pairwise_cons.mpr ⟨forall_mem_assignField value hgt hlater.1, ih hlater.2⟩

theorem sorted_pyToJsonFields {items : List (String × PyObject)} {fields fields' : List (String × Json)}
    (h : pyToJsonFields fields items = .ok fields') (hfields : (fields.map Prod.fst).Pairwise (· < ·)) :
    (fields'.map Prod.fst).Pairwise (· < ·) := by
  induction items generalizing fields with
  | nil =>
    rw [pyToJsonFields] at h
    exact Except.ok.inj h ▸ hfields
  | cons item items ih =>
    obtain ⟨key, item⟩ := item
    rw [pyToJsonFields] at h
    cases hvalue : pyToJson item with
    | error e =>
      rw [hvalue] at h
      contradiction
    | ok value =>
      rw [hvalue] at h
      exact ih h (sorted_assignField key value hfields)

theorem map_fst_reparsedFields (fields : List (String × Json)) :
    (Json.reparsedFields fields).map Prod.fst = fields.map Prod.fst := by
  induction fields with
  | nil => rw [Json.reparsedFields]
  | cons f fields ih =>
    obtain ⟨key, j⟩ := f
    rw [Json.reparsedFields, List.map_cons, List.map_cons, ih]

theorem lookup_reparsedFields (fields : List (String × Json)) (x : String) :
    (Json.reparsedFields fields).lookup x = (fields.lookup x).map Json.reparsed := by
  induction fields with
  | nil => simp [Json.reparsedFields]
  | cons f fields ih =>
    obtain ⟨key, j⟩ := f
    rw [Json.reparsedFields, lookup_cons_eq_ite, lookup_cons_eq_ite, ih]
    split_ifs <;> rfl

theorem lookup_map_snd {α β : Type} (g : α → β) (fields : List (String × α)) (x : String) :
    (fields.map fun f => (f.1, g f.2)).lookup x = (fields.lookup x).map g := by
  induction fields with
  | nil => rfl
  | cons f fields ih =>
    rw [List.map_cons, lookup_cons_eq_ite, lookup_cons_eq_ite, ih]
    split_ifs <;> rfl

end Fields

section Values

variable (lib : JsonLib)

/-- What comes back for a value of a dict that goes into the index. -/
def returned (item : PyObject) : Option PyObject :=
  (pyToJson item).toOption.map fun j => fieldValue lib j.reparsed

/-- The values that JSON and the binding have types for. -/
def PyObject.Plain : PyObject → Prop
  | .bool _ | .int _ | .float _ | .str _ => True
  | _ => False

theorem fieldValue_integer (i : Int64) : fieldValue lib (Json.integer i).reparsed = .int i.toInt := by
  rw [Json.reparsed]
  split_ifs <;> rfl

theorem returned_eq_iff {item : PyObject} {j : Json} (h : pyToJson item = .ok j) :
    returned lib item = some item ↔ item.Plain := by
  have hreturned : returned lib item = some (fieldValue lib j.reparsed) := by rw [returned, h]; rfl
  rw [hreturned, Option.some_inj]
  cases item with
  | none =>
    obtain rfl := Except.ok.inj h
    simp [Json.reparsed, fieldValue, PyObject.Plain]
  | bool b =>
    obtain rfl := Except.ok.inj h
    simp [Json.reparsed, fieldValue, PyObject.Plain]
  | int n =>
    rw [pyToJson] at h
    split_ifs at h with hn
    obtain rfl := Except.ok.inj h
    rw [fieldValue_integer, Int64.toInt_ofInt_of_le hn.1 hn.2]
    exact iff_of_true rfl trivial
  | float d =>
    obtain rfl := Except.ok.inj h
    simp [Json.reparsed, fieldValue, PyObject.Plain]
  | str s =>
    obtain rfl := Except.ok.inj h
    simp [Json.reparsed, fieldValue, PyObject.Plain]
  | bytes text =>
    obtain rfl := Except.ok.inj h
    simp [Json.reparsed, fieldValue, PyObject.Plain]
  | list items =>
    rw [pyToJson] at h
    obtain ⟨elems, -, rfl⟩ := exists_of_map_ok h
    simp [Json.reparsed, fieldValue, PyObject.Plain]
  | dict items =>
    rw [pyToJson] at h
    obtain ⟨fields, -, rfl⟩ := exists_of_map_ok h
    simp [Json.reparsed, fieldValue, PyObject.Plain]
  | other => contradiction

end Values

section RoundTrip

variable {lib : JsonLib}

/-- The library reads back the text that it writes for a value. -/
def JsonLib.ReadsBack (lib : JsonLib) (j : Json) : Prop := lib.parse (textBytes (lib.dump j)) = some j.reparsed

variable {items : List (String × PyObject)} {fields : List (String × Json)}

theorem dictToJson_dict (hfields : pyToJsonFields [] items = .ok fields) :
    dictToJson lib (.dict items) = .ok (textBytes (lib.dump (.object fields))) := by
  rw [dictToJson, pyToJson, hfields]
  · rfl
  · exact fun h => PyObject.noConfusion h

theorem jsonMetaToDict_dump (hlib : lib.ReadsBack (.object fields)) :
    jsonMetaToDict lib (textBytes (lib.dump (.object fields))) =
      .ok ((Json.reparsedFields fields).map fun f => (f.1, fieldValue lib f.2)) := by
  rw [jsonMetaToDict, hlib]
  rw [Json.reparsed]
  rfl

/-- The value of a key comes back as what the binding makes of the last item with that key. -/
theorem lookup_returned (hfields : pyToJsonFields [] items = .ok fields) (key : String) :
    ((Json.reparsedFields fields).map fun f => (f.1, fieldValue lib f.2)).lookup key =
      (items.reverse.lookup key).bind (returned lib) := by
  rw [lookup_map_snd, lookup_reparsedFields, lookup_pyToJsonFields hfields]
  cases items.reverse.lookup key with
  | none => rfl
  | some item => exact Option.map_map _ _ _

theorem exists_pyToJson {fields' : List (String × Json)} (h : pyToJsonFields fields items = .ok fields')
    {f : String × PyObject} (hf : f ∈ items) : ∃ j, pyToJson f.2 = .ok j := by
  induction items generalizing fields with
  | nil => exact absurd hf List.not_mem_nil
  | cons item items ih =>
    obtain ⟨key, item⟩ := item
    rw [pyToJsonFields] at h
    cases hvalue : pyToJson item with
    | error e =>
      rw [hvalue] at h
      contradiction
    | ok value =>
      rw [hvalue] at h
      rcases List.mem_cons.mp hf with rfl | hf
      · exact ⟨value, hvalue⟩
      · exact ih h hf

theorem mem_of_lookup {α : Type} {fields : List (String × α)} {key : String} {value : α}
    (h : fields.lookup key = some value) : (key, value) ∈ fields := by
  induction fields with
  | nil => contradiction
  | cons f fields ih =>
    rw [lookup_cons_eq_ite] at h
    split_ifs at h with hkey
    · exact List.mem_cons.mpr (.inl (Prod.ext hkey (Option.some.inj h).symm))
    · exact List.mem_cons_of_mem f (ih h)

/-- A dict that can be written as JSON comes back with each key once and in order, the last item of a key counts, and
the keys have their values back exactly when these are numbers, strings and booleans. -/
theorem metadata_round_trip (lib : JsonLib) (items : List (String × PyObject)) (fields : List (String × Json))
    (hfields : pyToJsonFields [] items = .ok fields) (hlib : lib.ReadsBack (.object fields)) :
    ∃ (text : Bytes) (dict : List (String × PyObject)), dictToJson lib (.dict items) = .ok text ∧
      jsonMetaToDict lib text = .ok dict ∧ (dict.map Prod.fst).Pairwise (· < ·) ∧
      (∀ key, dict.lookup key = (items.reverse.lookup key).bind (returned lib)) ∧
      ((∀ key, dict.lookup key = items.reverse.lookup key) ↔
        ∀ key item, items.reverse.lookup key = some item → item.Plain) := by
  refine ⟨_, _, dictToJson_dict hfields, jsonMetaToDict_dump hlib, ?_, lookup_returned hfields, ?_⟩
  · rw [List.map_map]
    exact (map_fst_reparsedFields fields).symm ▸ sorted_pyToJsonFields hfields .nil
  · refine forall_congr' fun key => ?_
    rw [lookup_returned hfields]
    cases hlast : items.reverse.lookup key with
    | none => simp
    | some item =>
      obtain ⟨j, hj⟩ := exists_pyToJson hfields (List.mem_reverse.mp (mem_of_lookup hlast))
      simpa using returned_eq_iff lib hj

/-- A dict in which the texts of two keys are the same. -/
def labelled : List (String × PyObject) := [("kind", .int 5), ("from", .none), ("kind", .str "note")]

def labels : List (String × Json) := [("from", .null), ("kind", .string "note")]

theorem metadata_round_trip_labelled :
    let lib := JsonLib.sample [([], .object labels)]
    ∃ (text : Bytes) (dict : List (String × PyObject)), dictToJson lib (.dict labelled) = .ok text ∧
      jsonMetaToDict lib text = .ok dict ∧ dict.lookup "kind" = some (.str "note") ∧
      dict.lookup "from" = some (.str "null") := by
  intro lib
  obtain ⟨text, dict, htext, hdict, -, hlookup, -⟩ := metadata_round_trip lib labelled labels rfl rfl
  exact ⟨text, dict, htext, hdict, (hlookup "kind").trans rfl, (hlookup "from").trans rfl⟩

end RoundTrip

end NeuralDb
