import NeuralDb.Python.Filtered
import NeuralDb.Python.Metadata

/-! A Python program that inserts, deletes and searches. A call that throws leaves the index as it was, so the
index has the history of the other calls, and what a search returns is traced back to the program's own objects. -/

namespace NeuralDb

open Library

/-- A call of the Python module that changes an index. The level is the one that `random_layer` draws. -/
inductive PyCall where
  | insert (id : UInt64) (vec : NumpyArray) (metadata : PyObject) (level : Nat)
  | delete (id : UInt64)

def PyCall.Contiguous : PyCall → Prop
  | .insert _ vec _ _ => vec.Contiguous
  | .delete _ => True

instance (call : PyCall) : Decidable call.Contiguous :=
  match call with
  | .insert _ vec _ _ => inferInstanceAs (Decidable vec.Contiguous)
  | .delete _ => .isTrue trivial

/-- What the index is called with for a contiguous array, unless it has another size or the metadata is not JSON. -/
def PyCall.op? (lib : JsonLib) (dim : Nat) : PyCall → Option (Op dim)
  | .insert id vec metadata level =>
    if hshape : vec.shape = [dim] then (dictToJson lib metadata).toOption.map fun text =>
      .insert id ⟨vec.elements, NumpyArray.elements_length hshape⟩ text level
    else none
  | .delete id => some (.delete id)

namespace HNSWIndex

section Calls

variable {σ : Type} [LinearOrder σ] (lib : JsonLib) (rt : Runtime σ)

/-- `Index.insert`. It looks at the shape of the vector before it converts the metadata. -/
def indexInsert (s : HNSWIndex) (id : UInt64) (vec : NumpyArray) (metadata : PyObject) (level : Nat) :
    Except PyError HNSWIndex := do
  let floats ← vec.getPtr s.dim
  let text ← dictToJson lib metadata
  match floats with
  | some words => pure (s.insert32 rt id words text level)
  | none => .error .undefined

/-- The index after a call, also when the call throws. -/
def indexCall (s : HNSWIndex) : PyCall → HNSWIndex
  | .insert id vec metadata level => (s.indexInsert lib rt id vec metadata level).toOption.getD s
  | .delete id => s.deleteVector id

def session (cfg : HNSWConfig) (dim : Nat) (calls : List PyCall) : HNSWIndex :=
  calls.foldl (indexCall lib rt) (new dim cfg)

theorem indexCall_eq {dim : Nat} {s : HNSWIndex} (hdim : s.dim = dim) {call : PyCall} (hcontig : call.Contiguous) :
    s.indexCall lib rt call = ((call.op? lib dim).map (s.step32 rt)).getD s := by
  cases call with
  | insert id vec metadata level =>
    rw [indexCall, indexInsert, PyCall.op?, hdim]
    by_cases hshape : vec.shape = [dim]
    · rw [NumpyArray.getPtr_of_shape hshape, NumpyArray.pointed_of_contiguous hcontig hshape, dif_pos hshape]
      cases dictToJson lib metadata <;> rfl
    · obtain ⟨message, herror⟩ := NumpyArray.getPtr_of_ne hshape
      rw [herror, dif_neg hshape]
      rfl
  | delete id => rfl

/-- The index of a session has the history of the calls that did not throw. -/
theorem session_eq_run (cfg : HNSWConfig) (dim : Nat) {calls : List PyCall} (hcontig : ∀ call ∈ calls, call.Contiguous)
    (hfew : (calls.filterMap (PyCall.op? lib dim)).countP Op.isInsert < 2 ^ 31) :
    session lib rt cfg dim calls = run rt cfg (calls.filterMap (PyCall.op? lib dim)) := by
  have hids : (calls.filterMap (PyCall.op? lib dim)).countP Op.isInsert ≤ 2 ^ 32 := by omega
  rw [← run32_eq rt cfg hids]
  clear hfew
  induction calls using List.reverseRecOn with
  | nil => rfl
  | append_singleton calls call ih =>
    obtain ⟨hinit, hlast⟩ := List.forall_mem_append.mp hcontig
    rw [List.filterMap_append, List.countP_append] at hids
    have hearlier : (calls.filterMap (PyCall.op? lib dim)).countP Op.isInsert ≤ 2 ^ 32 := by omega
    have hdim : (run32 rt cfg (calls.filterMap (PyCall.op? lib dim))).dim = dim := by
      rw [run32_eq rt cfg hearlier, run_dim]
    rw [session, List.foldl_append, ← session, ih hinit hearlier, List.filterMap_append]
    refine (indexCall_eq lib rt hdim (hlast call (List.mem_singleton.mpr rfl))).trans ?_
    cases hop : call.op? lib dim with
    | none => simp [hop]
    | some op => simp [hop, run32_concat]

end Calls

section Traces

variable {dim : Nat}

/-- With distinct ids, a slot that is live after a delete has another id. -/
theorem live_of_mem_markFirst {id : UInt64} {vs : List VectorSlot} (hnodup : (vs.map VectorSlot.id).Nodup)
    {v : VectorSlot} (hv : v ∈ markFirst id vs) (hlive : v.deleted = false) : v ∈ vs ∧ v.id ≠ id := by
  induction vs with
  | nil => exact absurd hv List.not_mem_nil
  | cons w vs ih =>
    obtain ⟨hw, hvs⟩ := List.nodup_cons.mp hnodup
    rw [markFirst] at hv
    split_ifs at hv with hid
    · rcases List.mem_cons.mp hv with rfl | hv
      · contradiction
      · refine ⟨List.mem_cons_of_mem w hv, fun heq => hw ?_⟩
        exact (hid.trans heq.symm) ▸ List.mem_map_of_mem hv
    · rcases List.mem_cons.mp hv with rfl | hv
      · exact ⟨List.mem_cons_self, hid⟩
      · exact (ih hvs hv).imp_left (List.mem_cons_of_mem w)

/-- Where no id is inserted twice, a live slot comes from an insert after which its id is not deleted. -/
theorem exists_insert_of_live {ops : List (Op dim)} (hunique : ∀ x, inserts x ops ≤ 1) {v : VectorSlot}
    (hv : v ∈ runSlots ops) (hlive : v.deleted = false) :
    ∃ before vec level after, ops = before ++ .insert v.id vec v.metadata level :: after ∧ vec.val = v.data ∧
      .delete v.id ∉ after := by
  induction ops using List.reverseRecOn with
  | nil => exact absurd hv List.not_mem_nil
  | append_singleton ops op ih =>
    have hearlier : ∀ x, inserts x ops ≤ 1 := fun x => by
      have := hunique x
      rw [inserts_concat] at this
      omega
    have hextend : op ≠ .delete v.id → v ∈ runSlots ops →
        ∃ before vec level after, ops ++ [op] = before ++ .insert v.id vec v.metadata level :: after ∧
          vec.val = v.data ∧ .delete v.id ∉ after := by
      intro hne hv
      obtain ⟨before, vec, level, after, rfl, hdata, hafter⟩ := ih hearlier hv
      exact ⟨before, vec, level, after ++ [op], by simp, hdata, by simpa using ⟨hafter, fun h => hne h.symm⟩⟩
    rw [runSlots_concat] at hv
    cases op with
    | insert id vec metadata level =>
      rcases List.mem_append.mp hv with hv | hv
      · exact hextend (by simp) hv
      · obtain rfl := List.mem_singleton.mp hv
        exact ⟨ops, vec, level, [], rfl, rfl, List.not_mem_nil⟩
    | delete id =>
      obtain ⟨hv, hne⟩ := live_of_mem_markFirst (nodup_of_inserts hearlier) hv hlive
      exact hextend (fun h => hne (Op.delete.inj h).symm) hv

end Traces

section Hits

variable {σ : Type} [LinearOrder σ] (lib : JsonLib) (rt : Runtime σ)

theorem exists_call_of_op {dim : Nat} {call : PyCall} {id : UInt64} {words : VecOf dim} {text : Bytes} {level : Nat}
    (h : call.op? lib dim = some (.insert id words text level)) :
    ∃ vec metadata, call = .insert id vec metadata level ∧ vec.shape = [dim] ∧ vec.elements = words.val ∧
      dictToJson lib metadata = .ok text := by
  cases call with
  | insert id' vec metadata level' =>
    rw [PyCall.op?] at h
    split_ifs at h with hshape
    cases htext : dictToJson lib metadata with
    | error e =>
      rw [htext] at h
      contradiction
    | ok text' =>
      rw [htext] at h
      obtain ⟨rfl, rfl, rfl, rfl⟩ := Op.insert.inj (Option.some.inj h)
      exact ⟨vec, metadata, rfl, hshape, rfl, htext⟩
  | delete id => simp [PyCall.op?] at h

/-- What Python finds in a hit with this text, when the metadata was a dict and the library reads its own text. -/
def ComesBack (metadata : PyObject) (text : Bytes) : Prop :=
  ∀ (items : List (String × PyObject)) (fields : List (String × Json)), metadata = .dict items →
    pyToJsonFields [] items = .ok fields → lib.ReadsBack (.object fields) →
    ∃ dict, jsonMetaToDict lib text = .ok dict ∧
      ∀ key, dict.lookup key = (items.reverse.lookup key).bind (returned lib)

variable {lib} in
theorem comesBack_of_text {metadata : PyObject} {text : Bytes} (h : dictToJson lib metadata = .ok text) :
    ComesBack lib metadata text := by
  rintro items fields rfl hfields hlib
  obtain rfl := Except.ok.inj ((dictToJson_dict hfields).symm.trans h)
  exact ⟨_, jsonMetaToDict_dump hlib, lookup_returned hfields⟩

/-- The hits of a search, in a session of contiguous arrays that inserts no id twice: each was inserted by a call that
did not throw, with the vector that its score is of and the metadata that it carries, and no later call deleted it. A
dict that was passed as the metadata comes back with the value of each key, as far as the binding has a type for it. -/
theorem session_hits (cfg : HNSWConfig) (dim : Nat) (calls : List PyCall) (hcontig : ∀ call ∈ calls, call.Contiguous)
    (hfew : (calls.filterMap (PyCall.op? lib dim)).countP Op.isInsert < 2 ^ 31)
    (hunique : ∀ x, inserts x (calls.filterMap (PyCall.op? lib dim)) ≤ 1) (query : NumpyArray)
    (hquery : query.Contiguous) (k : Int) (filter : Option Json) (hits : List (Hit σ))
    (hhits : (session lib rt cfg dim calls).indexSearch lib rt query k filter = .ok hits) :
    ∀ h ∈ hits, ∃ (before after : List PyCall) (vec : NumpyArray) (metadata : PyObject) (level : Nat),
      calls = before ++ .insert h.id vec metadata level :: after ∧ .delete h.id ∉ after ∧ vec.shape = [dim] ∧
      h.score = rt.cosineSimilarity query.elements vec.elements ∧ dictToJson lib metadata = .ok h.metadata ∧
      Satisfies lib filter h.metadata ∧ ComesBack lib metadata h.metadata := by
  intro h hh
  rw [session_eq_run lib rt cfg dim hcontig hfew] at hhits
  set ops := calls.filterMap (PyCall.op? lib dim) with hops
  have hs : (run rt cfg ops).Inv := inv_run rt cfg ops
  have hslots := (aligned_run rt cfg ops).2
  have hk : 1 ≤ k := by
    obtain ⟨wc, raw, -, -, -, rfl⟩ := indexSearch_ok lib rt hhits
    by_contra hk
    rw [collectHits_of_le lib _ _ (by simp only [List.length_nil]; omega)] at hh
    exact List.not_mem_nil hh
  obtain ⟨words, e, hwords, hpos, he, x, hx, heq, hsat⟩ := hs.hit_reached lib rt hk hhits hh
  rw [NumpyArray.pointed_of_contiguous hquery (shape_of_ok lib rt hhits)] at hwords
  obtain rfl := Option.some.inj hwords
  have hlt := hs.reached_lt (hs.searchStart_lt rt hpos he) hx.1
  have hids : (run rt cfg ops).numVectors < 2 ^ 32 := by
    rw [numVectors_run]
    omega
  have hown : h.metadata = ((run rt cfg ops).slot x).metadata := by
    rw [heq]
    exact hs.toAligned.lookupMetadata_slot hids (hslots ▸ nodup_of_inserts hunique) hlt
  have hmem : (run rt cfg ops).slot x ∈ runSlots ops := hslots ▸ List.mem_of_getElem? (slots_getElem? _ hlt)
  have hlive : ((run rt cfg ops).slot x).deleted = false := by simpa [slot, isLive] using hx.2
  obtain ⟨before, words, level, after, hsplit, hdata, hafter⟩ := exists_insert_of_live hunique hmem hlive
  obtain ⟨callsBefore, rest, hcalls, -, hrest⟩ := List.filterMap_eq_append_iff.mp (hops.symm.trans hsplit)
  obtain ⟨skipped, call, callsAfter, rfl, -, hcall, hlater⟩ := List.filterMap_eq_cons_iff.mp hrest
  obtain ⟨vec, metadata, rfl, hshape, helements, htext⟩ := exists_call_of_op lib hcall
  rw [← hown] at htext
  have hid : ((run rt cfg ops).slot x).id = h.id := by rw [heq]
  have hscore : h.score = rt.cosineSimilarity query.elements vec.elements := by rw [heq, helements, hdata]
  rw [hid] at hcalls hafter
  refine ⟨callsBefore ++ skipped, callsAfter, vec, metadata, level, by simpa using hcalls, ?_, hshape, hscore, htext, hsat,
    comesBack_of_text htext⟩
  intro hdelete
  exact hafter (hlater ▸ List.mem_filterMap.mpr ⟨_, hdelete, rfl⟩)

/-- The second call throws for its vector and the third for its metadata. -/
def attempts : List PyCall :=
  [.insert 7 (.ofVec [0x3F800000]) (.dict labelled) 0, .insert 8 (.ofVec []) .none 0,
    .insert 7 (.ofVec [0x40000000]) .other 0, .delete 9]

theorem session_hits_attempts :
    let lib := JsonLib.sample [([], .object labels)]
    ∃ (vec : NumpyArray) (metadata : PyObject) (level : Nat), .insert 7 vec metadata level ∈ attempts ∧
      (1 : ℚ) = Runtime.cosine.cosineSimilarity [0x3F800000] vec.elements ∧ ComesBack lib metadata [] := by
  intro lib
  have hhits : (session lib .cosine {} 1 attempts).indexSearch lib .cosine (.ofVec [0x3F800000]) 1 none =
      .ok [⟨7, 1, []⟩] := by decide +kernel
  obtain ⟨before, after, vec, metadata, level, hcalls, -, -, hscore, -, -, hback⟩ :=
    session_hits lib .cosine {} 1 attempts (by decide) (by decide) (inserts_le_one (by decide)) (.ofVec [0x3F800000])
      (.inl rfl) 1 none _ hhits _ (List.mem_singleton.mpr rfl)
  exact ⟨vec, metadata, level, hcalls ▸ by simp, hscore, hback⟩

end Hits

end HNSWIndex

end NeuralDb
