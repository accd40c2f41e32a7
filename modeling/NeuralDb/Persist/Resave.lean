import NeuralDb.Persist.Format

/-! An index file that is loaded and saved again. The second file is in a normal form, which further loads and
saves leave alone. -/

namespace NeuralDb

open Library HNSWIndex

namespace IndexFile

variable (f : IndexFile) (r : HNSWIndex)

theorem loaded_storable : (f.loaded r).Storable where
  dim_lt := f.dim_lt
  num_lt := f.num_lt
  metadata_lt := f.metadata_lt
  layers_lt := f.layers_lt
  links_lt := f.links_lt
  maxLayer_ge := f.maxLayer_range.1
  maxLayer_lt := f.maxLayer_range.2

/-- The file that `save` writes of a loaded index. -/
def resaved : IndexFile := (f.loaded r).savedFile (f.loaded_aligned r) (f.loaded_storable r)

theorem resaved_bytes : (f.resaved r).bytes = (f.loaded r).save := savedFile_bytes _ _

theorem resaved_graph : (f.resaved r).graph = f.graph := f.graph_mod

theorem resaved_entryPoint : (f.resaved r).entryPoint = f.entryPoint := Nat.mod_eq_of_lt f.entryPoint_lt

/-- The sections other than the tombstones are the same in both files. -/
theorem bytes_resaved_iff :
    (f.resaved r).bytes = f.bytes ↔
      leBytes 4 2 = leBytes 4 f.version ∧ leBytes 4 0 = leBytes 4 f.reserved ∧
        (f.resaved r).tombstones.flatMap (leBytes 8) = f.tombstones.flatMap (leBytes 8) := by
  have hsame : (f.resaved r).bytes = leBytes 4 magic ++ (leBytes 4 2 ++ (leBytes 4 f.dim ++ (leBytes 4 0 ++
      (leBytes 8 f.ids.length ++ (f.ids.flatMap idBytes ++ (f.vectors.flatMap wordBytes ++
        (f.metadata.flatMap encodeMetadata ++ (intBytes f.maxLayer ++ (leBytes 4 f.entryPoint ++
          ((f.resaved r).tombstones.flatMap (leBytes 8) ++ f.graph.flatMap encodeLayers)))))))))) := by
    rw [bytes, sections, resaved_graph, resaved_entryPoint]
    rfl
  have hfield : ∀ {k n m : Nat} {xs ys : Bytes}, leBytes k n ++ xs = leBytes k m ++ ys ↔
      leBytes k n = leBytes k m ∧ xs = ys := by
    intro k n m xs ys
    have hlen : (leBytes k n).length = (leBytes k m).length := by rw [leBytes_length, leBytes_length]
    exact ⟨fun h => List.append_inj h hlen, fun h => by rw [h.1, h.2]⟩
  rw [hsame, bytes, sections]
  simp only [hfield, List.append_cancel_left_eq, List.append_cancel_right_eq, true_and]

theorem getBit_resaved (hversion : f.version = 2) (i : Nat) :
    getBit 64 (f.resaved r).tombstones i = (decide (i < f.ids.length) && getBit 64 f.tombstones i) := by
  have hpacked : getBit 64 (f.resaved r).tombstones i =
      (decide (i < f.ids.length) && (f.loaded r).isTombstoned i) :=
    (getBit_map_mod (by decide) _ i).trans (getBit_packBits (by decide) _ i)
  have hmarks : (f.loaded r).tombstone = (List.range f.ids.length).map (getBit 64 f.tombstones) := by
    show f.tombstoneOver r.tombstone = _
    rw [tombstoneOver, if_pos hversion.ge]
  rw [hpacked, isTombstoned, hmarks]
  by_cases hi : i < f.ids.length
  · simp [hi]
  · simp [hi]

theorem resaved_tombstones_length (hversion : f.version = 2) :
    (f.resaved r).tombstones.length = f.tombstones.length := by
  rw [(f.resaved r).tombstones_length, f.tombstones_length, hversion]
  rfl

theorem tombstones_resaved_iff (hversion : f.version = 2) :
    (f.resaved r).tombstones = f.tombstones ↔ ∀ i, f.ids.length ≤ i → getBit 64 f.tombstones i = false := by
  constructor
  · intro heq i hi
    rw [← heq, f.getBit_resaved r hversion, decide_eq_false (not_lt.mpr hi), Bool.false_and]
  · intro hpadding
    refine words_ext (f.resaved_tombstones_length r hversion) (f.resaved r).tombstones_lt f.tombstones_lt fun i => ?_
    rw [f.getBit_resaved r hversion]
    by_cases hi : i < f.ids.length
    · rw [decide_eq_true hi, Bool.true_and]
    · rw [decide_eq_false hi, Bool.false_and, hpadding i (not_lt.mp hi)]

theorem flatMap_leBytes_inj {words words' : List Nat} (hlen : words.length = words'.length)
    (h : ∀ x ∈ words, x < 2 ^ 64) (h' : ∀ x ∈ words', x < 2 ^ 64) :
    words.flatMap (leBytes 8) = words'.flatMap (leBytes 8) ↔ words = words' := by
  have hunpack : ∀ {xs : List Nat}, (∀ x ∈ xs, x < 2 ^ 64) →
      unpack 8 leVal xs.length (xs.flatMap (leBytes 8)) = xs := by
    intro xs hxs
    rw [unpack_flatMap (leBytes_length 8) leVal_leBytes_eight]
    exact (List.map_congr_left fun x hx => Nat.mod_eq_of_lt (hxs x hx)).trans (List.map_id' xs)
  refine ⟨fun heq => ?_, fun heq => heq ▸ rfl⟩
  rw [← hunpack h, ← hunpack h', heq, hlen]

/-- Loading a complete file and saving it again gives its bytes back exactly when it is of version 2, its reserved
field is zero and no tombstone bit is set behind the last slot. Whatever it gives, loading and saving that leaves
it as it is. -/
theorem resave_iff (r' : HNSWIndex) (path path' : String) (junk junk' : Nat → UInt8) :
    ∃ s s', load r path (some f.bytes) junk = .ok s ∧ load r' path' (some s.save) junk' = .ok s' ∧
      s'.save = s.save ∧
      (s.save = f.bytes ↔
        f.version = 2 ∧ f.reserved = 0 ∧ ∀ i, f.ids.length ≤ i → getBit 64 f.tombstones i = false) := by
  have hload := f.load_bytes r path [] junk
  rw [List.append_nil] at hload
  have hagain := load_save (f.loaded_aligned r) (f.loaded_storable r) f.entryPoint_lt f.neighbours_lt r' path' junk'
  refine ⟨_, _, hload, hagain, rfl, ?_⟩
  rw [← resaved_bytes, bytes_resaved_iff]
  have hversion : leBytes 4 2 = leBytes 4 f.version ↔ f.version = 2 :=
    (leBytes_inj (by decide) f.version_lt).trans eq_comm
  have hreserved : leBytes 4 0 = leBytes 4 f.reserved ↔ f.reserved = 0 :=
    (leBytes_inj (by decide) f.reserved_lt).trans eq_comm
  rw [hversion, hreserved]
  refine and_congr_right fun h2 => and_congr_right fun _ => ?_
  rw [flatMap_leBytes_inj (f.resaved_tombstones_length r h2) (f.resaved r).tombstones_lt f.tombstones_lt, f.tombstones_resaved_iff r h2]

end IndexFile

end NeuralDb
