import NeuralDb.Library.Grammar
import NeuralDb.Persist.IndexFile

/-! The format of index files: what a complete file consists of, what `load` makes of it, and that every
byte string behind the magic number begins with a complete file or is the beginning of one. -/

namespace NeuralDb

open Library HNSWIndex

/-- The contents of a complete file. The sections have the lengths that the counts in front of them say,
and a file older than version 2 has no tombstone section. -/
structure IndexFile where
  version : Nat
  dim : Nat
  reserved : Nat
  ids : List UInt64
  vectors : List Word
  metadata : List Bytes
  maxLayer : Int
  entryPoint : Nat
  tombstones : List Nat
  graph : List (List (List Nat))
  version_lt : version < 2 ^ 32
  dim_lt : dim < 2 ^ 32
  reserved_lt : reserved < 2 ^ 32
  num_lt : ids.length < 2 ^ 64
  vectors_length : vectors.length = ids.length * dim
  metadata_length : metadata.length = ids.length
  metadata_lt : ∀ m ∈ metadata, m.length < 2 ^ 32
  maxLayer_range : -2 ^ 31 ≤ maxLayer ∧ maxLayer < 2 ^ 31
  entryPoint_lt : entryPoint < 2 ^ 32
  tombstones_length : tombstones.length = if 2 ≤ version then (ids.length + 63) / 64 else 0
  tombstones_lt : ∀ w ∈ tombstones, w < 2 ^ 64
  graph_length : graph.length = ids.length
  layers_lt : ∀ g ∈ graph, g.length < 2 ^ 32
  links_lt : ∀ g ∈ graph, ∀ ls ∈ g, ls.length < 2 ^ 32
  neighbours_lt : ∀ g ∈ graph, ∀ ls ∈ g, ∀ x ∈ ls, x < 2 ^ 32

namespace IndexFile

def sections (f : IndexFile) : Bytes :=
  f.ids.flatMap idBytes ++ (f.vectors.flatMap wordBytes ++ (f.metadata.flatMap encodeMetadata ++
    (intBytes f.maxLayer ++ (leBytes 4 f.entryPoint ++ (f.tombstones.flatMap (leBytes 8) ++
      f.graph.flatMap encodeLayers)))))

def bytes (f : IndexFile) : Bytes :=
  leBytes 4 magic ++ (leBytes 4 f.version ++ (leBytes 4 f.dim ++ (leBytes 4 f.reserved ++
    (leBytes 8 f.ids.length ++ f.sections))))

/-- The deletion marks after the file was loaded over the marks `old`. -/
def tombstoneOver (f : IndexFile) (old : List Bool) : List Bool :=
  if 2 ≤ f.version then (List.range f.ids.length).map (getBit 64 f.tombstones) else resize old f.ids.length false

/-- The index `r` after the file was loaded into it. -/
def loaded (f : IndexFile) (r : HNSWIndex) : HNSWIndex :=
  { r with
    dim := f.dim
    numVectors := f.ids.length
    idMap := f.ids
    rawVectors := f.vectors
    metadata := f.metadata
    tombstone := f.tombstoneOver r.tombstone
    maxLayer := f.maxLayer
    entryPoint := f.entryPoint
    graph := f.graph }

section Load

variable (f : IndexFile)

theorem reads_tombstoneOver (old : List Bool) :
    Reads (readTombstones old f.version f.ids.length) (f.tombstones.flatMap (leBytes 8)) (f.tombstoneOver old) := by
  have hlen := f.tombstones_length
  unfold readTombstones tombstoneOver
  split_ifs at hlen ⊢ with hversion
  · have hwords : (List.replicate ((f.ids.length + 63) / 64) 0).length = f.tombstones.length := by
      rw [List.length_replicate, hlen]
    have hmod : f.tombstones.map (· % 2 ^ 64) = f.tombstones :=
      (List.map_congr_left fun w hw => Nat.mod_eq_of_lt (f.tombstones_lt w hw)).trans (List.map_id _)
    have hread := reads_freadArray (leBytes_length 8) leVal_leBytes_eight _ hwords
    rw [hmod] at hread
    exact hread.bind_pure _
  · rw [List.length_eq_zero_iff.mp hlen]
    exact reads_pure _

theorem graph_mod : (f.graph.map fun g => g.map fun ls => ls.map (· % 2 ^ 32)) = f.graph := by
  refine (List.map_congr_left fun g hg => ?_).trans (List.map_id _)
  refine (List.map_congr_left fun ls hls => ?_).trans (List.map_id _)
  exact (List.map_congr_left fun x hx => Nat.mod_eq_of_lt (f.neighbours_lt g hg ls hls x hx)).trans (List.map_id _)

theorem reads_bytes (r : HNSWIndex) : Reads (loadFrom r) f.bytes (.ok (f.loaded r)) := by
  have hsections := reads_sections r rfl f.vectors_length f.metadata_length f.metadata_lt f.maxLayer_range
    f.entryPoint (f.reads_tombstoneOver r.tombstone) f.graph_length f.layers_lt f.links_lt
  rw [f.graph_mod, Nat.mod_eq_of_lt f.entryPoint_lt] at hsections
  refine (reads_local (by decide)).bind ((reads_local f.version_lt).bind ((reads_local f.dim_lt).bind
    ((reads_local f.reserved_lt).bind ((reads_local f.num_lt).bind ?_))))
  rw [if_pos rfl]
  exact hsections.map Except.ok

/-- What stands behind a complete file is not looked at. -/
theorem load_bytes (r : HNSWIndex) (path : String) (rest : Bytes) (junk : Nat → UInt8) :
    load r path (some (f.bytes ++ rest)) junk = .ok (f.loaded r) := (f.reads_bytes r).result rest junk

theorem tombstoneOver_length (old : List Bool) : (f.tombstoneOver old).length = f.ids.length := by
  unfold tombstoneOver
  split_ifs
  · simp
  · exact resize_length _ _ _

theorem loaded_aligned (r : HNSWIndex) : (f.loaded r).Aligned where
  idMap_length := rfl
  metadata_length := f.metadata_length
  tombstone_length := f.tombstoneOver_length r.tombstone
  graph_length := f.graph_length
  rawVectors_length := f.vectors_length

end Load

end IndexFile

namespace HNSWIndex

/-! ### The file that `save` writes -/

theorem flatMap_leBytes_mod (k : Nat) (xs : List Nat) :
    (xs.map (· % 256 ^ k)).flatMap (leBytes k) = xs.flatMap (leBytes k) := by
  rw [List.flatMap_map]
  exact List.flatMap_congr fun x _ => (leBytes_mod k x).symm

theorem encodeLinks_mod (ls : List Nat) : encodeLinks (ls.map (· % 2 ^ 32)) = encodeLinks ls := by
  rw [encodeLinks, encodeLinks, List.length_map, ← List.map_take, ← pow_four_bytes, flatMap_leBytes_mod]

theorem encodeLayers_mod (g : List (List Nat)) :
    encodeLayers (g.map fun ls => ls.map (· % 2 ^ 32)) = encodeLayers g := by
  rw [encodeLayers, encodeLayers, List.length_map, List.flatMap_map]
  exact congrArg (leBytes 4 g.length ++ ·) (List.flatMap_congr fun ls _ => encodeLinks_mod ls)

theorem reserved_zero_lt : 0 < 2 ^ 32 := by decide

def savedFile (s : HNSWIndex) (h : s.Aligned) (hs : s.Storable) : IndexFile where
  version := 2
  dim := s.dim
  reserved := 0
  ids := s.idMap
  vectors := s.rawVectors
  metadata := s.metadata
  maxLayer := s.maxLayer
  entryPoint := s.entryPoint % 2 ^ 32
  tombstones := (packBits 64 s.numVectors s.isTombstoned).map (· % 2 ^ 64)
  graph := s.graph.map fun g => g.map fun ls => ls.map (· % 2 ^ 32)
  version_lt := by decide
  dim_lt := hs.dim_lt
  reserved_lt := reserved_zero_lt
  num_lt := h.idMap_length ▸ hs.num_lt
  vectors_length := by rw [h.rawVectors_length, h.idMap_length]
  metadata_length := by rw [h.metadata_length, h.idMap_length]
  metadata_lt := hs.metadata_lt
  maxLayer_range := ⟨hs.maxLayer_ge, hs.maxLayer_lt⟩
  entryPoint_lt := Nat.mod_lt _ (by decide)
  tombstones_length := by rw [List.length_map, packBits_length, h.idMap_length, if_pos le_rfl]
  tombstones_lt := List.forall_mem_map.mpr fun _ _ => Nat.mod_lt _ (by decide)
  graph_length := by rw [List.length_map, h.graph_length, h.idMap_length]
  layers_lt := List.forall_mem_map.mpr fun g hg => by
    rw [List.length_map]
    exact hs.layers_lt g hg
  links_lt := List.forall_mem_map.mpr fun g hg => List.forall_mem_map.mpr fun ls hls => by
    rw [List.length_map]
    exact hs.links_lt g hg ls hls
  neighbours_lt := List.forall_mem_map.mpr fun g _ => List.forall_mem_map.mpr fun ls _ => by
    intro x hx
    obtain ⟨y, -, rfl⟩ := List.mem_map.mp hx
    exact Nat.mod_lt y (by decide)

theorem savedFile_bytes {s : HNSWIndex} (h : s.Aligned) (hs : s.Storable) : (s.savedFile h hs).bytes = s.save := by
  have hwords := flatMap_leBytes_mod 8 (packBits 64 s.numVectors s.isTombstoned)
  have hentry := leBytes_mod 4 s.entryPoint
  have hgraph : (s.savedFile h hs).graph.flatMap encodeLayers = s.graph.flatMap encodeLayers := by
    rw [savedFile, List.flatMap_map]
    exact List.flatMap_congr fun g _ => encodeLayers_mod g
  rw [pow_eight_bytes] at hwords
  rw [pow_four_bytes] at hentry
  rw [IndexFile.bytes, IndexFile.sections, hgraph, save, saveHeader, saveBody, h.graph_eq]
  simp only [savedFile, hwords, ← hentry, h.idMap_length, List.append_assoc]

end HNSWIndex

/-! ### Every file is complete or cut off -/

section Cut

theorem completes_ids (n : Nat) :
    Completes fun w => ∃ ids : List UInt64, ids.length = n ∧ (∀ id ∈ ids, True) ∧ ids.flatMap idBytes = w := by
  refine Completes.repeated ((completes_leBytes 8).mono ?_) n
  rintro w ⟨id, hid, rfl⟩
  refine ⟨UInt64.ofNat id, trivial, ?_⟩
  rw [idBytes, UInt64.toNat_ofNat', Nat.mod_eq_of_lt (pow_eight_bytes ▸ hid)]

theorem completes_words (n : Nat) :
    Completes fun w => ∃ ws : List Word, ws.length = n ∧ (∀ x ∈ ws, True) ∧ ws.flatMap wordBytes = w := by
  refine Completes.repeated ((completes_leBytes 4).mono ?_) n
  rintro w ⟨x, hx, rfl⟩
  refine ⟨UInt32.ofNat x, trivial, ?_⟩
  rw [wordBytes, UInt32.toNat_ofNat', Nat.mod_eq_of_lt (pow_four_bytes ▸ hx)]

theorem completes_int : Completes fun w => ∃ n : Int, (-2 ^ 31 ≤ n ∧ n < 2 ^ 31) ∧ intBytes n = w := by
  refine (completes_leBytes 4).mono ?_
  rintro w ⟨n, hn, rfl⟩
  rw [pow_four_bytes] at hn
  rcases Nat.lt_or_ge n (2 ^ 31) with hlow | hhigh
  · have hmod : ((n : Int) % 2 ^ 32).toNat = n := by omega
    exact ⟨n, by omega, by rw [intBytes, hmod]⟩
  · have hmod : ((n - 2 ^ 32 : Int) % 2 ^ 32).toNat = n := by omega
    exact ⟨n - 2 ^ 32, by omega, by rw [intBytes, hmod]⟩

theorem completes_metadata : Completes fun w => ∃ m : Bytes, m.length < 2 ^ 32 ∧ encodeMetadata m = w := by
  refine (completes_leBytes 4).seq ?_
  rintro w ⟨n, hn, rfl⟩
  refine (completes_length n).mono ?_
  rintro m rfl
  rw [pow_four_bytes] at hn
  exact ⟨m, hn, by rw [encodeMetadata, Nat.mod_eq_of_lt hn, List.take_length]⟩

theorem completes_links :
    Completes fun w => ∃ ls : List Nat, (ls.length < 2 ^ 32 ∧ ∀ x ∈ ls, x < 2 ^ 32) ∧ encodeLinks ls = w := by
  refine (completes_leBytes 4).seq ?_
  rintro w ⟨n, hn, rfl⟩
  refine (Completes.repeated (completes_leBytes 4) n).mono ?_
  rintro v ⟨ls, rfl, hls, rfl⟩
  rw [pow_four_bytes] at hn hls
  exact ⟨ls, ⟨hn, hls⟩, by rw [encodeLinks, Nat.mod_eq_of_lt hn, List.take_length]⟩

theorem completes_layers :
    Completes fun w => ∃ g : List (List Nat),
      (g.length < 2 ^ 32 ∧ ∀ ls ∈ g, ls.length < 2 ^ 32 ∧ ∀ x ∈ ls, x < 2 ^ 32) ∧ encodeLayers g = w := by
  refine (completes_leBytes 4).seq ?_
  rintro w ⟨n, hn, rfl⟩
  refine (Completes.repeated completes_links n).mono ?_
  rintro v ⟨g, rfl, hg, rfl⟩
  rw [pow_four_bytes] at hn
  exact ⟨g, ⟨hn, hg⟩, rfl⟩

/-- Behind the magic number, every byte string begins with the rest of a complete file or is the beginning of one. -/
theorem completes_file : Completes fun w => ∃ f : IndexFile, f.bytes = leBytes 4 magic ++ w := by
  have hfield := completes_leBytes 4
  rw [pow_four_bytes] at hfield
  refine hfield.seq ?_
  rintro _ ⟨version, hversion, rfl⟩
  refine hfield.seq ?_
  rintro _ ⟨dim, hdim, rfl⟩
  refine hfield.seq ?_
  rintro _ ⟨reserved, hreserved, rfl⟩
  refine (completes_leBytes 8).seq ?_
  rintro _ ⟨n, hn, rfl⟩
  rw [pow_eight_bytes] at hn
  refine (completes_ids n).seq ?_
  rintro _ ⟨ids, rfl, -, rfl⟩
  refine (completes_words (ids.length * dim)).seq ?_
  rintro _ ⟨vectors, hvectors, -, rfl⟩
  refine (Completes.repeated completes_metadata ids.length).seq ?_
  rintro _ ⟨metadata, hmetadata, hlengths, rfl⟩
  refine completes_int.seq ?_
  rintro _ ⟨maxLayer, hmax, rfl⟩
  refine hfield.seq ?_
  rintro _ ⟨entryPoint, hentry, rfl⟩
  refine (Completes.repeated (completes_leBytes 8) (if 2 ≤ version then (ids.length + 63) / 64 else 0)).seq ?_
  rintro _ ⟨tombstones, htomb, hwords, rfl⟩
  rw [pow_eight_bytes] at hwords
  refine (Completes.repeated completes_layers ids.length).mono ?_
  rintro _ ⟨graph, hgraph, hg, rfl⟩
  refine ⟨{
    version, dim, reserved, ids, vectors, metadata, maxLayer, entryPoint, tombstones, graph
    version_lt := hversion
    dim_lt := hdim
    reserved_lt := hreserved
    num_lt := hn
    vectors_length := hvectors
    metadata_length := hmetadata
    metadata_lt := hlengths
    maxLayer_range := hmax
    entryPoint_lt := hentry
    tombstones_length := htomb
    tombstones_lt := hwords
    graph_length := hgraph
    layers_lt := fun g h => (hg g h).1
    links_lt := fun g h ls hls => ((hg g h).2 ls hls).1
    neighbours_lt := fun g h ls hls => ((hg g h).2 ls hls).2 }, rfl⟩

/-- A string whose first bytes do not rule the magic number out. -/
theorem complete_or_cut {bs : Bytes} (h : bs.take 4 <+: leBytes 4 magic) :
    ∃ f : IndexFile, f.bytes <+: bs ∨ bs <+: f.bytes := by
  rcases Nat.lt_or_ge bs.length 4 with hshort | hlong
  · rw [List.take_of_length_le (by omega)] at h
    obtain ⟨w, ⟨f, hf⟩, -⟩ := completes_file []
    exact ⟨f, .inr (hf ▸ h.trans (List.prefix_append _ w))⟩
  · have hmagic : bs.take 4 = leBytes 4 magic := h.eq_of_length (by simp [hlong])
    obtain ⟨w, ⟨f, hf⟩, hcmp⟩ := completes_file (bs.drop 4)
    refine ⟨f, ?_⟩
    rw [← List.take_append_drop 4 bs, hmagic, hf, List.prefix_append_right_inj, List.prefix_append_right_inj]
    exact hcmp

end Cut

end NeuralDb
