import NeuralDb.Hnsw.Slots
import NeuralDb.Library.BitPack
import NeuralDb.Library.ByteCodec

/-! The index file: `save` and `load` on a little-endian machine. -/

namespace NeuralDb

open Library

/-- The bytes of an `int` in two's complement. -/
def intBytes (n : Int) : Bytes := leBytes 4 (n % 2 ^ 32).toNat

def intOfBytes (bs : Bytes) : Int := if leVal bs < 2 ^ 31 then leVal bs else leVal bs - 2 ^ 32

def idBytes (id : UInt64) : Bytes := leBytes 8 id.toNat

def idOfBytes (bs : Bytes) : UInt64 := UInt64.ofNat (leVal bs)

namespace HNSWIndex

def magic : Nat := 0x4E444220

/-! ### Writing -/

def encodeMetadata (m : Bytes) : Bytes := leBytes 4 m.length ++ m.take (m.length % 2 ^ 32)

def encodeLinks (ls : List Nat) : Bytes :=
  leBytes 4 ls.length ++ (ls.take (ls.length % 2 ^ 32)).flatMap (leBytes 4)

def encodeLayers (g : List (List Nat)) : Bytes := leBytes 4 g.length ++ g.flatMap encodeLinks

def saveHeader (s : HNSWIndex) : Bytes :=
  leBytes 4 magic ++ (leBytes 4 2 ++ (leBytes 4 s.dim ++ (leBytes 4 0 ++ leBytes 8 s.numVectors)))

def saveBody (s : HNSWIndex) : Bytes :=
  s.idMap.flatMap idBytes ++ (s.rawVectors.flatMap wordBytes ++ (s.metadata.flatMap encodeMetadata ++
    (intBytes s.maxLayer ++ (leBytes 4 s.entryPoint ++
      ((packBits 64 s.numVectors s.isTombstoned).flatMap (leBytes 8) ++
        ((List.range s.numVectors).map fun i => s.graph.getD i []).flatMap encodeLayers)))))

/-- The bytes that `save` writes. -/
def save (s : HNSWIndex) : Bytes := s.saveHeader ++ s.saveBody

/-! ### Reading -/

def readMetadata (old : Bytes) : StateM Reader Bytes := do
  let len ← freadLocal 4
  freadOver (resize old len 0)

def readLinks (old : List Nat) : StateM Reader (List Nat) := do
  let sz ← freadLocal 4
  freadArray 4 (leBytes 4) leVal (resize old sz 0)

def readLayers (old : List (List Nat)) : StateM Reader (List (List Nat)) := do
  let nlayers ← freadLocal 4
  (resize old nlayers []).mapM readLinks

/-- A file older than version 2 has no tombstones, and the resized ones of the receiver stay. -/
def readTombstones (old : List Bool) (ver nv : Nat) : StateM Reader (List Bool) :=
  if 2 ≤ ver then do
    let tbits ← freadArray 8 (leBytes 8) leVal (List.replicate ((nv + 63) / 64) 0)
    pure ((List.range nv).map (getBit 64 tbits))
  else pure (resize old nv false)

/-- What `load` reads behind a good magic number, over the old contents of the receiver. -/
def loadBody (r : HNSWIndex) (ver dim32 nv : Nat) : StateM Reader HNSWIndex := do
  let idMap ← freadArray 8 idBytes idOfBytes (resize r.idMap nv 0)
  let rawVectors ← freadArray 4 wordBytes wordOfBytes (resize r.rawVectors (nv * dim32) 0)
  let metadata ← (resize r.metadata nv []).mapM readMetadata
  let maxLayer ← freadOver (intBytes r.maxLayer)
  let entryPoint ← freadOver (leBytes 4 r.entryPoint)
  let tombstone ← readTombstones r.tombstone ver nv
  let graph ← (resize r.graph nv []).mapM readLayers
  pure { r with
    dim := dim32
    numVectors := nv
    idMap, rawVectors, metadata, tombstone, graph
    maxLayer := intOfBytes maxLayer
    entryPoint := leVal entryPoint }

def loadFrom (r : HNSWIndex) : StateM Reader (Except String HNSWIndex) := do
  let magic' ← freadLocal 4
  let ver ← freadLocal 4
  let dim32 ← freadLocal 4
  let _res ← freadLocal 4
  let nv ← freadLocal 8
  if magic' = magic then Except.ok <$> loadBody r ver dim32 nv
  else pure (.error "Bad magic")

/-- `load` into `r`. The stream `junk` is what its uninitialised locals hold. -/
def load (r : HNSWIndex) (path : String) (file : Option Bytes) (junk : Nat → UInt8) :
    Except String HNSWIndex :=
  match file with
  | none => .error ("Cannot open file for read: " ++ path)
  | some bs => (loadFrom r ⟨bs, junk⟩).1

end HNSWIndex

/-! ### The fields -/

@[simp] theorem idBytes_length (id : UInt64) : (idBytes id).length = 8 := leBytes_length 8 _

@[simp] theorem intBytes_length (n : Int) : (intBytes n).length = 4 := leBytes_length 4 _

theorem idOfBytes_idBytes (id : UInt64) : idOfBytes (idBytes id) = id := by
  rw [idOfBytes, idBytes, leVal_leBytes_eight, Nat.mod_eq_of_lt id.toNat_lt, UInt64.ofNat_toNat]

theorem intOfBytes_intBytes {n : Int} (hlo : -2 ^ 31 ≤ n) (hhi : n < 2 ^ 31) :
    intOfBytes (intBytes n) = n := by
  have hlt : (n % 2 ^ 32).toNat % 2 ^ 32 = (n % 2 ^ 32).toNat := Nat.mod_eq_of_lt (by omega)
  rw [intOfBytes, intBytes, leVal_leBytes_four, hlt]
  split_ifs <;> omega

theorem reads_local {k n : Nat} (h : n < 256 ^ k) : Reads (freadLocal k) (leBytes k n) n := by
  have hread := reads_freadLocal (leBytes_length k n)
  rwa [leVal_leBytes, Nat.mod_eq_of_lt h] at hread

namespace HNSWIndex

theorem reads_metadata (old : Bytes) {m : Bytes} (hm : m.length < 2 ^ 32) :
    Reads (readMetadata old) (encodeMetadata m) m := by
  have hbody : m.take (m.length % 2 ^ 32) = m := by rw [Nat.mod_eq_of_lt hm, List.take_length]
  rw [encodeMetadata, hbody]
  exact (reads_local hm).bind (reads_freadOver (resize_length _ _ _))

theorem reads_links (old : List Nat) {ls : List Nat} (hls : ls.length < 2 ^ 32) :
    Reads (readLinks old) (encodeLinks ls) (ls.map (· % 2 ^ 32)) := by
  have hbody : ls.take (ls.length % 2 ^ 32) = ls := by rw [Nat.mod_eq_of_lt hls, List.take_length]
  rw [encodeLinks, hbody]
  exact (reads_local hls).bind
    (reads_freadArray (leBytes_length 4) leVal_leBytes_four _ (resize_length _ _ _))

theorem reads_layers (old : List (List Nat)) {g : List (List Nat)} (hg : g.length < 2 ^ 32)
    (hls : ∀ ls ∈ g, ls.length < 2 ^ 32) :
    Reads (readLayers old) (encodeLayers g) (g.map fun ls => ls.map (· % 2 ^ 32)) :=
  (reads_local hg).bind
    (reads_mapM _ _ (resize_length _ _ _) fun o ls hmem => reads_links o (hls ls hmem))

theorem reads_tombstones (old : List Bool) (nv : Nat) (bit : Nat → Bool) :
    Reads (readTombstones old 2 nv) ((packBits 64 nv bit).flatMap (leBytes 8))
      ((List.range nv).map bit) := by
  have hwords : (List.replicate ((nv + 63) / 64) 0).length = (packBits 64 nv bit).length := by
    rw [List.length_replicate, packBits_length]
  have hread := reads_freadArray (leBytes_length 8) leVal_leBytes_eight _ hwords
  have hbits : (List.range nv).map (getBit 64 ((packBits 64 nv bit).map (· % 2 ^ 64))) =
      (List.range nv).map bit := by
    apply List.map_congr_left
    intro i hi
    rw [getBit_map_mod (by decide), getBit_packBits (by decide),
      decide_eq_true (List.mem_range.mp hi), Bool.true_and]
  rw [readTombstones, if_pos le_rfl, ← hbits]
  exact hread.bind_pure _

/-- Nothing is checked of the fields behind the magic number. -/
theorem yields_fields {β : Type} {next : Nat → Nat → Nat → StateM Reader β} {Q : β → Prop}
    (h : ∀ ver dim nv, Yields (next ver dim nv) Q) :
    Yields (do
      let ver ← freadLocal 4
      let dim32 ← freadLocal 4
      let _res ← freadLocal 4
      let nv ← freadLocal 8
      next ver dim32 nv) Q := by
  refine (yields_any _).bind fun ver _ => (yields_any _).bind fun dim _ => ?_
  exact (yields_any _).bind fun _ _ => (yields_any _).bind fun nv _ => h ver dim nv

/-- Whatever the file holds, the arrays of a loaded index have its number of slots. -/
theorem load_aligned {r s : HNSWIndex} {path : String} {file : Option Bytes} {junk : Nat → UInt8}
    (h : load r path file junk = .ok s) : s.Aligned := by
  have hbody : ∀ ver dim nv, Yields (loadBody r ver dim nv) Aligned := by
    intro ver dim nv
    have htomb : Yields (readTombstones r.tombstone ver nv) fun bs => bs.length = nv := by
      unfold readTombstones
      split_ifs
      · exact (yields_any _).bind fun _ _ => yields_pure (by simp)
      · exact yields_pure (resize_length _ _ _)
    refine (yields_freadArray _ _ _ _).bind fun ids hids => ?_
    refine (yields_freadArray _ _ _ _).bind fun raw hraw => ?_
    refine (yields_mapM _ _).bind fun metadata hmeta => ?_
    refine (yields_any _).bind fun _ _ => (yields_any _).bind fun _ _ => ?_
    refine htomb.bind fun tombstone htomb => (yields_mapM _ _).bind fun graph hgraph => ?_
    rw [resize_length] at hids hraw hmeta hgraph
    exact yields_pure ⟨hids, hmeta, htomb, hgraph, hraw⟩
  have hall : Yields (loadFrom r) fun out => ∀ s, out = .ok s → s.Aligned := by
    unfold loadFrom
    refine (yields_any _).bind fun _ _ => yields_fields fun ver dim nv => ?_
    split_ifs
    · exact Yields.map fun rd s hs => Except.ok.inj hs ▸ hbody ver dim nv rd
    · exact yields_pure fun s hs => by simp at hs
  cases file with
  | none => simp [load] at h
  | some bs => exact hall _ s h

/-- The counts of the index fit the fields of the file. -/
structure Storable (s : HNSWIndex) : Prop where
  dim_lt : s.dim < 2 ^ 32
  num_lt : s.numVectors < 2 ^ 64
  metadata_lt : ∀ m ∈ s.metadata, m.length < 2 ^ 32
  layers_lt : ∀ g ∈ s.graph, g.length < 2 ^ 32
  links_lt : ∀ g ∈ s.graph, ∀ ls ∈ g, ls.length < 2 ^ 32
  maxLayer_ge : -2 ^ 31 ≤ s.maxLayer
  maxLayer_lt : s.maxLayer < 2 ^ 31

/-- The index with its internal ids cut to the 32 bits they have in the file. -/
def narrow (s : HNSWIndex) : HNSWIndex :=
  { s with
    entryPoint := s.entryPoint % 2 ^ 32
    graph := s.graph.map fun g => g.map fun ls => ls.map (· % 2 ^ 32) }

theorem Aligned.graph_eq {s : HNSWIndex} (h : s.Aligned) :
    ((List.range s.numVectors).map fun i => s.graph.getD i []) = s.graph := by
  apply List.ext_getElem
  · simp [h.graph_length]
  · intro i _ hi
    simp [List.getD_eq_getElem?_getD, hi]

theorem Aligned.tombstone_eq {s : HNSWIndex} (h : s.Aligned) :
    (List.range s.numVectors).map s.isTombstoned = s.tombstone := by
  apply List.ext_getElem
  · simp [h.tombstone_length]
  · intro i _ hi
    simp [isTombstoned, List.getD_eq_getElem?_getD, hi]

/-- The sections of a file, one after the other, over the contents of the receiver. -/
theorem reads_sections (r : HNSWIndex) {ver dim nv : Nat} {ids : List UInt64} (hids : ids.length = nv)
    {vectors : List Word} (hvectors : vectors.length = nv * dim) {metadata : List Bytes}
    (hmetadata : metadata.length = nv) (hlengths : ∀ m ∈ metadata, m.length < 2 ^ 32) {maxLayer : Int}
    (hmax : -2 ^ 31 ≤ maxLayer ∧ maxLayer < 2 ^ 31) (entryPoint : Nat) {tombstone : List Bool} {words : Bytes}
    (htomb : Reads (readTombstones r.tombstone ver nv) words tombstone) {graph : List (List (List Nat))}
    (hgraph : graph.length = nv) (hlayers : ∀ g ∈ graph, g.length < 2 ^ 32)
    (hlinks : ∀ g ∈ graph, ∀ ls ∈ g, ls.length < 2 ^ 32) :
    Reads (loadBody r ver dim nv)
      (ids.flatMap idBytes ++ (vectors.flatMap wordBytes ++ (metadata.flatMap encodeMetadata ++
        (intBytes maxLayer ++ (leBytes 4 entryPoint ++ (words ++ graph.flatMap encodeLayers))))))
      { r with
        dim, numVectors := nv, idMap := ids, rawVectors := vectors, metadata, tombstone, maxLayer
        entryPoint := entryPoint % 2 ^ 32
        graph := graph.map fun g => g.map fun ls => ls.map (· % 2 ^ 32) } := by
  have hreadIds : Reads (freadArray 8 idBytes idOfBytes (resize r.idMap nv 0)) (ids.flatMap idBytes) (ids.map id) :=
    reads_freadArray idBytes_length idOfBytes_idBytes _ (by rw [resize_length, hids])
  have hreadVectors : Reads (freadArray 4 wordBytes wordOfBytes (resize r.rawVectors (nv * dim) 0))
      (vectors.flatMap wordBytes) (vectors.map id) :=
    reads_freadArray wordBytes_length wordOfBytes_wordBytes _ (by rw [resize_length, hvectors])
  have hreadMetadata : Reads ((resize r.metadata nv []).mapM readMetadata) (metadata.flatMap encodeMetadata)
      (metadata.map id) :=
    reads_mapM _ _ (by rw [resize_length, hmetadata]) fun o m hm => reads_metadata o (hlengths m hm)
  have hreadMax : Reads (freadOver (intBytes r.maxLayer)) (intBytes maxLayer) (intBytes maxLayer) :=
    reads_freadOver (by rw [intBytes_length, intBytes_length])
  have hreadEntry : Reads (freadOver (leBytes 4 r.entryPoint)) (leBytes 4 entryPoint) (leBytes 4 entryPoint) :=
    reads_freadOver (by rw [leBytes_length, leBytes_length])
  have hreadGraph : Reads ((resize r.graph nv []).mapM readLayers) (graph.flatMap encodeLayers)
      (graph.map fun g => g.map fun ls => ls.map (· % 2 ^ 32)) :=
    reads_mapM _ _ (by rw [resize_length, hgraph]) fun o g hg => reads_layers o (hlayers g hg) (hlinks g hg)
  rw [List.map_id] at hreadIds hreadVectors hreadMetadata
  have hresult : ({ r with
        dim, numVectors := nv, idMap := ids, rawVectors := vectors, metadata, tombstone, maxLayer
        entryPoint := entryPoint % 2 ^ 32
        graph := graph.map fun g => g.map fun ls => ls.map (· % 2 ^ 32) } : HNSWIndex) =
      { r with
        dim, numVectors := nv, idMap := ids, rawVectors := vectors, metadata, tombstone
        maxLayer := intOfBytes (intBytes maxLayer)
        entryPoint := leVal (leBytes 4 entryPoint)
        graph := graph.map fun g => g.map fun ls => ls.map (· % 2 ^ 32) } := by
    rw [intOfBytes_intBytes hmax.1 hmax.2, leVal_leBytes_four]
  rw [hresult]
  exact hreadIds.bind (hreadVectors.bind (hreadMetadata.bind (hreadMax.bind (hreadEntry.bind
    (htomb.bind (hreadGraph.bind_pure _))))))

/-- Every field of the receiver is overwritten, whatever it held. -/
theorem reads_body {s : HNSWIndex} (h : s.Aligned) (hs : s.Storable) (r : HNSWIndex) :
    Reads (loadBody r 2 s.dim s.numVectors) s.saveBody { s.narrow with cfg := r.cfg } := by
  have htomb := reads_tombstones r.tombstone s.numVectors s.isTombstoned
  rw [h.tombstone_eq] at htomb
  rw [saveBody, h.graph_eq]
  exact reads_sections r h.idMap_length h.rawVectors_length h.metadata_length hs.metadata_lt
    ⟨hs.maxLayer_ge, hs.maxLayer_lt⟩ s.entryPoint htomb h.graph_length hs.layers_lt hs.links_lt

theorem reads_save {s : HNSWIndex} (h : s.Aligned) (hs : s.Storable) (r : HNSWIndex) :
    Reads (loadFrom r) s.save (.ok { s.narrow with cfg := r.cfg }) := by
  have hbody := (reads_body h hs r).map (Except.ok : HNSWIndex → Except String HNSWIndex)
  rw [save, saveHeader]
  simp only [List.append_assoc]
  refine (reads_local (by decide)).bind ((reads_local (by decide)).bind ((reads_local hs.dim_lt).bind
    ((reads_local (by decide)).bind ((reads_local hs.num_lt).bind ?_))))
  rw [if_pos rfl]
  exact hbody

/-- Loading what `save` wrote gives the index back up to the width of its internal ids. -/
theorem load_save_narrow {s : HNSWIndex} (h : s.Aligned) (hs : s.Storable) (r : HNSWIndex) (path : String)
    (junk : Nat → UInt8) : load r path (some s.save) junk = .ok { s.narrow with cfg := r.cfg } := by
  obtain ⟨junk', hread⟩ := reads_save h hs r [] junk
  rw [List.append_nil] at hread
  exact congrArg Prod.fst hread

theorem narrow_of_links_lt {s : HNSWIndex} (hids : ∀ g ∈ s.graph, ∀ ls ∈ g, ∀ x ∈ ls, x < 2 ^ 32) :
    s.narrow = { s with entryPoint := s.entryPoint % 2 ^ 32 } := by
  have hlist : ∀ g ∈ s.graph, g.map (fun ls => ls.map (· % 2 ^ 32)) = g := by
    intro g hg
    refine (List.map_congr_left fun ls hls => ?_).trans (List.map_id g)
    exact (List.map_congr_left fun x hx => Nat.mod_eq_of_lt (hids g hg ls hls x hx)).trans
      (List.map_id ls)
  have hgraph : s.graph.map (fun g => g.map fun ls => ls.map (· % 2 ^ 32)) = s.graph :=
    (List.map_congr_left hlist).trans (List.map_id _)
  rw [narrow, hgraph]

theorem narrow_of_lt {s : HNSWIndex} (hentry : s.entryPoint < 2 ^ 32)
    (hids : ∀ g ∈ s.graph, ∀ ls ∈ g, ∀ x ∈ ls, x < 2 ^ 32) : s.narrow = s := by
  rw [narrow_of_links_lt hids, Nat.mod_eq_of_lt hentry]

/-- Save and load round trip, into a receiver with arbitrary contents. -/
theorem load_save {s : HNSWIndex} (h : s.Aligned) (hs : s.Storable) (hentry : s.entryPoint < 2 ^ 32)
    (hids : ∀ g ∈ s.graph, ∀ ls ∈ g, ∀ x ∈ ls, x < 2 ^ 32) (r : HNSWIndex) (path : String)
    (junk : Nat → UInt8) : load r path (some s.save) junk = .ok { s with cfg := r.cfg } := by
  rw [load_save_narrow h hs, narrow_of_lt hentry hids]

/-- A two-layer index with a deleted slot, loaded over a larger index. -/
theorem load_save_two :
    let s : HNSWIndex := {
      dim := 2, cfg := {}, numVectors := 2, maxLayer := 1, entryPoint := 1
      graph := [[[1]], [[0], []]], rawVectors := [1, 2, 3, 4], idMap := [7, 8]
      metadata := [[65], []], tombstone := [false, true] }
    let r : HNSWIndex := {
      dim := 1, cfg := {}, numVectors := 3, maxLayer := 2, entryPoint := 2
      graph := [[[1, 2]], [[2, 0]], [[0, 1], [], []]], rawVectors := [5, 6, 7], idMap := [1, 2, 3]
      metadata := [[1], [2, 3], [4]], tombstone := [true, false, true] }
    load r "index" (some s.save) (fun _ => 255) = .ok { s with cfg := r.cfg } := by
  refine load_save ⟨rfl, rfl, rfl, rfl, rfl⟩ ⟨?_, ?_, ?_, ?_, ?_, ?_, ?_⟩ ?_ ?_ _ _ _
  all_goals decide

end HNSWIndex

end NeuralDb
