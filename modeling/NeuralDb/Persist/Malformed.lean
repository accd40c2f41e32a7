import NeuralDb.Hnsw.History
import NeuralDb.Persist.Format

/-! Malformed index files. `load` checks the magic number and nothing else: no `fread` is checked, and no
index in the file is compared with the number of vectors. -/

namespace NeuralDb

open Library

namespace HNSWIndex

/-- What the calls on an index rely on: arrays of one length, and an entry point and links within it. -/
structure WellFormed (s : HNSWIndex) : Prop extends s.Aligned where
  entry_in : 0 < s.numVectors → s.entryPoint < s.numVectors
  links_in : ∀ g ∈ s.graph, ∀ ls ∈ g, ∀ x ∈ ls, x < s.numVectors

/-- All that was loaded stands in the file: `load` took some front of it, and takes this front and makes
the same of it whatever follows and whatever its locals hold. -/
def FromFile (r : HNSWIndex) (bs : Bytes) (s : HNSWIndex) : Prop := ∃ p, p <+: bs ∧ Reads (loadFrom r) p (.ok s)

/-- `load` throws, before it has written to the index, or makes a well-formed index of what is in the file. -/
def LoadsSafely (r : HNSWIndex) (bs : Bytes) : Prop :=
  ∀ (path : String) (junk : Nat → UInt8) (s : HNSWIndex), load r path (some bs) junk = .ok s →
    s.WellFormed ∧ FromFile r bs s

/-- The first four bytes, or as many as there are, are not those of the magic number. -/
def BadMagic (bs : Bytes) : Prop := ¬ bs.take 4 <+: leBytes 4 magic

end HNSWIndex

namespace IndexFile

/-- The entry point and the links of the file are below its number of vectors. -/
def InRange (f : IndexFile) : Prop :=
  (0 < f.ids.length → f.entryPoint < f.ids.length) ∧ ∀ g ∈ f.graph, ∀ ls ∈ g, ∀ x ∈ ls, x < f.ids.length

theorem wellFormed_loaded (f : IndexFile) (r : HNSWIndex) : (f.loaded r).WellFormed ↔ f.InRange :=
  ⟨fun h => ⟨h.entry_in, h.links_in⟩, fun h => ⟨f.loaded_aligned r, h.1, h.2⟩⟩

end IndexFile

namespace HNSWIndex

section Magic

variable {bs : Bytes} {junk : Nat → UInt8}

/-- The bytes of the local `magic` after the first `fread`. -/
theorem freadLocal_magic_iff : (freadLocal 4 ⟨bs, junk⟩).1 = magic ↔
    bs.take 4 ++ ((List.range 4).map junk).drop bs.length = leBytes 4 magic := by
  let read := bs.take 4 ++ ((List.range 4).map junk).drop bs.length
  have hlen : read.length = 4 := by
    simp only [read, List.length_append, List.length_take, List.length_drop, List.length_map, List.length_range]
    omega
  have hvalue : (freadLocal 4 ⟨bs, junk⟩).1 = leVal read := rfl
  have hmagic : leVal (leBytes 4 magic) = magic := by decide
  rw [hvalue]
  constructor
  · intro h
    have hread := leBytes_leVal read
    rw [hlen, h] at hread
    exact hread.symm
  · intro h
    rw [show read = leBytes 4 magic from h, hmagic]

theorem load_error_of_magic (r : HNSWIndex) (path : String) (h : (freadLocal 4 ⟨bs, junk⟩).1 ≠ magic) :
    load r path (some bs) junk = .error "Bad magic" := by
  rw [load, loadFrom]
  refine Yields.bind_at (Q := fun out => out = (Except.error "Bad magic" : Except String HNSWIndex)) rfl ?_
  refine yields_fields fun ver dim nv => ?_
  rw [if_neg h]
  exact yields_pure rfl

theorem load_ok_of_magic (r : HNSWIndex) (path : String) (h : (freadLocal 4 ⟨bs, junk⟩).1 = magic) :
    ∃ s, load r path (some bs) junk = .ok s := by
  rw [load, loadFrom]
  refine Yields.bind_at (Q := fun out => ∃ s, out = (Except.ok s : Except String HNSWIndex)) h ?_
  refine yields_fields fun ver dim nv => ?_
  rw [if_pos rfl]
  exact Yields.map fun rd => ⟨_, rfl⟩

theorem load_badMagic (h : BadMagic bs) (r : HNSWIndex) (path : String) (junk : Nat → UInt8) :
    load r path (some bs) junk = .error "Bad magic" := by
  refine load_error_of_magic r path fun hmagic => h ?_
  exact freadLocal_magic_iff.mp hmagic ▸ List.prefix_append _ _

/-- Otherwise the locals can hold the bytes that are missing. -/
theorem exists_load_ok (h : ¬ BadMagic bs) (r : HNSWIndex) (path : String) :
    ∃ junk s, load r path (some bs) junk = .ok s := by
  obtain ⟨tail, htail⟩ := not_not.mp h
  refine ⟨fun i => (leBytes 4 magic).getD i 0, load_ok_of_magic r path (freadLocal_magic_iff.mpr ?_)⟩
  have hjunk : ((List.range 4).map fun i => (leBytes 4 magic).getD i 0) = leBytes 4 magic := by decide
  rw [hjunk]
  rcases Nat.le_total bs.length 4 with hle | hle
  · rw [List.take_of_length_le hle] at htail ⊢
    rw [← htail, List.drop_left]
  · have hlen : (leBytes 4 magic).length ≤ bs.length := by rwa [leBytes_length]
    have htaken := congrArg List.length htail
    rw [List.length_append, List.length_take_of_le hle, leBytes_length] at htaken
    have hnil : tail = [] := List.length_eq_zero_iff.mp (by omega)
    rw [hnil, List.append_nil] at htail
    rw [List.drop_eq_nil_of_le hlen, List.append_nil, htail]

end Magic

section Safe

variable {r : HNSWIndex} {bs : Bytes}

/-- A front of a complete file that `load` takes is the complete file. -/
theorem eq_of_reads_prefix {f : IndexFile} {p : Bytes} {s : HNSWIndex} (h : Reads (loadFrom r) p (.ok s))
    (hp : p <+: f.bytes) : p = f.bytes := (h.prefix_eq (f.reads_bytes r) hp).1

theorem loadsSafely_iff : LoadsSafely r bs ↔ BadMagic bs ∨ ∃ f : IndexFile, f.bytes <+: bs ∧ f.InRange := by
  constructor
  · intro h
    by_contra hnot
    obtain ⟨hmagic, hnone⟩ := not_or.mp hnot
    obtain ⟨junk, s, hload⟩ := exists_load_ok hmagic r ""
    obtain ⟨hs, p, hp, hreads⟩ := h "" junk s hload
    obtain ⟨f, hcmp⟩ := complete_or_cut (not_not.mp hmagic)
    have hf : f.bytes <+: bs := by
      rcases hcmp with hf | hcut
      · exact hf
      · exact eq_of_reads_prefix hreads (hp.trans hcut) ▸ hp
    obtain ⟨rest, rfl⟩ := hf
    obtain rfl := Except.ok.inj ((f.load_bytes r "" rest junk).symm.trans hload)
    exact hnone ⟨f, List.prefix_append _ _, (f.wellFormed_loaded r).mp hs⟩
  · rintro (hmagic | ⟨f, ⟨rest, rfl⟩, hf⟩) path junk s hload
    · rw [load_badMagic hmagic] at hload
      contradiction
    · obtain rfl := Except.ok.inj ((f.load_bytes r path rest junk).symm.trans hload)
      exact ⟨(f.wellFormed_loaded r).mpr hf, f.bytes, List.prefix_append _ _, f.reads_bytes r⟩

/-- A complete file that is cut anywhere is not loaded safely. -/
theorem not_loadsSafely_cut (f : IndexFile) {n : Nat} (hn : n < f.bytes.length) : ¬ LoadsSafely r (f.bytes.take n) := by
  rw [loadsSafely_iff]
  rintro (hmagic | ⟨g, hg, -⟩)
  · refine hmagic ?_
    have hfront : f.bytes.take 4 = leBytes 4 magic := List.take_left' (leBytes_length 4 _)
    rw [List.take_take, Nat.min_comm, ← List.take_take, hfront]
    exact List.take_prefix _ _
  · have heq : g.bytes = f.bytes := eq_of_reads_prefix (g.reads_bytes r) (hg.trans (List.take_prefix _ _))
    have hlen := hg.length_le
    rw [heq, List.length_take] at hlen
    omega

/-- A byte string is rejected or loaded safely exactly when its front rules the magic number out, or it
begins with a complete file whose entry point and links are in range. A file of `save` that was cut off is
neither. -/
theorem load_rejects_iff (r : HNSWIndex) (bs : Bytes) :
    (LoadsSafely r bs ↔ BadMagic bs ∨ ∃ f : IndexFile, f.bytes <+: bs ∧ f.InRange) ∧
      ∀ s : HNSWIndex, s.Aligned → s.Storable → ∀ n < s.save.length, ¬ LoadsSafely r (s.save.take n) := by
  refine ⟨loadsSafely_iff, fun s h hs n hn => ?_⟩
  rw [← savedFile_bytes h hs] at hn ⊢
  exact not_loadsSafely_cut _ hn

/-- Of a saved file only the header is left. The id that is loaded is not in it. -/
theorem load_accepts_header :
    let bs := (run .sample {} [(.insert 7 ⟨[3], rfl⟩ [] 0 : Op 1)]).save.take 24
    (load (new 1 {}) "index" (some bs) fun _ => 0).toOption.map (fun s => (s.size, s.idMap)) = some (1, [0]) ∧
      bs.length = 24 ∧ ¬ LoadsSafely (new 1 {}) bs := by
  let s := run .sample {} [(.insert 7 ⟨[3], rfl⟩ [] 0 : Op 1)]
  have hs : s.Storable := by
    refine ⟨?_, ?_, ?_, ?_, ?_, ?_, ?_⟩
    all_goals decide
  have hcut : 24 < s.save.length := by decide +kernel
  rw [← savedFile_bytes (aligned_run _ _ _).1 hs] at hcut
  have hunsafe := not_loadsSafely_cut (r := new 1 {}) _ hcut
  rw [savedFile_bytes] at hunsafe
  exact ⟨by decide +kernel, by decide +kernel, hunsafe⟩

end Safe

end HNSWIndex

end NeuralDb
