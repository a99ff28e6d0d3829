import CodeAtlas.Proofs.Container.Stitching

namespace CodeAtlas.Container

/-- The stream in one piece from the file, if its blocks follow each other and the file is long enough. -/
def borrowed? (c : Container) (l : StreamLayout) : Option Bytes :=
  match l.blocks with
  | [] => none
  | first :: _ => if contiguous l.blocks then c.data.slice? (first * c.blockSize) l.size else none

/-- The stream put together block by block. -/
def stitched? (c : Container) (l : StreamLayout) : Option Bytes :=
  (c.chunks? l.blocks l.size).map (·.foldl (· ++ ·) #[])

variable {c : Container}

theorem eq_add_of_contiguous {first p b : Nat} {rest : List Nat} (h : contiguous (first :: rest) = true)
    (hb : (first :: rest)[p]? = some b) : b = first + p := by
  induction rest generalizing first p with
  | nil =>
    cases p with
    | zero => exact (Option.some.inj hb).symm
    | succ p => cases hb
  | cons next rest ih =>
    simp only [contiguous, Bool.and_eq_true, beq_iff_eq] at h
    cases p with
    | zero => exact (Option.some.inj hb).symm
    | succ p =>
      have hnext := ih h.2 hb
      omega

theorem spells_of_slice? {first size : Nat} {rest : List Nat} {content : Bytes} (hpos : 0 < c.blockSize)
    (hcont : contiguous (first :: rest) = true) (hsize : size ≤ (first :: rest).length * c.blockSize)
    (h : c.data.slice? (first * c.blockSize) size = some content) : c.Spells (first :: rest) content := by
  have hcontent := Bytes.size_of_slice? h
  intro k hk
  have hp : k / c.blockSize < (first :: rest).length := (Nat.div_lt_iff_lt_mul hpos).mpr (by omega)
  refine ⟨_, List.getElem?_eq_getElem hp, ?_⟩
  rw [eq_add_of_contiguous hcont (List.getElem?_eq_getElem hp), Bytes.getElem?_of_slice? h (by omega)]
  have hdiv := Nat.div_add_mod' k c.blockSize
  rw [Nat.add_mul, Nat.add_assoc, hdiv]

/-- For blocks that follow each other, reading one by one works if and only if reading in one piece does, and both
give the same. -/
theorem stitched?_of_contiguous {l : StreamLayout} {first : Nat} {rest : List Nat} (hpos : 0 < c.blockSize)
    (hlength : l.blocks.length = blocksFor l.size c.blockSize) (hblocks : l.blocks = first :: rest)
    (hcont : contiguous l.blocks = true) : c.stitched? l = c.data.slice? (first * c.blockSize) l.size := by
  unfold stitched?
  have hsize := le_blocksFor_mul hpos l.size
  rw [← hlength] at hsize
  have hplace : ∀ p b, l.blocks[p]? = some b → b * c.blockSize = first * c.blockSize + p * c.blockSize ∧
      p * c.blockSize < l.size := by
    intro p b hb
    have hp := (List.getElem?_eq_some_iff.mp hb).1
    rw [hblocks] at hcont hb
    rw [eq_add_of_contiguous hcont hb, Nat.add_mul]
    exact ⟨rfl, (lt_blocksFor_iff hpos).mp (hlength ▸ hp)⟩
  cases hwhole : c.data.slice? (first * c.blockSize) l.size with
  | some whole =>
    have hfile := (Bytes.slice?_eq_some_iff.mp hwhole).1
    obtain ⟨parts, hparts⟩ := exists_chunks?_iff.mpr fun p b hb => by
      obtain ⟨hb, hp⟩ := hplace p b hb
      exact (by omega : b * c.blockSize + min c.blockSize (l.size - p * c.blockSize) ≤ c.data.size)
    obtain ⟨hs, hspell⟩ := spells_of_chunks? hpos hparts hsize
    rw [hblocks] at hcont hsize hspell
    have hslice := spells_of_slice? hpos hcont hsize hwhole
    rw [hparts, Option.map_some, hspell.unique hslice (hs.trans (Bytes.size_of_slice? hwhole).symm)]
  | none =>
    have hfile := Bytes.slice?_eq_none_iff.mp hwhole
    rw [Option.map_eq_none_iff, Option.eq_none_iff_forall_ne_some]
    intro parts hparts
    have hlast : rest.length < l.blocks.length := by
      rw [hblocks, List.length_cons]
      omega
    have hle := exists_chunks?_iff.mp ⟨parts, hparts⟩ _ _ (List.getElem?_eq_getElem hlast)
    obtain ⟨hb, hp⟩ := hplace _ _ (List.getElem?_eq_getElem hlast)
    rw [hblocks, List.length_cons, Nat.succ_mul] at hsize
    omega

theorem borrowed?_of_blocks {l : StreamLayout} {first : Nat} {rest : List Nat} (hblocks : l.blocks = first :: rest) :
    c.borrowed? l = if contiguous l.blocks then c.data.slice? (first * c.blockSize) l.size else none := by
  simp only [borrowed?, hblocks]

theorem stream_of_layout? {i : Nat} {l : StreamLayout} (hl : c.layout? i = some l) (hne : l.blocks ≠ []) :
    c.stream i = if l.blocks.all c.blockInFile then
      match c.borrowed? l with
      | some bytes => .ok ⟨bytes, false⟩
      | none =>
        match c.stitched? l with
        | some bytes => .ok ⟨bytes, true⟩
        | none => .error (.shortStream i)
      else .error (.streamOutside i) := by
  obtain ⟨first, rest, hblocks⟩ := List.exists_cons_of_ne_nil hne
  simp only [stream, hl, borrowed?, stitched?, hblocks]
  by_cases hall : (first :: rest).all c.blockInFile
  · rw [if_neg (not_not_intro hall), if_pos hall]
    cases if contiguous (first :: rest) = true then c.data.slice? (first * c.blockSize) l.size else none with
    | some bytes => rfl
    | none =>
      dsimp only
      cases c.chunks? (first :: rest) l.size with
      | none => rfl
      | some parts => rfl
  · rw [if_pos hall, if_neg hall]

/-- Which way a stream is read does not show in its bytes: they are those of its blocks one by one. -/
theorem map_bytes_stream (hw : c.WellFormed) {i : Nat} {l : StreamLayout} (hl : c.layout? i = some l) :
    (c.stream i).map (·.bytes) = if l.blocks.all c.blockInFile then
      match c.stitched? l with
      | some bytes => .ok bytes
      | none => .error (.shortStream i)
      else .error (.streamOutside i) := by
  cases hblocks : l.blocks with
  | nil =>
    simp only [stream, hl, hblocks, stitched?, chunks?]
    rfl
  | cons first rest =>
    rw [stream_of_layout? hl (by rw [hblocks]; exact List.cons_ne_nil _ _), hblocks]
    by_cases hall : (first :: rest).all c.blockInFile
    · rw [if_pos hall, if_pos hall]
      by_cases hcont : contiguous l.blocks = true
      · have hboth := stitched?_of_contiguous hw.blockSize_pos (hw.length_blocks i l hl) hblocks hcont
        rw [borrowed?_of_blocks hblocks, if_pos hcont, ← hboth]
        cases c.stitched? l with
        | none => rfl
        | some bytes => rfl
      · rw [borrowed?_of_blocks hblocks, if_neg hcont]
        cases c.stitched? l with
        | none => rfl
        | some bytes => rfl
    · rw [if_neg hall, if_neg hall]
      rfl

theorem all_blockInFile_iff {blocks : List Nat} : blocks.all c.blockInFile = true ↔
    ∀ b ∈ blocks, b < c.blockCount ∧ b * c.blockSize < c.data.size := by
  simp only [List.all_eq_true, blockInFile, Bool.and_eq_true, decide_eq_true_eq]

theorem stitched?_of_stream (hw : c.WellFormed) {i : Nat} {l : StreamLayout} {s : StreamContent}
    (hl : c.layout? i = some l) (h : c.stream i = .ok s) :
    l.blocks.all c.blockInFile = true ∧ c.stitched? l = some s.bytes := by
  have hmap := map_bytes_stream hw hl
  rw [h] at hmap
  split at hmap
  next hall =>
    split at hmap
    next bytes hbytes =>
      cases hmap
      exact ⟨hall, hbytes⟩
    next => cases hmap
  next => cases hmap

theorem exists_layout?_of_stream {i : Nat} {s : StreamContent} (h : c.stream i = .ok s) : ∃ l, c.layout? i = some l := by
  cases hl : c.layout? i with
  | none =>
    rw [stream, hl] at h
    cases h
  | some l => exact ⟨l, rfl⟩

theorem exists_stream_iff (hw : c.WellFormed) {i : Nat} :
    (∃ s, c.stream i = .ok s) ↔ ∃ l, c.layout? i = some l ∧ c.Backed l := by
  constructor
  · rintro ⟨s, h⟩
    obtain ⟨l, hl⟩ := exists_layout?_of_stream h
    obtain ⟨hall, hbytes⟩ := stitched?_of_stream hw hl h
    obtain ⟨parts, hparts, -⟩ := Option.map_eq_some_iff.mp hbytes
    exact ⟨l, hl, all_blockInFile_iff.mp hall, exists_chunks?_iff.mp ⟨parts, hparts⟩⟩
  · rintro ⟨l, hl, hfile, hshare⟩
    obtain ⟨parts, hparts⟩ := exists_chunks?_iff.mpr hshare
    have hmap := map_bytes_stream hw hl
    simp only [all_blockInFile_iff.mpr hfile, if_true, stitched?, hparts, Option.map_some] at hmap
    cases hs : c.stream i with
    | ok s => exact ⟨s, rfl⟩
    | error fault =>
      rw [hs] at hmap
      cases hmap

theorem spells_of_stream (hw : c.WellFormed) {i : Nat} {l : StreamLayout} {s : StreamContent}
    (hl : c.layout? i = some l) (h : c.stream i = .ok s) : s.bytes.size = l.size ∧ c.Spells l.blocks s.bytes := by
  obtain ⟨-, hbytes⟩ := stitched?_of_stream hw hl h
  obtain ⟨parts, hparts, hjoin⟩ := Option.map_eq_some_iff.mp hbytes
  have hsize := le_blocksFor_mul hw.blockSize_pos l.size
  rw [← hw.length_blocks i l hl] at hsize
  rw [← hjoin]
  exact spells_of_chunks? hw.blockSize_pos hparts hsize

theorem stream_of_layout?_eq_none {i : Nat} (h : c.layout? i = none) : c.stream i = .error (.noStream i) := by
  unfold stream
  rw [h]

end CodeAtlas.Container
