import CodeAtlas.Container.Basic
import CodeAtlas.Proofs.Bytes.Reading
import CodeAtlas.Proofs.Outcome

namespace CodeAtlas.Container

/-- What holds of every container that was read from a file: a stream has one block for each part of it. -/
structure WellFormed (c : Container) : Prop where
  blockSize_mem : c.blockSize ∈ [512, 1024, 2048, 4096]
  length_blocks : ∀ i l, c.layout? i = some l → l.blocks.length = blocksFor l.size c.blockSize

theorem le_of_blockSize_mem {blockSize : Nat} (h : blockSize ∈ [512, 1024, 2048, 4096]) :
    512 ≤ blockSize ∧ blockSize ≤ 4096 := by
  simp only [List.mem_cons, List.not_mem_nil, or_false] at h
  omega

theorem WellFormed.blockSize_pos {c : Container} (h : c.WellFormed) : 0 < c.blockSize := by
  have hle := (le_of_blockSize_mem h.blockSize_mem).1
  omega

theorem lt_blocksFor_iff {blockSize size p : Nat} (hpos : 0 < blockSize) :
    p < blocksFor size blockSize ↔ p * blockSize < size := by
  rw [blocksFor, Nat.lt_div_iff_mul_lt hpos]
  omega

theorem le_blocksFor_mul {blockSize : Nat} (hpos : 0 < blockSize) (size : Nat) :
    size ≤ blocksFor size blockSize * blockSize := by
  have h : ¬blocksFor size blockSize * blockSize < size := fun hlt =>
    Nat.lt_irrefl (blocksFor size blockSize) ((lt_blocksFor_iff hpos).mpr hlt)
  omega

theorem layout?_eq_some_iff {c : Container} {i : Nat} {l : StreamLayout} :
    c.layout? i = some l ↔ c.streams[i]? = some (some l) := by
  rw [layout?, Option.join_eq_some_iff]

theorem length_blocks_of_layouts {blockSize index : Nat} {sizes : List Nat} {c : Cursor}
    {ls : List (Option StreamLayout)} (h : layouts blockSize index sizes c = .ok ls) :
    ∀ l, some l ∈ ls → l.blocks.length = blocksFor l.size blockSize := by
  induction sizes generalizing index c ls with
  | nil =>
    cases h
    intro l hl
    cases hl
  | cons size sizes ih =>
    rw [layouts] at h
    split at h
    next hnil =>
      obtain ⟨rest, hrest, rfl⟩ := map_eq_ok_iff.mp h
      intro l hl
      rcases List.mem_cons.mp hl with he | hl
      · cases he
      · exact ih hrest l hl
    next =>
      dsimp only at h
      split at h
      next => cases h
      next =>
        obtain ⟨rest, hrest, rfl⟩ := map_eq_ok_iff.mp h
        intro l hl
        rcases List.mem_cons.mp hl with he | hl
        · cases he
          exact Reader.length_times ..
        · exact ih hrest l hl

theorem length_blocks_of_readDirectory {blockSize : Nat} {directory : Bytes} {ls : List (Option StreamLayout)}
    (h : readDirectory blockSize directory = .ok ls) :
    ∀ l, some l ∈ ls → l.blocks.length = blocksFor l.size blockSize := by
  unfold readDirectory at h
  dsimp only at h
  split at h
  next => cases h
  next => exact length_blocks_of_layouts h

theorem Header.parse_eq_ok_iff {data : Bytes} {h : Header} :
    Header.parse data = .ok h ↔ hasMark data = true ∧ data.valueAt? 32 4 = some h.blockSize ∧
      data.valueAt? 40 4 = some h.blockCount ∧ data.valueAt? 44 4 = some h.directorySize ∧
      data.valueAt? 52 4 = some h.blockMap ∧ h.blockSize ∈ [512, 1024, 2048, 4096] := by
  unfold Header.parse
  by_cases hm : hasMark data
  · simp only [hm, not_true_eq_false, if_false, true_and]
    constructor
    · intro hp
      split at hp
      next blockSize blockCount directorySize blockMap hbs hbc hds hbm =>
        split at hp
        next hmem =>
          cases hp
          exact ⟨hbs, hbc, hds, hbm, hmem⟩
        next => cases hp
      next => cases hp
    · rintro ⟨hbs, hbc, hds, hbm, hmem⟩
      simp only [hbs, hbc, hds, hbm, hmem, if_true]
      rfl
  · simp only [hm, Bool.false_eq_true, not_false_eq_true, if_true, false_and, iff_false]
    intro hp
    cases hp

theorem parse_eq_ok_iff {data : Bytes} {c : Container} :
    parse data = .ok c ↔ ∃ h directory streams, Header.parse data = .ok h ∧ h.directory data = .ok directory ∧
      readDirectory h.blockSize directory = .ok streams ∧ c = ⟨data, h.blockSize, h.blockCount, streams.toArray⟩ := by
  unfold parse
  simp only [bind_eq_ok_iff]
  constructor
  · rintro ⟨h, hh, directory, hd, streams, hs, hc⟩
    cases hc
    exact ⟨h, directory, streams, hh, hd, hs, rfl⟩
  · rintro ⟨h, directory, streams, hh, hd, hs, rfl⟩
    exact ⟨h, hh, directory, hd, streams, hs, rfl⟩

theorem data_of_parse {data : Bytes} {c : Container} (h : parse data = .ok c) : c.data = data := by
  obtain ⟨_, _, _, -, -, -, rfl⟩ := parse_eq_ok_iff.mp h
  rfl

theorem wellFormed_of_parse {data : Bytes} {c : Container} (h : parse data = .ok c) : c.WellFormed := by
  obtain ⟨header, directory, streams, hh, -, hs, rfl⟩ := parse_eq_ok_iff.mp h
  refine ⟨(Header.parse_eq_ok_iff.mp hh).2.2.2.2.2, fun i l hl => ?_⟩
  have hl := layout?_eq_some_iff.mp hl
  exact length_blocks_of_readDirectory hs l (List.mem_of_getElem? (by simpa using hl))

end CodeAtlas.Container
