import CodeAtlas.Proofs.Container.Writing

namespace CodeAtlas.Container

/-- What reading a stream gives, in terms of the file that the container was read from. -/
structure ReadsBlocks (c : Container) (data : Bytes) (index : Nat) : Prop where
  data_eq : c.data = data
  ok_iff : (∃ s, c.stream index = .ok s) ↔ ∃ l, c.layout? index = some l ∧ (l.size ≠ 0 → c.Backed l)
  size_eq : ∀ s, c.stream index = .ok s → c.streamSize? index = some s.bytes.size
  byte_eq : ∀ s l, c.stream index = .ok s → c.layout? index = some l → ∀ k, k < s.bytes.size →
    ∃ b, l.blocks[k / c.blockSize]? = some b ∧ s.bytes[k]? = data[b * c.blockSize + k % c.blockSize]?
  path_taken : ∀ s l, c.stream index = .ok s → c.layout? index = some l → l.size ≠ 0 →
    s.stitched = false ∧ c.borrowed? l = some s.bytes ∨
      s.stitched = true ∧ c.borrowed? l = none ∧ c.stitched? l = some s.bytes
  paths_agree : ∀ l borrowed stitched, c.layout? index = some l → c.borrowed? l = some borrowed →
    c.stitched? l = some stitched → borrowed = stitched
  short_fails : ∀ l, c.layout? index = some l → l.size ≠ 0 → contiguous l.blocks = true → c.borrowed? l = none →
    ∃ fault, c.stream index = .error fault

variable {c : Container}

theorem backed_of_size_eq_zero (hw : c.WellFormed) {i : Nat} {l : StreamLayout} (hl : c.layout? i = some l)
    (hsize : l.size = 0) : c.Backed l := by
  have hlength := hw.length_blocks i l hl
  have hnil : l.blocks = [] := by
    apply List.eq_nil_of_length_eq_zero
    have hiff : 0 < blocksFor l.size c.blockSize ↔ 0 * c.blockSize < l.size := lt_blocksFor_iff hw.blockSize_pos
    omega
  rw [Backed, hnil]
  exact ⟨fun b hb => (List.not_mem_nil hb).elim, fun p b hb => by cases hb⟩

theorem exists_cons_of_size_ne_zero (hw : c.WellFormed) {i : Nat} {l : StreamLayout} (hl : c.layout? i = some l)
    (hsize : l.size ≠ 0) : ∃ first rest, l.blocks = first :: rest := by
  apply List.exists_cons_of_length_pos
  rw [hw.length_blocks i l hl]
  exact (lt_blocksFor_iff hw.blockSize_pos).mpr (by omega)

theorem borrowed?_eq_some {l : StreamLayout} {bytes : Bytes} (h : c.borrowed? l = some bytes) :
    ∃ first rest, l.blocks = first :: rest ∧ contiguous l.blocks = true ∧
      c.data.slice? (first * c.blockSize) l.size = some bytes := by
  cases hblocks : l.blocks with
  | nil =>
    rw [borrowed?, hblocks] at h
    cases h
  | cons first rest =>
    rw [borrowed?_of_blocks hblocks] at h
    split at h
    next hcont => exact ⟨first, rest, rfl, hblocks ▸ hcont, h⟩
    next => cases h

theorem path_of_stream (hw : c.WellFormed) {i : Nat} {l : StreamLayout} {s : StreamContent} (h : c.stream i = .ok s)
    (hl : c.layout? i = some l) (hsize : l.size ≠ 0) : s.stitched = false ∧ c.borrowed? l = some s.bytes ∨
      s.stitched = true ∧ c.borrowed? l = none ∧ c.stitched? l = some s.bytes := by
  obtain ⟨first, rest, hblocks⟩ := exists_cons_of_size_ne_zero hw hl hsize
  have hne : l.blocks ≠ [] := by
    rw [hblocks]
    exact List.cons_ne_nil first rest
  rw [stream_of_layout? hl hne] at h
  split at h
  next =>
    split at h
    next bytes hborrowed =>
      cases h
      exact .inl ⟨rfl, hborrowed⟩
    next hborrowed =>
      split at h
      next bytes hstitched =>
        cases h
        exact .inr ⟨rfl, hborrowed, hstitched⟩
      next => cases h
  next => cases h

theorem readsBlocks_of_parse {data : Bytes} (h : parse data = .ok c) (index : Nat) : c.ReadsBlocks data index := by
  have hw := wellFormed_of_parse h
  have hpos := hw.blockSize_pos
  refine ⟨data_of_parse h, ?_, ?_, ?_, fun s l => path_of_stream hw, ?_, ?_⟩
  · rw [exists_stream_iff hw]
    constructor
    · rintro ⟨l, hl, hbacked⟩
      exact ⟨l, hl, fun _ => hbacked⟩
    · rintro ⟨l, hl, hbacked⟩
      by_cases hsize : l.size = 0
      · exact ⟨l, hl, backed_of_size_eq_zero hw hl hsize⟩
      · exact ⟨l, hl, hbacked hsize⟩
  · intro s hs
    obtain ⟨l, hl⟩ := exists_layout?_of_stream hs
    rw [(spells_of_stream hw hl hs).1, streamSize?, hl]
    rfl
  · intro s l hs hl
    have hspell := (spells_of_stream hw hl hs).2
    rwa [Spells, data_of_parse h] at hspell
  · intro l borrowed stitched hl hb hs
    obtain ⟨first, rest, hblocks, hcont, hslice⟩ := borrowed?_eq_some hb
    rw [stitched?_of_contiguous hpos (hw.length_blocks index l hl) hblocks hcont, hslice] at hs
    exact Option.some.inj hs
  · intro l hl hsize hcont hb
    obtain ⟨first, rest, hblocks⟩ := exists_cons_of_size_ne_zero hw hl hsize
    have hs := stitched?_of_contiguous hpos (hw.length_blocks index l hl) hblocks hcont
    rw [borrowed?_of_blocks hblocks, if_pos hcont] at hb
    rw [hb] at hs
    cases hread : c.stream index with
    | error fault => exact ⟨fault, rfl⟩
    | ok s =>
      have hsome := (stitched?_of_stream hw hl hread).2
      rw [hs] at hsome
      cases hsome

theorem readsBlocks_smallStreams : ∃ c, parse ((turnedAround 512).file smallStreams fun _ => 0) = .ok c ∧
    c.ReadsBlocks ((turnedAround 512).file smallStreams fun _ => 0) 2 ∧ c.streamSize? 2 = some 600 := by
  have hstored := Placement.storedIn_file sized_smallStreams apart_smallStreams fun _ => 0
  have hparse := Placement.parse_of_storedIn sized_smallStreams hstored
  refine ⟨_, hparse, readsBlocks_of_parse hparse 2, ?_⟩
  rw [Placement.streamSize?_container]
  exact congrArg some Array.size_replicate

end CodeAtlas.Container
