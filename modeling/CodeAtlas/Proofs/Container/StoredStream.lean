import CodeAtlas.Proofs.Container.Content
import CodeAtlas.Proofs.Container.Stored

namespace CodeAtlas.Container

/-- The container has these streams and no others, and reading them gives what they hold. -/
structure HasStreams (c : Container) (streams : List (Option Bytes)) : Prop where
  count_eq : c.streams.size = streams.length
  size_eq : ∀ i, c.streamSize? i = streams[i]?.join.map Array.size
  stream_ok : ∀ i content, streams[i]? = some (some content) → ∃ s, c.stream i = .ok s ∧ s.bytes = content
  stream_error : ∀ i, streams[i]?.join = none → c.stream i = .error (.noStream i)

namespace Placement

variable {p : Placement} {streams : List (Option Bytes)} {data : Bytes}

theorem layout?_container (i : Nat) : (p.container streams data).layout? i =
    streams[i]?.join.map fun content => ⟨content.size, p.blocksOf (.stream i) content⟩ := by
  rw [layout?, container, List.getElem?_toArray, layouts, List.getElem?_mapIdx]
  cases streams[i]? with
  | none => rfl
  | some stream => rfl

theorem wellFormed_container (hs : p.Sized streams) (h : p.StoredIn streams data) :
    (p.container streams data).WellFormed := wellFormed_of_parse (parse_of_storedIn hs h)

theorem slice?_part (h : p.StoredIn streams data) {i part : Nat} {content : Bytes}
    (hstream : streams[i]? = some (some content)) (hpart : part < blocksFor content.size p.blockSize) :
    data.slice? (p.block (.stream i part) * p.blockSize) (min p.blockSize (content.size - part * p.blockSize)) =
      some (partOf p.blockSize content part) := by
  have hslice := h.piece_slice _ (part_mem hstream hpart)
  have hsize : (partOf p.blockSize content part).size = min p.blockSize (content.size - part * p.blockSize) := by
    rw [partOf, Array.size_extract]
    omega
  rwa [Placement.content, storedContent_eq hstream, hsize] at hslice

theorem backed_of_storedIn (hs : p.Sized streams) (h : p.StoredIn streams data) {i : Nat} {content : Bytes}
    (hstream : streams[i]? = some (some content)) :
    (p.container streams data).Backed ⟨content.size, p.blocksOf (.stream i) content⟩ := by
  have hshare : ∀ part, part < blocksFor content.size p.blockSize → p.block (.stream i part) < p.blockCount ∧
      p.block (.stream i part) * p.blockSize + min p.blockSize (content.size - part * p.blockSize) ≤ data.size := by
    intro part hpart
    have hfile := (Bytes.slice?_eq_some_iff.mp (slice?_part h hstream hpart)).1
    exact ⟨h.block_lt _ (part_mem hstream hpart), hfile⟩
  have hpos := hs.blockSize_pos
  constructor
  · intro b hb
    obtain ⟨part, hpart, rfl⟩ := List.mem_map.mp hb
    have hpart := List.mem_range.mp hpart
    have hstart := (lt_blocksFor_iff hpos).mp hpart
    obtain ⟨hcount, hfile⟩ := hshare part hpart
    refine ⟨hcount, ?_⟩
    change p.block (.stream i part) * p.blockSize < data.size
    omega
  · intro part b hb
    have hpart := (List.getElem?_eq_some_iff.mp hb).1
    rw [length_blocksOf] at hpart
    obtain rfl := Option.some.inj ((p.getElem?_blocksOf (.stream i) hpart).symm.trans hb)
    exact (hshare part hpart).2

theorem spells_of_storedIn (hs : p.Sized streams) (h : p.StoredIn streams data) {i : Nat} {content : Bytes}
    (hstream : streams[i]? = some (some content)) :
    (p.container streams data).Spells (p.blocksOf (.stream i) content) content := by
  have hpos := hs.blockSize_pos
  intro k hk
  change ∃ b, (p.blocksOf (.stream i) content)[k / p.blockSize]? = some b ∧
    content[k]? = data[b * p.blockSize + k % p.blockSize]?
  have hdiv := Nat.div_add_mod' k p.blockSize
  have hmod := Nat.mod_lt k hpos
  have hpart : k / p.blockSize < blocksFor content.size p.blockSize := (lt_blocksFor_iff hpos).mpr (by omega)
  refine ⟨_, p.getElem?_blocksOf (.stream i) hpart, ?_⟩
  rw [← Bytes.getElem?_of_slice? (slice?_part h hstream hpart) (by omega), partOf, Array.getElem?_extract,
    if_pos (by omega), hdiv]

theorem stream_of_storedIn (hs : p.Sized streams) (h : p.StoredIn streams data) {i : Nat} {content : Bytes}
    (hstream : streams[i]? = some (some content)) :
    ∃ s, (p.container streams data).stream i = .ok s ∧ s.bytes = content := by
  have hw := wellFormed_container hs h
  have hlayout : (p.container streams data).layout? i = some ⟨content.size, p.blocksOf (.stream i) content⟩ := by
    rw [layout?_container, hstream]
    rfl
  obtain ⟨s, hread⟩ := (exists_stream_iff hw).mpr ⟨_, hlayout, backed_of_storedIn hs h hstream⟩
  obtain ⟨hsize, hspell⟩ := spells_of_stream hw hlayout hread
  exact ⟨s, hread, hspell.unique (spells_of_storedIn hs h hstream) hsize⟩

theorem streamSize?_container (i : Nat) :
    (p.container streams data).streamSize? i = streams[i]?.join.map Array.size := by
  rw [streamSize?, layout?_container, Option.map_map]
  rfl

theorem stream_eq_error {i : Nat} (hstream : streams[i]?.join = none) :
    (p.container streams data).stream i = .error (.noStream i) := by
  apply stream_of_layout?_eq_none
  rw [layout?_container, hstream]
  rfl

theorem hasStreams_of_storedIn (hs : p.Sized streams) (h : p.StoredIn streams data) :
    (p.container streams data).HasStreams streams := by
  refine ⟨?_, streamSize?_container, fun i content => stream_of_storedIn hs h, fun i => stream_eq_error⟩
  rw [container, List.size_toArray, length_layouts]

end Placement

end CodeAtlas.Container
