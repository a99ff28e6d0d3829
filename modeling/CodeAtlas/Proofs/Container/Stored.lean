import CodeAtlas.Proofs.Container.Placement

namespace CodeAtlas.Container

theorem length_mark : mark.length = 32 := by decide

theorem prefix_of_slice? {whole part : Bytes} {size : Nat} (h : whole.slice? 0 size = some part) :
    part.toList <+: whole.toList := by
  obtain ⟨-, rfl⟩ := Bytes.slice?_eq_some_iff.mp h
  rw [Nat.zero_add, Array.toList_extract, List.extract_eq_take_drop, List.drop_zero]
  exact List.take_prefix ..

theorem extract_of_prefix {whole part : Bytes} (h : part.toList <+: whole.toList) :
    whole.extract 0 part.size = part := by
  apply Array.toList_inj.mp
  rw [Array.toList_extract, List.extract_eq_take_drop, List.drop_zero, ← Array.length_toList]
  exact (List.prefix_iff_eq_take.mp h).symm

theorem exists_block? {data part : Bytes} {blockSize blockCount b : Nat} (hb : b < blockCount)
    (hpart : data.slice? (b * blockSize) part.size = some part) (hpos : 0 < part.size) (hle : part.size ≤ blockSize) :
    ∃ whole, block? data blockSize blockCount b = some whole ∧ whole.size ≤ blockSize ∧
      whole.slice? 0 part.size = some part := by
  obtain ⟨hfile, hbytes⟩ := Bytes.slice?_eq_some_iff.mp hpart
  refine ⟨data.extract (b * blockSize) (b * blockSize + blockSize), ?_, ?_, ?_⟩
  · rw [block?, if_neg (by omega)]
  · rw [Array.size_extract]
    omega
  · refine Bytes.slice?_eq_some_iff.mpr ⟨?_, ?_⟩
    · rw [Array.size_extract]
      omega
    · rw [Array.extract_extract, Nat.add_zero, Nat.zero_add, Nat.min_eq_left (by omega), hbytes]

theorem gather_succ (block? : Nat → Option Bytes) (blockMap : Bytes) (n : Nat) :
    gather block? blockMap (n + 1) = (gather block? blockMap n).bind fun acc =>
      (blockMap.valueAt? (n * 4) 4).bind fun index => (block? index).map (acc ++ ·) := by
  rw [gather, List.range_succ, List.foldl_append, List.foldl_cons, List.foldl_nil, ← gather]
  simp only [Option.bind_eq_bind, Option.map_eq_bind]
  rfl

theorem toList_partOf (blockSize : Nat) (content : Bytes) (i : Nat) :
    (partOf blockSize content i).toList = (content.toList.drop (i * blockSize)).take blockSize := by
  rw [partOf, Array.toList_extract, List.extract_eq_take_drop]
  congr 1
  omega

/-- The blocks of the directory, one after the other, start with the directory; all but the last one are full. -/
theorem exists_gather {block? : Nat → Option Bytes} {blockMap directory : Bytes} {blockSize n : Nat}
    (hpos : 0 < blockSize) (hn : n ≤ blocksFor directory.size blockSize)
    (h : ∀ i, i < n → ∃ index whole, blockMap.valueAt? (i * 4) 4 = some index ∧ block? index = some whole ∧
      whole.size ≤ blockSize ∧ (partOf blockSize directory i).toList <+: whole.toList) :
    ∃ acc, gather block? blockMap n = some acc ∧ directory.toList.take (n * blockSize) <+: acc.toList ∧
      (n * blockSize ≤ directory.size → acc.size = n * blockSize) := by
  induction n with
  | zero =>
    refine ⟨#[], rfl, ?_, ?_⟩
    · simp only [Nat.zero_mul, List.take_zero, List.nil_prefix]
    · intro _
      exact (Nat.zero_mul blockSize).symm
  | succ n ih =>
    obtain ⟨acc, hacc, hprefix, hsize⟩ := ih (by omega) fun i hi => h i (by omega)
    obtain ⟨index, whole, hindex, hwhole, hle, hpart⟩ := h n (by omega)
    have hlt := (lt_blocksFor_iff hpos).mp (Nat.lt_of_succ_le hn)
    -- part `n` starts inside the directory, so no block before it was cut off
    have hfull := hsize (by omega)
    have heq : directory.toList.take (n * blockSize) = acc.toList := by
      apply hprefix.eq_of_length
      rw [List.length_take, Array.length_toList, Array.length_toList, hfull]
      omega
    refine ⟨acc ++ whole, ?_, ?_, ?_⟩
    · rw [gather_succ, hacc, Option.bind_some, hindex, Option.bind_some, hwhole, Option.map_some]
    · rw [toList_partOf] at hpart
      rw [Nat.succ_mul, List.take_add, heq, Array.toList_append]
      exact (List.prefix_append_right_inj acc.toList).mpr hpart
    · intro hnext
      have hlength := hpart.length_le
      rw [toList_partOf, List.length_take, List.length_drop, Array.length_toList, Array.length_toList] at hlength
      rw [Array.size_append, hfull, Nat.succ_mul]
      rw [Nat.succ_mul] at hnext
      omega

namespace Placement

variable {p : Placement} {streams : List (Option Bytes)} {data : Bytes}

theorem storedContent_eq {index : Nat} {content : Bytes} (h : streams[index]? = some (some content)) :
    storedContent streams index = content := by
  rw [storedContent, h]
  rfl

theorem part_mem {i part : Nat} {content : Bytes} (hstream : streams[i]? = some (some content))
    (hpart : part < blocksFor content.size p.blockSize) : .stream i part ∈ p.pieces streams := by
  rw [stream_mem_iff, storedContent_eq hstream]
  exact hpart

theorem fits_of_mem_layouts (hs : p.Sized streams) (hlt : ∀ x ∈ p.pieces streams, p.block x < p.blockCount)
    {l : StreamLayout} (hl : some l ∈ p.layouts streams) : l.Fits p.blockSize := by
  have hroom : 8 + l.blocks.length * 4 ≤ (p.directory streams).size := le_length_writeDirectory hl
  have hdir := hs.directory_size_le
  obtain ⟨index, content, hstream, rfl⟩ := mem_layouts_iff.mp hl
  refine ⟨?_, length_blocksOf .., fun b hb => ?_⟩
  · have hsize := le_blocksFor_mul hs.blockSize_pos content.size
    rw [length_blocksOf] at hroom
    have hmul : blocksFor content.size p.blockSize * p.blockSize ≤ (2 ^ 20 - 2) * 4096 :=
      Nat.mul_le_mul (by omega) (le_of_blockSize_mem hs.blockSize_mem).2
    simp only [nilSize]
    omega
  · obtain ⟨i, hi, rfl⟩ := List.mem_map.mp hb
    have hcount := hs.blockCount_lt
    have hpiece := hlt _ (part_mem hstream (List.mem_range.mp hi))
    omega

theorem length_layouts : (p.layouts streams).length = streams.length := by
  rw [layouts, List.length_mapIdx]

theorem length_streams_lt (hs : p.Sized streams) : streams.length < 2 ^ 32 := by
  have hsize : (p.directory streams).size = (writeDirectory (p.layouts streams)).length := List.size_toArray ..
  rw [length_writeDirectory, length_layouts] at hsize
  have hdir := hs.directory_size_le
  omega

theorem readDirectory_directory (hs : p.Sized streams) (hlt : ∀ x ∈ p.pieces streams, p.block x < p.blockCount) :
    readDirectory p.blockSize (p.directory streams) = .ok (p.layouts streams) := by
  refine readDirectory_writeDirectory (fun l hl => fits_of_mem_layouts hs hlt hl) ?_
  rw [length_layouts]
  exact length_streams_lt hs

theorem valueAt?_of_superblock (h : p.StoredIn streams data) (before after : List UInt8) {start n : Nat}
    (hn : n < 2 ^ 32) (hstart : before.length = start)
    (hsplit : p.superblock streams = before ++ leBytes 4 n ++ after) : data.valueAt? start 4 = some n := by
  have hpart := Bytes.slice?_toArray_append before (leBytes 4 n) after
  rw [← hsplit, hstart] at hpart
  have hwhole := Bytes.slice?_of_slice? h.superblock_slice hpart
  rw [Nat.zero_add, length_leBytes] at hwhole
  exact Bytes.valueAt?_of_slice? hn hwhole

theorem hasMark_of_storedIn (h : p.StoredIn streams data) : hasMark data = true := by
  have hpart := Bytes.slice?_toArray_append [] mark (leBytes 4 p.blockSize ++ leBytes 4 p.freeMap ++
    leBytes 4 p.blockCount ++ leBytes 4 (p.directory streams).size ++ leBytes 4 p.unused ++
    leBytes 4 (p.block .blockMap))
  simp only [List.nil_append, ← List.append_assoc, List.length_nil, length_mark] at hpart
  have hwhole := Bytes.slice?_of_slice? h.superblock_slice hpart
  rw [hasMark, hwhole]
  exact beq_self_eq_true mark

theorem header_of_storedIn (hs : p.Sized streams) (h : p.StoredIn streams data) :
    Header.parse data = .ok ⟨p.blockSize, p.blockCount, (p.directory streams).size, p.block .blockMap⟩ := by
  have hcount := hs.blockCount_lt
  have hmap := h.block_lt .blockMap blockMap_mem
  have hblockSize : p.blockSize < 2 ^ 32 := Nat.lt_of_le_of_lt (le_of_blockSize_mem hs.blockSize_mem).2 (by decide)
  have hdirectory : (p.directory streams).size < 2 ^ 32 := Nat.lt_of_le_of_lt hs.directory_size_le (by decide)
  have hblockMap : p.block .blockMap < 2 ^ 32 := by omega
  refine Header.parse_eq_ok_iff.mpr ⟨hasMark_of_storedIn h, ?_, ?_, ?_, ?_, hs.blockSize_mem⟩
  · refine valueAt?_of_superblock h mark (leBytes 4 p.freeMap ++ leBytes 4 p.blockCount ++
      leBytes 4 (p.directory streams).size ++ leBytes 4 p.unused ++ leBytes 4 (p.block .blockMap)) hblockSize
      length_mark ?_
    simp only [superblock, List.append_assoc]
  · refine valueAt?_of_superblock h (mark ++ leBytes 4 p.blockSize ++ leBytes 4 p.freeMap)
      (leBytes 4 (p.directory streams).size ++ leBytes 4 p.unused ++ leBytes 4 (p.block .blockMap)) hcount ?_ ?_
    · simp only [List.length_append, length_mark, length_leBytes]
    · simp only [superblock, List.append_assoc]
  · refine valueAt?_of_superblock h
      (mark ++ leBytes 4 p.blockSize ++ leBytes 4 p.freeMap ++ leBytes 4 p.blockCount)
      (leBytes 4 p.unused ++ leBytes 4 (p.block .blockMap)) hdirectory ?_ ?_
    · simp only [List.length_append, length_mark, length_leBytes]
    · simp only [superblock, List.append_assoc]
  · refine valueAt?_of_superblock h (mark ++ leBytes 4 p.blockSize ++ leBytes 4 p.freeMap ++
      leBytes 4 p.blockCount ++ leBytes 4 (p.directory streams).size ++ leBytes 4 p.unused) [] hblockMap ?_ ?_
    · simp only [List.length_append, length_mark, length_leBytes]
    · rw [List.append_nil, superblock]

theorem directory_size_pos : 0 < (p.directory streams).size := by
  have hsize : (p.directory streams).size = (writeDirectory (p.layouts streams)).length := List.size_toArray ..
  rw [hsize, length_writeDirectory]
  omega

theorem exists_blockMap (hs : p.Sized streams) (h : p.StoredIn streams data) :
    ∃ map, block? data p.blockSize p.blockCount (p.block .blockMap) = some map ∧
      ∀ i, i < blocksFor (p.directory streams).size p.blockSize →
        map.valueAt? (i * 4) 4 = some (p.block (.directory i)) := by
  have hsize : (p.content streams .blockMap).size = blocksFor (p.directory streams).size p.blockSize * 4 := by
    rw [content, List.size_toArray, length_flatMap_leBytes, length_blocksOf]
  have hcount : 0 < blocksFor (p.directory streams).size p.blockSize :=
    (lt_blocksFor_iff hs.blockSize_pos).mpr (by rw [Nat.zero_mul]; exact directory_size_pos)
  have hle := hs.blockMap_le
  obtain ⟨map, hmap, -, hslice⟩ := exists_block? (h.block_lt .blockMap blockMap_mem)
    (h.piece_slice .blockMap blockMap_mem) (by omega) (by omega)
  refine ⟨map, hmap, fun i hi => ?_⟩
  have hsmall := Nat.lt_trans (h.block_lt _ (directory_mem_iff.mpr hi)) hs.blockCount_lt
  have hentry := Bytes.slice?_of_slice? hslice (slice?_flatMap_leBytes 4 (p.getElem?_blocksOf Piece.directory hi))
  rw [Nat.zero_add] at hentry
  exact Bytes.valueAt?_of_slice? hsmall hentry

theorem exists_directory_block? (hs : p.Sized streams) (h : p.StoredIn streams data) {i : Nat}
    (hi : i < blocksFor (p.directory streams).size p.blockSize) :
    ∃ whole, block? data p.blockSize p.blockCount (p.block (.directory i)) = some whole ∧ whole.size ≤ p.blockSize ∧
      (partOf p.blockSize (p.directory streams) i).toList <+: whole.toList := by
  have hmem : Piece.directory i ∈ p.pieces streams := directory_mem_iff.mpr hi
  have hstart := (lt_blocksFor_iff hs.blockSize_pos).mp hi
  have hpos := hs.blockSize_pos
  have hsize : (p.content streams (.directory i)).size =
      min p.blockSize ((p.directory streams).size - i * p.blockSize) := by
    rw [content, partOf, Array.size_extract]
    omega
  obtain ⟨whole, hwhole, hle, hslice⟩ := exists_block? (h.block_lt _ hmem) (h.piece_slice _ hmem) (by omega) (by omega)
  exact ⟨whole, hwhole, hle, prefix_of_slice? hslice⟩

theorem directory_of_storedIn (hs : p.Sized streams) (h : p.StoredIn streams data) :
    (Header.mk p.blockSize p.blockCount (p.directory streams).size (p.block .blockMap)).directory data =
      .ok (p.directory streams) := by
  obtain ⟨map, hmap, hentry⟩ := exists_blockMap hs h
  obtain ⟨acc, hacc, hprefix, -⟩ := exists_gather hs.blockSize_pos (Nat.le_refl _) fun i hi => by
    obtain ⟨whole, hwhole, hpart⟩ := exists_directory_block? hs h hi
    exact ⟨_, whole, hentry i hi, hwhole, hpart⟩
  have hall := le_blocksFor_mul hs.blockSize_pos (p.directory streams).size
  rw [List.take_of_length_le (by rw [Array.length_toList]; exact hall)] at hprefix
  have hlength : (p.directory streams).size ≤ acc.size := hprefix.length_le
  have hmapsize := hs.blockMap_le
  simp only [Header.directory]
  rw [if_neg (by omega), hmap]
  simp only [hacc]
  rw [if_neg (by omega), extract_of_prefix hprefix]
  rfl

/-- A file in which a container is stored is read as that container. -/
theorem parse_of_storedIn (hs : p.Sized streams) (h : p.StoredIn streams data) :
    parse data = .ok (p.container streams data) :=
  parse_eq_ok_iff.mpr ⟨_, _, _, header_of_storedIn hs h, directory_of_storedIn hs h,
    readDirectory_directory hs h.block_lt, rfl⟩

end Placement

end CodeAtlas.Container
