import CodeAtlas.Proofs.Container.Directory
import CodeAtlas.Proofs.Container.WellFormed

namespace CodeAtlas.Container

/-- What takes a block of its own: the block map and each part of the directory or of a stream. -/
inductive Piece
  | blockMap
  | directory (part : Nat)
  | stream (index part : Nat)
deriving Repr, DecidableEq

/-- Where the pieces of a container are put. The numbers `freeMap` and `unused` are stored for others to read. -/
structure Placement where
  blockSize : Nat
  blockCount : Nat
  freeMap : Nat
  unused : Nat
  block : Piece → Nat

/-- Part `i` of a content that is cut into blocks; the last part may be shorter than a block. -/
def partOf (blockSize : Nat) (content : Bytes) (i : Nat) : Bytes :=
  content.extract (i * blockSize) (i * blockSize + blockSize)

/-- A stream that does not exist has no bytes to store. -/
def storedContent (streams : List (Option Bytes)) (index : Nat) : Bytes := streams[index]?.join.getD #[]

namespace Placement

variable (p : Placement) (streams : List (Option Bytes))

def blocksOf (piece : Nat → Piece) (content : Bytes) : List Nat :=
  (List.range (blocksFor content.size p.blockSize)).map fun i => p.block (piece i)

def layouts : List (Option StreamLayout) :=
  streams.mapIdx fun index stream => stream.map fun content => ⟨content.size, p.blocksOf (.stream index) content⟩

def directory : Bytes := (writeDirectory (p.layouts streams)).toArray

/-- What a reader finds in a file that stores the streams like this. -/
def container (data : Bytes) : Container := ⟨data, p.blockSize, p.blockCount, (p.layouts streams).toArray⟩

def superblock : List UInt8 :=
  mark ++ leBytes 4 p.blockSize ++ leBytes 4 p.freeMap ++ leBytes 4 p.blockCount ++
    leBytes 4 (p.directory streams).size ++ leBytes 4 p.unused ++ leBytes 4 (p.block .blockMap)

def content : Piece → Bytes
  | .blockMap => ((p.blocksOf .directory (p.directory streams)).flatMap (leBytes 4)).toArray
  | .directory i => partOf p.blockSize (p.directory streams) i
  | .stream index i => partOf p.blockSize (storedContent streams index) i

def pieces : List Piece :=
  .blockMap :: (List.range (blocksFor (p.directory streams).size p.blockSize)).map .directory ++
    (List.range streams.length).flatMap fun index =>
      (List.range (blocksFor (storedContent streams index).size p.blockSize)).map (.stream index)

/-- The numbers of the container can be recorded, and the block map is a single block. -/
structure Sized : Prop where
  blockSize_mem : p.blockSize ∈ [512, 1024, 2048, 4096]
  blockCount_lt : p.blockCount < 2 ^ 32
  blockMap_le : blocksFor (p.directory streams).size p.blockSize * 4 ≤ p.blockSize

/-- The file starts with the superblock and has each piece in its block. Nothing is said about other bytes. -/
structure StoredIn (data : Bytes) : Prop where
  superblock_slice : data.slice? 0 56 = some (p.superblock streams).toArray
  block_lt : ∀ x ∈ p.pieces streams, p.block x < p.blockCount
  piece_slice : ∀ x ∈ p.pieces streams,
    data.slice? (p.block x * p.blockSize) (p.content streams x).size = some (p.content streams x)

variable {p streams}

theorem Sized.blockSize_pos (h : p.Sized streams) : 0 < p.blockSize := by
  have hle := (le_of_blockSize_mem h.blockSize_mem).1
  omega

theorem blockMap_mem : .blockMap ∈ p.pieces streams := by
  simp only [pieces, List.cons_append, List.mem_cons, true_or]

theorem directory_mem_iff {i : Nat} :
    .directory i ∈ p.pieces streams ↔ i < blocksFor (p.directory streams).size p.blockSize := by
  simp [pieces]

theorem stream_mem_iff {index i : Nat} :
    .stream index i ∈ p.pieces streams ↔ i < blocksFor (storedContent streams index).size p.blockSize := by
  have hpast : streams.length ≤ index → blocksFor (storedContent streams index).size p.blockSize = 0 := by
    intro h
    rw [storedContent, List.getElem?_eq_none h]
    exact Nat.div_eq_zero_iff.mpr (by simp; omega)
  simp only [pieces, List.cons_append, List.mem_cons, List.mem_append, List.mem_map, List.mem_flatMap, List.mem_range,
    Piece.stream.injEq, reduceCtorEq, and_false, exists_false, false_or]
  constructor
  · rintro ⟨_, _, _, hi, rfl, rfl⟩
    exact hi
  · intro hi
    rcases Nat.lt_or_ge index streams.length with hindex | hindex
    · exact ⟨index, hindex, i, hi, rfl, rfl⟩
    · have hzero := hpast hindex
      omega

theorem length_blocksOf (piece : Nat → Piece) (content : Bytes) :
    (p.blocksOf piece content).length = blocksFor content.size p.blockSize := by
  rw [blocksOf, List.length_map, List.length_range]

theorem getElem?_blocksOf (p : Placement) (piece : Nat → Piece) {content : Bytes} {i : Nat}
    (h : i < blocksFor content.size p.blockSize) : (p.blocksOf piece content)[i]? = some (p.block (piece i)) := by
  rw [blocksOf, List.getElem?_map, List.getElem?_range h, Option.map_some]

theorem mem_layouts_iff {l : StreamLayout} : some l ∈ p.layouts streams ↔ ∃ index content,
    streams[index]? = some (some content) ∧ l = ⟨content.size, p.blocksOf (.stream index) content⟩ := by
  simp only [layouts, List.mem_mapIdx, Option.map_eq_some_iff]
  constructor
  · rintro ⟨index, hi, content, hc, rfl⟩
    exact ⟨index, content, List.getElem?_eq_some_iff.mpr ⟨hi, hc⟩, rfl⟩
  · rintro ⟨index, content, h, rfl⟩
    obtain ⟨hi, hc⟩ := List.getElem?_eq_some_iff.mp h
    exact ⟨index, hi, content, hc, rfl⟩

theorem Sized.directory_size_le (h : p.Sized streams) : (p.directory streams).size ≤ 2 ^ 22 := by
  obtain ⟨-, hle⟩ := le_of_blockSize_mem h.blockSize_mem
  have hblocks := h.blockMap_le
  have hsize := le_blocksFor_mul h.blockSize_pos (p.directory streams).size
  have hmul : blocksFor (p.directory streams).size p.blockSize * p.blockSize ≤ 1024 * 4096 :=
    Nat.mul_le_mul (by omega) hle
  omega

end Placement

end CodeAtlas.Container
