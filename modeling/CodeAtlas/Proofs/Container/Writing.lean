import CodeAtlas.Proofs.Container.StoredStream

namespace CodeAtlas.Container

namespace Placement

variable (p : Placement) (streams : List (Option Bytes))

/-- Every piece has a block of its own, and none is in the block of the superblock. -/
structure Apart : Prop where
  block_pos : ∀ x ∈ p.pieces streams, 0 < p.block x
  block_lt : ∀ x ∈ p.pieces streams, p.block x < p.blockCount
  block_inj : ∀ x ∈ p.pieces streams, ∀ y ∈ p.pieces streams, p.block x = p.block y → x = y

def pieceAt? (block : Nat) : Option Piece := (p.pieces streams).find? fun x => p.block x == block

def stored (block : Nat) : Bytes :=
  if block = 0 then (p.superblock streams).toArray
  else ((p.pieceAt? streams block).map (p.content streams)).getD #[]

/-- The file in which all blocks are filled up with bytes of no meaning. -/
def file (fill : Nat → UInt8) : Bytes :=
  .ofFn fun pos : Fin (p.blockCount * p.blockSize) =>
    (p.stored streams (pos / p.blockSize))[pos.val % p.blockSize]?.getD (fill pos)

variable {p streams}

theorem pieceAt?_block (h : p.Apart streams) {x : Piece} (hx : x ∈ p.pieces streams) :
    p.pieceAt? streams (p.block x) = some x := by
  unfold pieceAt?
  cases hf : (p.pieces streams).find? fun y => p.block y == p.block x with
  | none => exact absurd (beq_self_eq_true _) (List.find?_eq_none.mp hf x hx)
  | some y =>
    have hblock := List.find?_some hf
    rw [h.block_inj y (List.mem_of_find?_eq_some hf) x hx (beq_iff_eq.mp hblock)]

theorem stored_block (h : p.Apart streams) {x : Piece} (hx : x ∈ p.pieces streams) :
    p.stored streams (p.block x) = p.content streams x := by
  have hpos := h.block_pos x hx
  rw [stored, if_neg (by omega), pieceAt?_block h hx]
  rfl

theorem size_content_le (hs : p.Sized streams) (x : Piece) : (p.content streams x).size ≤ p.blockSize := by
  cases x with
  | blockMap =>
    rw [content, List.size_toArray, length_flatMap_leBytes, length_blocksOf]
    exact hs.blockMap_le
  | directory i =>
    rw [content, partOf, Array.size_extract]
    omega
  | stream index i =>
    rw [content, partOf, Array.size_extract]
    omega

theorem slice?_file (fill : Nat → UInt8) {block : Nat} (hblock : block < p.blockCount)
    (hsize : (p.stored streams block).size ≤ p.blockSize) :
    (p.file streams fill).slice? (block * p.blockSize) (p.stored streams block).size = some (p.stored streams block) := by
  have hfile : (p.file streams fill).size = p.blockCount * p.blockSize := Array.size_ofFn
  have hend := Nat.mul_le_mul_right p.blockSize (Nat.succ_le_of_lt hblock)
  rw [Nat.succ_mul] at hend
  refine Bytes.slice?_eq_some_of_getElem? (by omega) fun k hk => ?_
  have hdiv : (block * p.blockSize + k) / p.blockSize = block := by
    rw [Nat.mul_comm, Nat.mul_add_div (by omega), Nat.div_eq_of_lt (by omega), Nat.add_zero]
  have hmod : (block * p.blockSize + k) % p.blockSize = k := by
    rw [Nat.mul_comm, Nat.mul_add_mod, Nat.mod_eq_of_lt (by omega)]
  have hpos : block * p.blockSize + k < p.blockCount * p.blockSize := by omega
  rw [file, Array.getElem?_ofFn, dif_pos hpos]
  simp only [hdiv, hmod]
  rw [Array.getElem?_eq_getElem hk, Option.getD_some]

theorem length_superblock : (p.superblock streams).length = 56 := by
  simp only [superblock, List.length_append, length_mark, length_leBytes]

theorem storedIn_file (hs : p.Sized streams) (h : p.Apart streams) (fill : Nat → UInt8) :
    p.StoredIn streams (p.file streams fill) := by
  have hle := (le_of_blockSize_mem hs.blockSize_mem).1
  refine ⟨?_, h.block_lt, fun x hx => ?_⟩
  · have hsize : (p.stored streams 0).size = 56 := by
      rw [stored, if_pos rfl, List.size_toArray, length_superblock]
    have hcount := Nat.lt_trans (h.block_pos _ blockMap_mem) (h.block_lt _ blockMap_mem)
    have hslice := slice?_file fill hcount (by omega : (p.stored streams 0).size ≤ p.blockSize)
    rwa [hsize, Nat.zero_mul] at hslice
  · have hsize : (p.stored streams (p.block x)).size ≤ p.blockSize := by
      rw [stored_block h hx]
      exact size_content_le hs x
    have hslice := slice?_file fill (h.block_lt x hx) hsize
    rwa [stored_block h hx] at hslice

/-- Parsing undoes writing, wherever the pieces are put and whatever fills the rest of the file. -/
theorem parse_file (hs : p.Sized streams) (ha : p.Apart streams) (fill : Nat → UInt8) :
    ∃ c, parse (p.file streams fill) = .ok c ∧ c.HasStreams streams := by
  have hstored := storedIn_file hs ha fill
  exact ⟨_, parse_of_storedIn hs hstored, hasStreams_of_storedIn hs hstored⟩

end Placement

/-- A stream that does not exist, an empty one and one that takes two blocks of the smallest size. -/
def smallStreams : List (Option Bytes) := [none, some #[], some (.replicate 600 0x61)]

/-- The parts of a stream are stored from the last to the first. -/
def turnedAround (blockSize : Nat) : Placement where
  blockSize := blockSize
  blockCount := 32
  freeMap := 1
  unused := 0
  block
    | .blockMap => 2
    | .directory _ => 1
    | .stream index part => 4 * index + 4 - part

theorem sized_smallStreams : (turnedAround 512).Sized smallStreams :=
  ⟨by decide +kernel, by decide +kernel, by decide +kernel⟩

theorem apart_smallStreams : (turnedAround 512).Apart smallStreams :=
  ⟨by decide +kernel, by decide +kernel, by decide +kernel⟩

theorem Placement.parse_file_smallStreams : (turnedAround 512).Sized smallStreams ∧ (turnedAround 512).Apart smallStreams ∧
    ∃ c, parse ((turnedAround 512).file smallStreams fun _ => 0) = .ok c ∧ c.HasStreams smallStreams :=
  ⟨sized_smallStreams, apart_smallStreams, Placement.parse_file sized_smallStreams apart_smallStreams fun _ => 0⟩

end CodeAtlas.Container
