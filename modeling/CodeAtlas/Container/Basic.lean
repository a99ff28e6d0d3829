import CodeAtlas.Bytes.Cursor
import CodeAtlas.Container.Fault

namespace CodeAtlas

/-- How long a stream is and in which blocks of the file its bytes lie. -/
structure StreamLayout where
  size : Nat
  blocks : List Nat
deriving Repr, DecidableEq

/-- A file that holds numbered streams, each cut into blocks of one size that lie anywhere. -/
structure Container where
  data : Bytes
  blockSize : Nat
  blockCount : Nat
  streams : Array (Option StreamLayout)
deriving Repr, DecidableEq

namespace Container

/-- The text with which every container starts. -/
def mark : Text := Text.ofString "Microsoft C/C++ MSF 7.00\x0d\n\x1aDS" ++ [0, 0, 0]

def hasMark (data : Bytes) : Bool := (data.slice? 0 32).any fun part => part.toList == mark

/-- A stream of this size does not exist. -/
def nilSize : Nat := 0xFFFFFFFF

def blocksFor (size blockSize : Nat) : Nat := (size + blockSize - 1) / blockSize

/-- The part of a block that lies in the file. -/
def block? (data : Bytes) (blockSize blockCount block : Nat) : Option Bytes :=
  if blockCount ≤ block ∨ data.size ≤ block * blockSize then none
  else some (data.extract (block * blockSize) (block * blockSize + blockSize))

structure Header where
  blockSize : Nat
  blockCount : Nat
  directorySize : Nat
  blockMap : Nat
deriving Repr, DecidableEq

/-- The fields after the mark; two of them are not needed. -/
def Header.parse (data : Bytes) : Except Fault Header := do
  if ¬hasMark data then throw .noMark
  match data.valueAt? 32 4, data.valueAt? 40 4, data.valueAt? 44 4, data.valueAt? 52 4 with
  | some blockSize, some blockCount, some directorySize, some blockMap =>
    if blockSize ∈ [512, 1024, 2048, 4096] then pure ⟨blockSize, blockCount, directorySize, blockMap⟩
    else throw (.blockSize blockSize)
  | _, _, _, _ => throw .shortHeader

/-- The blocks that `count` entries of the block map name, one after the other. -/
def gather (block? : Nat → Option Bytes) (blockMap : Bytes) (count : Nat) : Option Bytes :=
  (List.range count).foldl
    (fun acc? i => do
      let acc ← acc?
      let index ← blockMap.valueAt? (i * 4) 4
      let part ← block? index
      some (acc ++ part))
    (some #[])

/-- The directory is found through the block map, which is a single block. -/
def Header.directory (h : Header) (data : Bytes) : Except Fault Bytes := do
  let block? := block? data h.blockSize h.blockCount
  let count := blocksFor h.directorySize h.blockSize
  if h.blockSize < count * 4 then throw (.largeDirectory h.directorySize)
  let some blockMap := block? h.blockMap | throw (.blockMapOutside h.blockMap)
  let some directory := gather block? blockMap count | throw .directoryOutside
  if directory.size < h.directorySize then throw .shortDirectory
  pure (directory.extract 0 h.directorySize)

/-- The block lists of streams of the given sizes, the first one being stream `index`; a list follows the other. -/
def layouts (blockSize : Nat) : Nat → List Nat → Cursor → Except Fault (List (Option StreamLayout))
  | _, [], _ => .ok []
  | index, size :: sizes, c =>
    if size = nilSize then (none :: ·) <$> layouts blockSize (index + 1) sizes c
    else
      let count := blocksFor size blockSize
      if c.left < count * 4 then .error (.shortBlockList index)
      else
        let (blocks, c) := (Reader.times count (Cursor.value 4)).run c
        (some ⟨size, blocks⟩ :: ·) <$> layouts blockSize (index + 1) sizes c

/-- The directory is the number of streams, their sizes and their block lists. -/
def readDirectory (blockSize : Nat) (directory : Bytes) : Except Fault (List (Option StreamLayout)) := do
  let (count, c) := (Cursor.ofBytes directory).value 4
  if c.overrun ∨ c.left < count * 4 then throw (.tooManyStreams count)
  let (sizes, c) := (Reader.times count (Cursor.value 4)).run c
  layouts blockSize 0 sizes c

def parse (data : Bytes) : Except Fault Container := do
  let h ← Header.parse data
  let directory ← h.directory data
  let streams ← readDirectory h.blockSize directory
  pure ⟨data, h.blockSize, h.blockCount, streams.toArray⟩

/-- Stream numbers past the directory and streams without a size do not exist. -/
def layout? (c : Container) (stream : Nat) : Option StreamLayout := c.streams[stream]?.join

def streamSize? (c : Container) (stream : Nat) : Option Nat := (c.layout? stream).map (·.size)

end Container

end CodeAtlas
