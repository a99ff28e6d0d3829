import CodeAtlas.Image.Section
import CodeAtlas.Lookup.Bisection
import CodeAtlas.Lookup.Sorting

namespace CodeAtlas.Database

/-- Code that was at `source` when the program was linked is at `target` in the image. -/
structure Move where
  source : UInt32
  target : UInt32
deriving Repr, DecidableEq

namespace Move

def read : Reader Move := do
  let source ← Reader.u32
  let target ← Reader.u32
  pure ⟨source, target⟩

/-- As many whole moves as there are. -/
def table (data : Bytes) : List Move := ((Reader.times (data.size / 8) read).run (.ofBytes data)).1

end Move

/-- Turns positions in numbered sections into addresses, also in images that were rearranged after linking. -/
structure AddressMap where
  sections : List Section
  moves : Array Move
deriving Repr, DecidableEq

namespace AddressMap

def empty : AddressMap := ⟨[], #[]⟩

/-- The moves are kept in the order of their sources. -/
def make [Sorting] (sections : List Section) (moves : List Move) : AddressMap :=
  ⟨sections, (Sorting.sort Move.source moves).toArray⟩

/-- Without moves an address stays. The last move that starts at or before an address carries it along, modulo 2^32;
code that was moved to zero is gone. -/
def moved? (m : AddressMap) (rva : UInt32) : Option UInt32 :=
  if m.moves.isEmpty then some rva
  else
    match Bisection.lastAtMost? Move.source m.moves rva with
    | none => none
    | some move => if move.target = 0 then none else some (move.target + (rva - move.source))

/-- Sections are numbered from one. -/
def rva? (m : AddressMap) (number : UInt16) (offset : UInt32) : Option UInt32 :=
  if number = 0 then none
  else m.sections[number.toNat - 1]?.bind fun s => m.moved? (s.address + offset)

end AddressMap

end CodeAtlas.Database
