import CodeAtlas.Bytes.Cursor

namespace CodeAtlas

/-- One entry of a section table: where the section lies in memory and where in the file. -/
structure Section where
  name : Text
  virtualSize : UInt32
  address : UInt32
  rawSize : UInt32
  rawOffset : UInt32
  flags : UInt32
deriving Repr, DecidableEq

namespace Section

/-- The bytes that one entry takes. -/
def entrySize : Nat := 40

/-- A section without a virtual size is as large as its raw data. -/
def memorySize (s : Section) : UInt32 := if s.virtualSize = 0 then s.rawSize else s.virtualSize

/-- The section covers the address in memory. -/
def holds (s : Section) (rva : UInt32) : Bool := s.address ≤ rva && rva - s.address < s.memorySize

/-- The section has raw data for the address. -/
def backs (s : Section) (rva : UInt32) : Bool := s.address ≤ rva && rva - s.address < s.rawSize

def isCode (s : Section) : Bool := s.flags &&& 0x20 != 0

/-- The first address after the section, modulo the address space. -/
def stop (s : Section) : UInt32 := s.address + s.memorySize

/-- The name fills eight bytes or ends at a NUL; relocations and line numbers, twelve bytes, are left out. -/
def read : Reader Section := do
  let name ← Reader.bytes 8
  let virtualSize ← Reader.u32
  let address ← Reader.u32
  let rawSize ← Reader.u32
  let rawOffset ← Reader.u32
  Reader.skip 12
  let flags ← Reader.u32
  pure ⟨name.untilNul 0, virtualSize, address, rawSize, rawOffset, flags⟩

/-- As many whole entries as there are. -/
def table (data : Bytes) : List Section :=
  ((Reader.times (data.size / entrySize) read).run (.ofBytes data)).1

/-- Where sections overlap, the first one counts. -/
def find? (sections : List Section) (rva : UInt32) : Option Section := sections.find? (·.holds rva)

end Section

end CodeAtlas
