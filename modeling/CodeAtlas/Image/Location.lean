import CodeAtlas.Image.Basic
import CodeAtlas.Lookup.Address

namespace CodeAtlas.Image

/-- Where sections overlap, the first one counts. -/
def offsetOfRva? (image : Image) (rva : UInt32) : Option Nat :=
  (image.sections.find? (·.backs rva)).map fun s => s.rawOffset.toNat + (rva - s.address).toNat

/-- The address is cut to 32 bits. -/
def rvaOfOffset? (image : Image) (offset : UInt64) : Option UInt32 :=
  let raw (s : Section) : UInt64 := s.rawOffset.toUInt64
  (image.sections.find? fun s => raw s ≤ offset && offset - raw s < s.rawSize.toUInt64).map fun s =>
    (s.address.toUInt64 + (offset - raw s)).toUInt32

/-- Only the first 2^32 bytes from the base on have a relative address. -/
def rvaOfPreferred? (image : Image) (address : UInt64) : Option UInt32 :=
  if image.base ≤ address ∧ address - image.base ≤ 0xFFFFFFFF then some (address - image.base).toUInt32 else none

def rva? (image : Image) : Address → Option UInt32
  | .relative rva => some rva
  | .preferred address => image.rvaOfPreferred? address
  | .fileOffset offset => image.rvaOfOffset? offset

/-- The bytes from an address on, up to the end of the raw data of its section or of the file. -/
def dataFrom? (image : Image) (rva : UInt32) : Option Bytes :=
  match image.sections.find? (·.backs rva) with
  | none => none
  | some s =>
    let delta := (rva - s.address).toNat
    let start := s.rawOffset.toNat + delta
    if start ≤ image.data.size then
      some (image.data.extract start (start + min (s.rawSize.toNat - delta) (image.data.size - start)))
    else none

/-- The `size` bytes from an address on, all of them inside one section's data. -/
def dataAt? (image : Image) (rva : UInt32) (size : Nat) : Option Bytes :=
  (image.dataFrom? rva).bind (·.slice? 0 size)

/-- The table of functions with their extents and unwind information. -/
def exceptionTable? (image : Image) : Option Bytes :=
  (image.directory? 3).bind fun d => image.dataAt? d.address d.size.toNat

end CodeAtlas.Image
