import CodeAtlas.Image.Export

namespace CodeAtlas.Image

/-- A primary record of the symbol table; the records that it announces after itself only add detail. -/
structure SymbolRecord where
  name : Bytes
  value : UInt32
  sectionNumber : UInt16
  type : UInt16
  storage : UInt8
  auxiliary : UInt8
deriving Repr, DecidableEq

namespace SymbolRecord

def entrySize : Nat := 18

def read : Reader SymbolRecord := do
  let name ← Reader.bytes 8
  let value ← Reader.u32
  let sectionNumber ← Reader.u16
  let type ← Reader.u16
  let storage ← Reader.u8
  let auxiliary ← Reader.u8
  pure ⟨name, value, sectionNumber, type, storage, auxiliary⟩

/-- Functions are external or static. -/
def isFunction (r : SymbolRecord) : Bool := r.type >>> 4 == 2 && (r.storage == 2 || r.storage == 3)

/-- A name that starts with four zero bytes gives the place of a longer one among the strings. -/
def fullName? (strings : Bytes) (r : SymbolRecord) : Option Text :=
  let name :=
    if r.name.u32At? 0 = some 0 then (r.name.u32At? 4).bind fun offset => strings.cstringAt? offset.toNat
    else some (r.name.untilNul 0)
  name.filter (· ≠ [])

/-- Section numbers count from one, and those that are negative as signed numbers have a special meaning. -/
def symbol? (sections : List Section) (strings : Bytes) (r : SymbolRecord) : Option NamedAddress := do
  let number := r.sectionNumber.toNat
  if ¬r.isFunction ∨ number = 0 ∨ 0x8000 ≤ number then none
  else
    let s ← sections[number - 1]?
    let name ← r.fullName? strings
    some ⟨s.address + r.value, name⟩

end SymbolRecord

/-- The primary records of a symbol table from `start` on. -/
def symbolRecords (table : Bytes) (start : Nat) : List SymbolRecord :=
  match _h : table.slice? start SymbolRecord.entrySize with
  | none => []
  | some entry =>
    let r := (SymbolRecord.read.run (.ofBytes entry)).1
    r :: symbolRecords table (start + (1 + r.auxiliary.toNat) * SymbolRecord.entrySize)
termination_by table.size - start
decreasing_by
  rw [Bytes.slice?] at _h
  split at _h
  next hb =>
    simp only [SymbolRecord.entrySize] at *
    omega
  next => cases _h

/-- The functions in the symbol table that some linkers leave behind the image; the strings follow it. -/
def objectSymbols (image : Image) : List NamedAddress :=
  let start := image.symbolTable.toNat
  let size := image.symbolCount.toNat * SymbolRecord.entrySize
  if start = 0 ∨ size = 0 then []
  else
    match image.data.slice? start size with
    | none => []
    | some table =>
      (symbolRecords table 0).filterMap (·.symbol? image.sections (image.data.drop (start + size)))

end CodeAtlas.Image
