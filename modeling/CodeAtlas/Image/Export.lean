import CodeAtlas.Image.Location

namespace CodeAtlas

/-- A name that a file gives to an address. -/
structure NamedAddress where
  rva : UInt32
  name : Text
deriving Repr, DecidableEq

namespace Image

/-- The counts and tables of an export directory. -/
structure ExportHeader where
  functionCount : UInt32
  nameCount : UInt32
  functions : UInt32
  names : UInt32
  ordinals : UInt32
deriving Repr, DecidableEq

namespace ExportHeader

def entrySize : Nat := 40

def read : Reader ExportHeader := do
  Reader.skip 20
  let functionCount ← Reader.u32
  let nameCount ← Reader.u32
  let functions ← Reader.u32
  let names ← Reader.u32
  let ordinals ← Reader.u32
  pure ⟨functionCount, nameCount, functions, names, ordinals⟩

end ExportHeader

/-- The three tables of an export directory, all of them backed by the file. -/
structure ExportTables where
  functionCount : Nat
  nameCount : Nat
  functions : Bytes
  names : Bytes
  ordinals : Bytes
deriving Repr, DecidableEq

def Directory.holds (d : Directory) (rva : UInt32) : Bool := d.address ≤ rva && rva - d.address < d.size

/-- Counts that could not fit in the image are not believed. The sizes of the tables are reckoned in 32 bits. -/
def exportTables? (image : Image) (d : Directory) : Option ExportTables := do
  let header ← image.dataAt? d.address ExportHeader.entrySize
  let h := (ExportHeader.read.run (.ofBytes header)).1
  if image.size / 4 < h.functionCount ∨ image.size / 4 < h.nameCount then none
  else
    let functions ← image.dataAt? h.functions (h.functionCount * 4).toNat
    let names ← image.dataAt? h.names (h.nameCount * 4).toNat
    let ordinals ← image.dataAt? h.ordinals (h.nameCount * 2).toNat
    some ⟨h.functionCount.toNat, h.nameCount.toNat, functions, names, ordinals⟩

/-- The function behind the name of one index. An address inside the directory itself forwards to another module. -/
def export? (image : Image) (d : Directory) (tables : ExportTables) (index : Nat) : Option NamedAddress := do
  let nameRva ← tables.names.u32At? (index * 4)
  let ordinal ← tables.ordinals.u16At? (index * 2)
  if tables.functionCount ≤ ordinal.toNat then none
  else
    let rva ← tables.functions.u32At? (ordinal.toNat * 4)
    if rva = 0 ∨ Directory.holds d rva then none
    else
      let name ← (image.dataFrom? nameRva).bind (·.cstringAt? 0)
      if name = [] then none else some ⟨rva, name⟩

/-- The exported functions in the order of the name table. -/
def exports (image : Image) : List NamedAddress :=
  match image.directory? 0 with
  | none => []
  | some d =>
    match image.exportTables? d with
    | none => []
    | some tables => (List.range tables.nameCount).filterMap (image.export? d tables)

end Image

end CodeAtlas
