import CodeAtlas.DebugId
import CodeAtlas.Image.Location

namespace CodeAtlas

/-- What an image says about the file that describes it. The path is as it was recorded, in no certain encoding. -/
structure Companion where
  guid : Vector UInt8 16
  age : UInt32
  path : Text
deriving DecidableEq

namespace Companion

def debugId (c : Companion) : DebugId := .ofGuidAge c.guid c.age

/-- A record is a mark, an identifier, an age and a path, which ends at a NUL or with the record. -/
def ofRecord? (record : Bytes) : Option Companion :=
  if record.u32At? 0 ≠ some 0x53445352 then none
  else
    match record.guidAt? 4, record.u32At? 20 with
    | some guid, some age => some ⟨guid, age, record.untilNul 24⟩
    | _, _ => none

end Companion

namespace Image

/-- An entry of the debug directory. -/
structure DebugEntry where
  type : UInt32
  size : UInt32
  address : UInt32
  offset : UInt32
deriving Repr, DecidableEq

namespace DebugEntry

def entrySize : Nat := 28

def read : Reader DebugEntry := do
  Reader.skip 12
  let type ← Reader.u32
  let size ← Reader.u32
  let address ← Reader.u32
  let offset ← Reader.u32
  pure ⟨type, size, address, offset⟩

/-- The position in the file counts where the file holds the whole record there; otherwise the address does. -/
def record? (image : Image) (e : DebugEntry) : Option Bytes :=
  let atOffset := if e.offset = 0 then none else image.data.slice? e.offset.toNat e.size.toNat
  atOffset <|> image.dataAt? e.address e.size.toNat

def companion? (image : Image) (e : DebugEntry) : Option Companion :=
  if e.type = 2 then (e.record? image).bind Companion.ofRecord? else none

end DebugEntry

def debugEntries (image : Image) : List DebugEntry :=
  match (image.directory? 6).bind fun d => image.dataAt? d.address d.size.toNat with
  | none => []
  | some data => ((Reader.times (data.size / DebugEntry.entrySize) DebugEntry.read).run (.ofBytes data)).1

/-- The first entry that leads to a whole record; entries that do not are passed over. -/
def companion? (image : Image) : Option Companion := image.debugEntries.findSome? (·.companion? image)

/-- Byte `i` is folded into place `i % 16` by exclusive or. -/
def fold16 (data : Bytes) : Vector UInt8 16 :=
  data.toList.zipIdx.foldl
    (fun hash (b, i) =>
      have : i % 16 < 16 := Nat.mod_lt _ (by decide)
      hash.set (i % 16) (hash[i % 16] ^^^ b))
    (.replicate 16 0)

/-- An image that names no companion is told by the first 4096 bytes of its first code section. -/
def debugId (image : Image) : DebugId :=
  match image.companion? with
  | some c => c.debugId
  | none =>
    let code := (image.sections.find? (·.isCode)).bind fun s => image.dataFrom? s.address
    .ofGuidAge (fold16 ((code.getD #[]).extract 0 4096)) 0

end Image

end CodeAtlas
