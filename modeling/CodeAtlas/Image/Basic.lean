import CodeAtlas.Image.Fault
import CodeAtlas.Image.Section

namespace CodeAtlas

/-- A table that the optional header points to. -/
structure Directory where
  address : UInt32
  size : UInt32
deriving Repr, DecidableEq

/-- An executable image: its bytes and what its headers say. -/
structure Image where
  data : Bytes
  is64 : Bool
  machine : UInt16
  base : UInt64
  size : UInt32
  symbolTable : UInt32
  symbolCount : UInt32
  directories : List Directory
  sections : List Section
deriving Repr, DecidableEq

namespace Image

/-- The bytes with which every image starts. -/
def hasMark (data : Bytes) : Bool := data.u16At? 0 == some 0x5A4D

/-- The machine whose exception table describes functions. -/
def amd64 : UInt16 := 0x8664

structure FileHeader where
  machine : UInt16
  sectionCount : UInt16
  symbolTable : UInt32
  symbolCount : UInt32
  optionalSize : UInt16
deriving Repr, DecidableEq

namespace FileHeader

def entrySize : Nat := 20

def read : Reader FileHeader := do
  let machine ← Reader.u16
  let sectionCount ← Reader.u16
  Reader.skip 4
  let symbolTable ← Reader.u32
  let symbolCount ← Reader.u32
  let optionalSize ← Reader.u16
  Reader.skip 2
  pure ⟨machine, sectionCount, symbolTable, symbolCount, optionalSize⟩

end FileHeader

/-- Where the two formats of the optional header keep what is needed; the number of directories stands right before
the directories. -/
structure Layout where
  is64 : Bool
  baseAt : Nat
  baseWidth : Nat
  directoriesAt : Nat
deriving Repr, DecidableEq

def Layout.ofMagic? (magic : UInt16) : Option Layout :=
  if magic = 0x10b then some ⟨false, 28, 4, 96⟩
  else if magic = 0x20b then some ⟨true, 24, 8, 112⟩
  else none

def Directory.read : Reader Directory := do
  let address ← Reader.u32
  let size ← Reader.u32
  pure ⟨address, size⟩

structure OptionalHeader where
  is64 : Bool
  base : UInt64
  size : UInt32
  directories : List Directory
deriving Repr, DecidableEq

/-- Only as many directories count as the header has room for. -/
def OptionalHeader.parse (header : Bytes) : Except Fault OptionalHeader :=
  let magic := (header.u16At? 0).getD 0
  match Layout.ofMagic? magic with
  | none => .error (.unknownMagic magic.toNat)
  | some l =>
    match header.valueAt? l.baseAt l.baseWidth, header.u32At? 56, header.u32At? (l.directoriesAt - 4) with
    | some base, some size, some count =>
      let fitting := min count.toNat ((header.size - l.directoriesAt) / 8)
      let directories := ((Reader.times fitting Directory.read).run (.ofBytes (header.drop l.directoriesAt))).1
      .ok ⟨l.is64, .ofNat base, size, directories⟩
    | _, _, _ => .error .shortOptionalHeader

/-- The mark of an image, its file header, the optional header and the section table, in this order. The place of the
section table is computed from that of the optional header modulo 2^32. -/
def parse (data : Bytes) : Except Fault Image := do
  if ¬hasMark data then throw .noDosMark
  let some start := data.u32At? 0x3c | throw .shortDosHeader
  if data.u32At? start.toNat ≠ some 0x4550 then throw (.noImageMark start.toNat)
  let some fileHeader := data.slice? (start.toNat + 4) FileHeader.entrySize | throw .shortFileHeader
  let h := (FileHeader.read.run (.ofBytes fileHeader)).1
  let some optionalHeader := data.slice? (start.toNat + 4 + FileHeader.entrySize) h.optionalSize.toNat
    | throw .shortOptionalHeader
  let o ← OptionalHeader.parse optionalHeader
  let optionalAt := start + 4 + .ofNat FileHeader.entrySize
  let some sections := data.slice? (optionalAt.toNat + h.optionalSize.toNat) (h.sectionCount.toNat * Section.entrySize)
    | throw (.sectionsDoNotFit h.sectionCount.toNat)
  pure ⟨data, o.is64, h.machine, o.base, o.size, h.symbolTable, h.symbolCount, o.directories, Section.table sections⟩

/-- A directory without an address or a size is not there. -/
def directory? (image : Image) (index : Nat) : Option Directory :=
  image.directories[index]?.filter fun d => d.address ≠ 0 && d.size ≠ 0

end Image

end CodeAtlas
