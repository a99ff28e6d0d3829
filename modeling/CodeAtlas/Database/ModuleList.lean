import CodeAtlas.Bytes
import CodeAtlas.Database.Fault

namespace CodeAtlas.Database

/-- This stream number says that there is no stream. -/
def nilStream : UInt16 := 0xFFFF

/-- A compiled module and the stream that describes it, which is made of three parts. -/
structure ModuleEntry where
  name : Text
  object : Text
  stream : UInt16
  symbolSize : UInt32
  c11Size : UInt32
  c13Size : UInt32
deriving Repr, DecidableEq

/-- The streams that describe the image as a whole. -/
structure ImageStreams where
  fpo : UInt16
  exception : UInt16
  fixup : UInt16
  omapToSource : UInt16
  omapFromSource : UInt16
  sections : UInt16
  tokenMap : UInt16
  xdata : UInt16
  pdata : UInt16
  newFpo : UInt16
  linkedSections : UInt16
deriving Repr, DecidableEq

namespace ImageStreams

def toList (s : ImageStreams) : List UInt16 :=
  [s.fpo, s.exception, s.fixup, s.omapToSource, s.omapFromSource, s.sections, s.tokenMap, s.xdata, s.pdata, s.newFpo,
    s.linkedSections]

/-- Numbers that are not stored are nil. -/
def parse (data : Bytes) : ImageStreams :=
  let number (i : Nat) : UInt16 := (data.u16At? (2 * i)).getD nilStream
  ⟨number 0, number 1, number 2, number 3, number 4, number 5, number 6, number 7, number 8, number 9, number 10⟩

end ImageStreams

/-- The modules of a program and the streams that belong to all of them. -/
structure ModuleList where
  version : UInt32
  age : UInt32
  globals : UInt16
  publics : UInt16
  symbolRecords : UInt16
  machine : UInt16
  modules : List ModuleEntry
  imageStreams : ImageStreams
deriving Repr, DecidableEq

namespace ModuleEntry

/-- The bytes of an entry before its two names. -/
def fixedSize : Nat := 64

/-- How many bytes an entry takes without padding. -/
def size (e : ModuleEntry) : Nat := fixedSize + (e.name.length + 1) + (e.object.length + 1)

def readAt? (data : Bytes) (pos : Nat) : Option ModuleEntry := do
  let stream ← data.u16At? (pos + 34)
  let symbolSize ← data.u32At? (pos + 36)
  let c11Size ← data.u32At? (pos + 40)
  let c13Size ← data.u32At? (pos + 44)
  let name ← data.cstringAt? (pos + fixedSize)
  let object ← data.cstringAt? (pos + fixedSize + (name.length + 1))
  some ⟨name, object, stream, symbolSize, c11Size, c13Size⟩

/-- The entries from a position on, each starting at a multiple of four; what is too short for an entry is left. -/
def list (data : Bytes) (pos : Nat) : Except Fault (List ModuleEntry) :=
  if data.size < pos + fixedSize then .ok []
  else
    match readAt? data pos with
    | none => .error .shortModuleEntry
    | some e => (e :: ·) <$> list data (Bytes.align4 (pos + e.size))
termination_by data.size + 1 - pos
decreasing_by
  have := Bytes.le_align4 (pos + e.size)
  simp only [size, fixedSize] at *
  omega

end ModuleEntry

namespace ModuleList

def headerSize : Nat := 64

def isNegative (n : UInt32) : Bool := 0x80000000 ≤ n

/-- The value of a word in two's complement. -/
def signed (n : UInt32) : Int := n.toInt32.toInt

/-- A header, the modules, five substreams that are passed over and the numbers of the image's streams. -/
def parse (data : Bytes) : Except Fault ModuleList := do
  let some header := data.slice? 0 headerSize | throw .shortModuleHeader
  let word (offset : Nat) : UInt32 := (header.u32At? offset).getD 0
  let half (offset : Nat) : UInt16 := (header.u16At? offset).getD 0
  if word 0 ≠ 0xFFFFFFFF then throw (.moduleSignature (signed (word 0)))
  let sizes := [24, 28, 32, 36, 40, 48, 52].map word
  if sizes.any isNegative then throw .negativeSize
  let size (offset : Nat) : Nat := (word offset).toNat
  let imageStreamsAt := headerSize + size 24 + size 28 + size 32 + size 36 + size 40 + size 52
  match data.slice? headerSize (size 24), data.slice? imageStreamsAt (size 48) with
  | some modules, some imageStreams =>
    let modules ← ModuleEntry.list modules 0
    pure ⟨word 4, word 8, half 12, half 16, half 20, half 58, modules, ImageStreams.parse imageStreams⟩
  | _, _ => throw .largeSubstreams

end ModuleList

end CodeAtlas.Database
