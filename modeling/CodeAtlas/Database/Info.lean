import CodeAtlas.Bytes.Cursor
import CodeAtlas.Database.Fault

namespace CodeAtlas.Database

/-- Which build a database belongs to, and the streams that have a name, in the order in which they are stored. -/
structure Info where
  version : UInt32
  signature : UInt32
  age : UInt32
  guid : Vector UInt8 16
  entries : List (Text × UInt32)
deriving DecidableEq

namespace Info

/-- Where a name is stored twice, the first entry counts. -/
def find? (info : Info) (name : Text) : Option UInt32 := info.entries.lookup name

/-- The first entry of each name, in the order of the names' bytes. -/
def named (info : Info) : List (Text × UInt32) :=
  let kept := info.entries.foldl (fun kept e => if (kept.lookup e.1).isSome then kept else kept ++ [e]) []
  kept.mergeSort fun a b => decide (a.1 ≤ b.1)

/-- A bit vector is a number of words and the words. -/
def bitVector : Reader (List UInt32) := do
  let words ← Cursor.value 4
  let c ← get
  if c.left < words * 4 then
    set c.spoil
    pure []
  else Reader.times words Reader.u32

def bitIsSet (words : List UInt32) (i : Nat) : Bool := words[i / 32]?.any fun w => w >>> UInt32.ofNat (i % 32) &&& 1 != 0

/-- How many buckets below the capacity hold an entry. -/
def presentCount (words : List UInt32) (capacity : Nat) : Nat :=
  (List.range (min capacity (32 * words.length))).countP (bitIsSet words)

/-- The names' characters and the number of entries that follow. -/
def nameMap : Reader (Bytes × Nat) := do
  let size ← Cursor.value 4
  let names ← Reader.bytes size
  Reader.skip 4
  let capacity ← Cursor.value 4
  let present ← bitVector
  let _deleted ← bitVector
  pure (names, presentCount present capacity)

/-- An entry is the place of a name and the number of a stream. -/
def readEntries (names : Bytes) : Nat → Cursor → Except Fault (List (Text × UInt32))
  | 0, _ => .ok []
  | n + 1, c => do
    let (offset, c) := c.value 4
    let (stream, c) := Reader.u32.run c
    if c.overrun then throw .shortNameEntries
    if names.size ≤ offset then throw (.nameOutside offset)
    let some name := names.cstringAt? offset | throw .openName
    let rest ← readEntries names n c
    pure ((name, stream) :: rest)

def parse (data : Bytes) : Except Fault Info := do
  let some guid := data.guidAt? 12 | throw .shortInfo
  let (version, c) := Reader.u32.run (.ofBytes data)
  let (signature, c) := Reader.u32.run c
  let (age, c) := Reader.u32.run c
  let ((names, count), c) := nameMap.run (c.skip 16)
  if c.overrun then throw .shortNameMap
  let entries ← readEntries names count c
  pure ⟨version, signature, age, guid, entries⟩

end Info

end CodeAtlas.Database
