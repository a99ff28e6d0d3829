import CodeAtlas.Text.Numeral

namespace CodeAtlas.Database

open Text

/-- What keeps a stream of a program database from being read. -/
inductive Fault
  | shortInfo
  | shortNameMap
  | shortNameEntries
  | nameOutside (offset : Nat)
  | openName
  | shortModuleHeader
  | moduleSignature (signature : Int)
  | negativeSize
  | largeSubstreams
  | shortModuleEntry
  | strings
  | typeHeader
  | largeTypes
  | shortType (index : Nat)
  | shortModule (name : Text)
deriving Repr, DecidableEq

def Fault.message : Fault → Text
  | shortInfo => "truncated header"
  | shortNameMap => "truncated named stream map"
  | shortNameEntries => "truncated named stream map entries"
  | nameOutside offset => "named stream name offset " ++ decimal offset ++ " is out of bounds"
  | openName => "unterminated named stream name"
  | shortModuleHeader => "truncated header"
  | moduleSignature signature => "unsupported DBI signature " ++ signedDecimal signature
  | negativeSize => "negative substream size"
  | largeSubstreams => "substreams exceed the stream size"
  | shortModuleEntry => "truncated module info"
  | strings => "invalid /names stream"
  | typeHeader => "invalid type stream header"
  | largeTypes => "type records exceed the stream size"
  | shortType index => "truncated type record " ++ hex0x index
  | shortModule name => "truncated module stream for " ++ name

end CodeAtlas.Database
