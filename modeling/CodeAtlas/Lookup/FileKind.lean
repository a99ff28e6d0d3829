import CodeAtlas.Database.Symbols
import CodeAtlas.Image.Symbols

namespace CodeAtlas

/-- What a file is, told by how it starts. -/
inductive FileKind
  | image
  | database
  | unknown
deriving Repr, DecidableEq

def FileKind.ofBytes (data : Bytes) : FileKind :=
  if Image.hasMark data then image else if Container.hasMark data then database else unknown

/-- What symbols remember between lookups: the permalinks of the paths that were met. -/
abbrev Remembering := StateM Permalink.Memo

/-- The symbols of an image or of a program database. -/
def openSymbols [Sorting] [Demangler] (data : Bytes) : Except Failure (SymbolSource Remembering) :=
  match FileKind.ofBytes data with
  | .image => (Image.parse data).mapError .image |>.map (·.symbolSource)
  | .database => Database.openSymbols data
  | .unknown => .error (.unknownFile data.size)

end CodeAtlas
