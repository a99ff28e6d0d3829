import CodeAtlas.Lookup.FileKind
import CodeAtlas.Lookup.SymbolMap
import CodeAtlas.Text.Utf8

namespace CodeAtlas

/-- Gives out files and knows where they are. What a location means is up to the helper. -/
structure Helper (m : Type → Type) where
  load : Text → m (Except Failure Bytes)
  /-- Where the program database is that the binary at a location names by a path, if the path is accepted. -/
  locateDatabase : Text → Text → DebugId → m (Option Text)
  /-- Where a file is that the debug information at a location refers to by name. -/
  locateExternal : Text → Text → m (Option Text)

namespace Helper

variable {m : Type → Type} [Monad m] [Sorting] [Demangler]

def loadFile (h : Helper m) (location : Text) : m (Except Failure Bytes) := do
  match ← h.load location with
  | .ok data => pure (.ok data)
  | .error cause => pure (.error (.notLoaded location cause))

/-- Symbols of a file that does not look into others. -/
def plainMap (location : Text) (symbols : Except Failure (SymbolSource Remembering)) :
    Except Failure (SymbolMap Remembering) :=
  symbols.map fun source => ⟨location, source, none⟩

/-- The symbols of the file itself. -/
def loadSymbols (h : Helper m) (location : Text) : m (Except Failure (SymbolMap Remembering)) := do
  match ← h.loadFile location with
  | .error failure => pure (.error failure)
  | .ok data => pure (plainMap location (openSymbols data))

/-- A database counts only if it belongs to the build that is asked for. -/
def checkId (expected : DebugId) (source : SymbolSource Remembering) : Except Failure (SymbolSource Remembering) :=
  if source.debugId = expected then .ok source else .error (.unmatchedId expected source.debugId)

/-- The symbols of the database that an image was built with. -/
def loadDatabaseOf (h : Helper m) (binary : Text) (image : Image) : m (Except Failure (SymbolMap Remembering)) :=
  match image.companion? with
  | none => pure (.error (.noCompanion binary))
  | some c =>
    if ¬Text.Utf8.isValid c.path then pure (.error (.companionNotUtf8 binary))
    else do
      match ← h.locateDatabase binary c.path c.debugId with
      | none => pure (.error (.companionRefused c.path))
      | some location =>
        match ← h.loadFile location with
        | .error failure => pure (.error failure)
        | .ok data => pure (plainMap location ((Database.openSymbols data).bind (checkId c.debugId)))

/-- An image that names a database has the symbols of that database and no others; for every other file they are
those of the file itself. -/
def loadSymbolsForBinary (h : Helper m) (binary : Text) : m (Except Failure (SymbolMap Remembering)) := do
  match ← h.loadFile binary with
  | .error failure => pure (.error failure)
  | .ok data =>
    if FileKind.ofBytes data = .image then
      match Image.parse data with
      | .error fault => pure (.error (.image fault))
      | .ok image =>
        if image.companion?.isSome then h.loadDatabaseOf binary image
        else pure (plainMap binary (openSymbols data))
    else pure (plainMap binary (openSymbols data))

end Helper

end CodeAtlas
