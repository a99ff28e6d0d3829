import CodeAtlas.Failure
import CodeAtlas.Lookup.SymbolSource

namespace CodeAtlas

/-- How files are found and read that hold the frames of an address in another file. -/
structure ExternalSupport (m : Type → Type) where
  /-- Where the file of some name is, given where the file is that refers to it. -/
  locate : Text → Text → m (Option Text)
  load : Text → m (Except Failure Bytes)
  parse : Bytes → m (Except Failure (SymbolSource m))

/-- Symbols and where they came from. A map without external support does not look into other files. -/
structure SymbolMap (m : Type → Type) where
  location : Text
  source : SymbolSource m
  external : Option (ExternalSupport m)

/-- The files that were asked for so far, latest first; one that could not be found, loaded or parsed is kept as
such. -/
abbrev ExternalFiles (m : Type → Type) := List (Text × Option (SymbolSource m))

namespace SymbolMap

variable {m : Type → Type} [Monad m]

/-- Finds, loads and parses a file. -/
def openExternal (support : ExternalSupport m) (location name : Text) : m (Option (SymbolSource m)) := do
  match ← support.locate location name with
  | none => pure none
  | some path =>
    match ← support.load path with
    | .error _ => pure none
    | .ok data =>
      match ← support.parse data with
      | .error _ => pure none
      | .ok source => pure (some source)

/-- A file is opened when it is first asked for, and never again. -/
def externalFile (support : ExternalSupport m) (location name : Text) :
    StateT (ExternalFiles m) m (Option (SymbolSource m)) := do
  match (← get).lookup name with
  | some file => pure file
  | none =>
    let file ← (openExternal support location name : m (Option (SymbolSource m)))
    modify ((name, file) :: ·)
    pure file

/-- The frames of an answer, unless they have to be looked up in yet another file. -/
def knownFrames? (a : Option Answer) : Option (List Frame) :=
  match a.bind (·.frames) with
  | some (.known frames) => some frames
  | _ => none

/-- The frames at an address of another file. -/
def lookupExternal (map : SymbolMap m) (name : Text) (address : UInt32) :
    StateT (ExternalFiles m) m (Option (List Frame)) := do
  match map.external with
  | none => pure none
  | some support =>
    match ← externalFile support map.location name with
    | none => pure none
    | some source => knownFrames? <$> (source.lookup (.relative address) : m (Option Answer))

/-- Frames that lie in another file are looked up there, and left out if that fails. -/
def lookup (map : SymbolMap m) (a : Address) : StateT (ExternalFiles m) m (Option Answer) := do
  match ← map.source.lookup a with
  | some ⟨symbol, some (.elsewhere file address)⟩ =>
    let frames ← map.lookupExternal file address
    pure (some ⟨symbol, frames.map .known⟩)
  | answer => pure answer

end SymbolMap

end CodeAtlas
