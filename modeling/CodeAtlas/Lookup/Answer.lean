import CodeAtlas.Lookup.Address
import CodeAtlas.Permalink

namespace CodeAtlas

/-- A source file as the compiler recorded it, and where its revision can be fetched if that is known. -/
structure SourcePath where
  raw : Text
  permalink : Option Permalink
deriving Repr, DecidableEq

/-- The permalink where there is one. -/
def SourcePath.display (p : SourcePath) : Text := (p.permalink.map Permalink.toText).getD p.raw

/-- One function of an inline stack. -/
structure Frame where
  function : Option Text
  file : Option SourcePath
  line : Option UInt32
deriving Repr, DecidableEq

/-- The inline stack at an address, innermost function first, or the file in which it has to be looked up. -/
inductive Frames
  | known (frames : List Frame)
  | elsewhere (file : Text) (address : UInt32)
deriving Repr, DecidableEq

structure Symbol where
  start : UInt32
  size : Option UInt32
  name : Text
deriving Repr, DecidableEq

/-- What is known about an address. -/
structure Answer where
  symbol : Symbol
  frames : Option Frames
deriving Repr, DecidableEq

end CodeAtlas
