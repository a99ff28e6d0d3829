import CodeAtlas.Bytes

namespace CodeAtlas

/-- A place in a program: relative to where its image is loaded, as if it were loaded at its preferred base, or by
the position in its file. -/
inductive Address
  | relative (rva : UInt32)
  | preferred (address : UInt64)
  | fileOffset (offset : UInt64)
deriving Repr, DecidableEq

end CodeAtlas
