import CodeAtlas.Text

namespace CodeAtlas.Files

open Text

def slash : UInt8 := code '/'

def backslash : UInt8 := code '\\'

/-- The last component of a path that is written with either separator. -/
def recordedName (path : Text) : Text :=
  (path.reverse.takeWhile fun b => b ≠ slash ∧ b ≠ backslash).reverse

def isAbsolute (path : Text) : Bool := path.head? == some slash

/-- An absolute path replaces what it is joined to. A separator is added unless there is one already. -/
def join (directory path : Text) : Text :=
  if isAbsolute path ∨ directory = [] then path
  else if directory.getLast? = some slash then directory ++ path
  else directory ++ slash :: path

/-- Drops separators at the end, but not the one that is the root. -/
def dropSlashes (path : Text) : Text :=
  let kept := (path.reverse.dropWhile (· == slash)).reverse
  if kept = [] then path.take 1 else kept

/-- What comes before the last component, which is empty where the path ends in a separator. A path without
components is its own parent. -/
def parent (path : Text) : Text :=
  if path.all (· == slash) then path
  else dropSlashes (path.reverse.dropWhile (· != slash)).reverse

end CodeAtlas.Files
