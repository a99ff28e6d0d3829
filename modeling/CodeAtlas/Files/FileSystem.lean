import CodeAtlas.Failure
import CodeAtlas.Lookup.Session
import CodeAtlas.Files.Path

namespace CodeAtlas

/-- What the program needs of the files around it. -/
structure FileSystem (m : Type → Type) where
  isFile : Text → m Bool
  isDirectory : Text → m Bool
  read : Text → m (Except Failure Bytes)
  /-- Makes an empty file, or empties the one that is there. -/
  create : Text → m Unit

namespace FileSystem

open Files

variable {m : Type → Type} [Monad m]

/-- The first of the paths that is a file. -/
def firstFile (fs : FileSystem m) : List Text → m (Option Text)
  | [] => pure none
  | path :: paths => do if ← fs.isFile path then pure (some path) else fs.firstFile paths

/-- A database is looked for by its name in the given directories, then at the path that was recorded, then beside the
binary. Where it is nowhere, the recorded path stands, so that reading it tells what is missing. A path without a
name is refused. -/
def locateDatabase (fs : FileSystem m) (directories : List Text) (binary recorded : Text) : m (Option Text) :=
  let name := recordedName recorded
  if name = [] then pure none
  else do
    let found ← fs.firstFile (directories.map (join · name) ++ [recorded, join (parent binary) name])
    pure (some (found.getD recorded))

/-- A relative name is one from the directory of the file that refers to it. -/
def locateExternal (debugFile name : Text) : Option Text :=
  if name = [] then none else some (join (parent debugFile) name)

/-- Finds files in the file system. -/
def helper (fs : FileSystem m) (directories : List Text) : Helper m :=
  ⟨fs.read, fun binary recorded _ => fs.locateDatabase directories binary recorded,
    fun debugFile name => pure (locateExternal debugFile name)⟩

end FileSystem

end CodeAtlas
