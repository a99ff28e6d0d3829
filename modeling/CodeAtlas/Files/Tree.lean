import CodeAtlas.Files.FileSystem
import CodeAtlas.Text.Fields

namespace CodeAtlas

/-- A directory and all that is in it. A path in it is a list of names. -/
structure FileTree where
  files : List (List Text × Bytes)
  directories : List (List Text)
deriving Repr, DecidableEq

namespace FileTree

open Text

/-- What a path leads to. -/
inductive Place
  | file (data : Bytes)
  | directory
deriving Repr, DecidableEq

/-- Why a path leads nowhere. -/
inductive Reason
  | missing
  | notDirectory
  | longName
deriving Repr, DecidableEq

def Reason.message : Reason → Text
  | missing => "No such file or directory"
  | notDirectory => "Not a directory"
  | longName => "File name too long"

/-- The names of a path; empty ones, which separators in a row leave, count as the directory itself. -/
def names (path : Text) : List Text := fields (code '/') path

/-- The directory above a file or directory is there without being listed. -/
def place? (t : FileTree) (here : List Text) : Option Place :=
  match t.files.lookup here with
  | some data => some (.file data)
  | none =>
    if here = [] ∨ t.directories.any here.isPrefixOf ∨ t.files.any (here.isPrefixOf ·.1) then some .directory else none

/-- Names that lead from a directory to itself or up. -/
def isDots (name : Text) : Bool := name == [] || name == "." || name == ".."

/-- Walks from a directory through names. Above the tree, where a walk has no names, there are only directories. -/
def walk (t : FileTree) : Option (List Text) → List Text → Except Reason (Option (List Text))
  | here, [] => .ok here
  | none, name :: rest => if isDots name then t.walk none rest else .error .missing
  | some here, name :: rest =>
    match t.place? here with
    | none => .error .missing
    | some (.file _) => .error .notDirectory
    | some .directory =>
      if name = [] ∨ name = "." then t.walk (some here) rest
      else if name = ".." then t.walk (if here = [] then none else some here.dropLast) rest
      else if 255 < name.length then .error .longName
      else
        match t.place? (here ++ [name]) with
        | none => .error .missing
        | some _ => t.walk (some (here ++ [name])) rest

/-- A NUL ends a path. Of absolute paths only those to the root lead somewhere. -/
def find (t : FileTree) (path : Text) : Except Reason Place :=
  let path := before 0 path
  if path = [] then .error .missing
  else if 4096 ≤ path.length then .error .longName
  else if Files.isAbsolute path then if (names path).all isDots then .ok .directory else .error .missing
  else do
    match ← t.walk (some []) (names path) with
    | none => pure .directory
    | some here =>
      match t.place? here with
      | some place => pure place
      | none => throw .missing

def isFile (t : FileTree) (path : Text) : Bool :=
  match t.find path with
  | .ok (.file _) => true
  | _ => false

def isDirectory (t : FileTree) (path : Text) : Bool :=
  match t.find path with
  | .ok .directory => true
  | _ => false

/-- A directory can be opened but has no bytes. -/
def read (t : FileTree) (path : Text) : Except Failure Bytes :=
  match t.find path with
  | .ok (.file data) => .ok data
  | .ok .directory => .error (.cannotMap (before 0 path))
  | .error reason => .error (.cannotOpen (before 0 path) reason.message)

/-- Nothing happens where the directory of the new file is not there, or where a directory has its name. -/
def create (t : FileTree) (path : Text) : FileTree :=
  if Files.isAbsolute path then t
  else
    let names := names path
    match t.walk (some []) names.dropLast, names.getLast? with
    | .ok (some here), some name =>
      let target := here ++ [name]
      match t.place? here, t.place? target with
      | some .directory, some (.file _) =>
        { t with files := t.files.map fun f => if f.1 = target then (target, #[]) else f }
      | some .directory, none => { t with files := t.files ++ [(target, #[])] }
      | _, _ => t
    | _, _ => t

/-- The paths of all files, in the order of their bytes. -/
def paths (t : FileTree) : List Text :=
  (t.files.map fun f => Text.join "/" f.1).mergeSort fun a b => decide (a ≤ b)

def fileSystem : FileSystem (StateM FileTree) :=
  ⟨fun path => return (← get).isFile path, fun path => return (← get).isDirectory path,
    fun path => return (← get).read path, fun path => modify (·.create path)⟩

end FileTree

end CodeAtlas
