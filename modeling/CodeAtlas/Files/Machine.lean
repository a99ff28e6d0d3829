import CodeAtlas.Files.FileSystem

namespace CodeAtlas.Files

/-- A path that can name a file. -/
def pathName? (path : Text) : Option String := (String.fromUTF8? ⟨path.toArray⟩).filter (!·.isEmpty)

/-- What the operating system says of a failure. -/
def reasonOf : IO.Error → Text
  | .noFileOrDirectory _ _ details | .permissionDenied _ _ details | .inappropriateType _ _ details
  | .invalidArgument _ _ details | .resourceExhausted _ _ details | .resourceBusy _ details
  | .otherError _ details => details
  | failure => failure.toString

/-- What a path leads to, through links if need be. -/
def fileType? (path : Text) : IO (Option IO.FS.FileType) := do
  let some name := pathName? path | return none
  match ← ((← IO.currentDir) / name).metadata.toBaseIO with
  | .ok data => return some data.type
  | .error _ => return none

def readFile (path : Text) : IO (Except Failure Bytes) := do
  let some name := pathName? path | return .error (.cannotOpen path "No such file or directory")
  if (← fileType? path) matches some .dir then return .error (.cannotMap path)
  match ← (IO.FS.withFile name .read (·.readBinToEnd)).toBaseIO with
  | .ok bytes => return .ok bytes.data
  | .error failure => return .error (.cannotOpen path (reasonOf failure))

def createFile (path : Text) : IO Unit := do
  let some name := pathName? path | return
  discard (IO.FS.writeBinFile name .empty).toBaseIO

/-- The files of the machine that the program runs on. -/
def machine : FileSystem IO where
  isFile path := return (← fileType? path) matches some .file
  isDirectory path := return (← fileType? path) matches some .dir
  read := readFile
  create := createFile

end CodeAtlas.Files
