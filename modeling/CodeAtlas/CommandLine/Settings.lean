import CodeAtlas.CommandLine.LogChannel
import CodeAtlas.CommandLine.Registry
import CodeAtlas.CommandLine.Value

namespace CodeAtlas.CommandLine

open Text

/-- What the options of the program set. -/
structure Settings where
  symbolDirectories : List Text
  /-- Where log files go, if it is not the working directory. -/
  logDirectory : Option Text
  kind : AddressKind
  listSymbols : Bool
  channels : List LogChannel
deriving Repr, DecidableEq

namespace Settings

def defaults : Settings := ⟨[], none, .relative, false, []⟩

def symbolDirectoriesOption : Choice Settings where
  synopsis := ⟨"-s", "--symbol-dir",
    "Directories, separated by ':', that are searched for the PDB a binary references before the path recorded in the "
      ++ "binary is tried.", false⟩
  read := .value fun t => .ok fun s => { s with symbolDirectories := searchPath t }

def logDirectoryOption (isDirectory : Text → Bool) : Choice Settings where
  synopsis := ⟨"-l", "--log",
    "The directory where log files should be saved. If that directory doesn't exist, it will not be created for you, "
      ++ "and symmap will terminate.", false⟩
  read := .value fun t =>
    if isDirectory t then .ok fun s => { s with logDirectory := some t } else .error .missingDirectory

def kindOption : Choice Settings where
  synopsis := ⟨"-k", "--kind",
    "How the addresses given on the command line are interpreted: 'rva' (relative to the image base, the default), "
      ++ "'svma' (stated virtual memory address, image base included) or 'offset' (file offset).", false⟩
  read := .value fun t => (value AddressKind.ofText? t).map fun kind s => { s with kind }

def listOption : Choice Settings where
  synopsis := ⟨[], "--list",
    "List every symbol of the file, ordered by address, instead of looking up addresses.", true⟩
  read := .flag fun s => { s with listSymbols := true }

def channelsVariable : Variable Settings where
  synopsis := ⟨[], "LOG",
    "Configure what logging channels should be opened\n" ++ LogChannel.all.flatMap LogChannel.helpLine, false⟩
  read := fun t => some fun s => { s with channels := LogChannel.listOf t }

/-- The options of the program, which depend on what is a directory. -/
def registry (isDirectory : Text → Bool) : Registry Settings where
  usage := "[options] <file> [addresses...]"
  defaults := defaults
  options := [symbolDirectoriesOption, logDirectoryOption isDirectory, kindOption, listOption]
  commands := []
  environment := [channelsVariable]

end Settings

end CodeAtlas.CommandLine
