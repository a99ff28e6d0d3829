import CodeAtlas.CommandLine.Help
import CodeAtlas.CommandLine.Settings
import CodeAtlas.Files.FileSystem
import CodeAtlas.Lookup.AnswerText

namespace CodeAtlas.CommandLine

open Text

/-- What a run of the program leaves behind, apart from files. -/
structure Report where
  exitCode : UInt8
  output : Text
  errors : Text
deriving Repr, DecidableEq

namespace Report

/-- What is wrong with a command line, below the general help. -/
def ofMisuse (registry : Registry Settings) (p : Parsed Settings) : Report :=
  let line (c : Complaint) : Text :=
    "Parse error: " ++ c.fault.message ++ ". inputs=\x7b " ++ join ", " c.inputs ++ " \x7d\n"
  let missing : Text := if p.positionals = [] then "No file given.\n" else []
  ⟨255, registry.generalHelp ++ "\n" ++ p.complaints.flatMap line ++ missing, []⟩

def ofFailure (file : Text) (f : Failure) : Report := ⟨1, [], file ++ ": " ++ f.message ++ "\n"⟩

end Report

/-- The log file of a channel. -/
def logFile (settings : Settings) (channel : LogChannel) : Text :=
  match settings.logDirectory with
  | none => channel.fileName
  | some directory => Files.join directory channel.fileName

/-- Where the symbols come from, and how many there are. -/
def headline (map : SymbolMap m) : Text :=
  map.location ++ " (debug id " ++ map.source.debugId.toText ++ ", " ++ decimal map.source.symbols.length ++
    " symbols)\n"

/-- A symbol in a list of all symbols. -/
def symbolLine (symbol : UInt32 × Text) : Text :=
  padLeft 8 (code '0') (hex symbol.1.toNat) ++ " " ++ symbol.2 ++ "\n"

/-- The reply to an address, or what is wrong with it. -/
def reply (map : SymbolMap Remembering) (kind : AddressKind) (input : Text) :
    StateT (ExternalFiles Remembering) Remembering (Except Text Text) :=
  match Address.ofText? kind input with
  | none => pure (.error (input ++ ": not a hexadecimal address\n"))
  | some a => do return .ok (replyTo input (← map.lookup a))

/-- The symbols if they are asked for, and the replies to all addresses. -/
def Report.ofSymbols (settings : Settings) (map : SymbolMap Remembering) (inputs : List Text) : Report :=
  let replies : List (Except Text Text) := (((inputs.mapM (reply map settings.kind)).run []).run .empty).1.1
  let symbols := if settings.listSymbols then map.source.symbols.flatMap symbolLine else []
  let said : Except Text Text → Text
    | .ok text => text
    | .error _ => []
  let refused : Except Text Text → Text
    | .ok _ => []
    | .error text => text
  let errors := replies.flatMap refused
  ⟨if errors = [] then 0 else 1, headline map ++ symbols ++ replies.flatMap said, errors⟩

variable {m : Type → Type} [Monad m] [Sorting] [Demangler]

/-- Opens the first of the positional arguments, and answers the others. -/
def answerAll (fs : FileSystem m) (settings : Settings) (file : Text) (inputs : List Text) : m Report := do
  settings.channels.eraseDups.forM fun channel => fs.create (logFile settings channel)
  match ← (fs.helper settings.symbolDirectories).loadSymbolsForBinary file with
  | .error failure => pure (.ofFailure file failure)
  | .ok map => pure (.ofSymbols settings map inputs)

/-- Runs the program. Each piece of the command line that may be given as a directory is looked up beforehand. -/
def run (fs : FileSystem m) (value? : Text → Option Text) (arguments : List Text) : m Report := do
  let directories ← (Arguments.ofList arguments).pieces.filterM fs.isDirectory
  let registry := Settings.registry directories.contains
  match registry.withHelp.parse value? arguments with
  | .error output => pure ⟨0, output, []⟩
  | .ok p =>
    match p.complaints, p.positionals with
    | [], file :: inputs => answerAll fs p.settings file inputs
    | _, _ => pure (.ofMisuse registry p)

end CodeAtlas.CommandLine
