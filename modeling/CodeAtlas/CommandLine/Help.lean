import CodeAtlas.CommandLine.Registry
import CodeAtlas.Text.Numeral
import CodeAtlas.Text.Wrapping

namespace CodeAtlas.CommandLine

open Text

/-- The widths of the column of the names and of the column of the help messages. -/
structure Columns where
  left : Nat
  right : Nat
deriving Repr, DecidableEq

/-- What stands for the value of an option that is no flag. -/
def placeholder : Text := " <value> "

def spaces (n : Nat) : Text := List.replicate n (code ' ')

namespace Synopsis

/-- The names, as they stand in the left column. -/
def heading (s : Synopsis) : Text :=
  let short : Text := if s.short = [] then [] else s.short ++ ", "
  spaces 2 ++ short ++ s.long ++ if s.isFlag then [] else placeholder

/-- The names and beside them the help message. Names that are too long for their column are still apart from the
message. -/
def usage (columns : Columns) (s : Synopsis) : Text :=
  let heading := s.heading
  let gap := spaces (max (columns.left - heading.length) 1)
  let below (line : Text) : Text := spaces columns.left ++ line ++ "\n"
  match wrap columns.right s.info with
  | [] => heading ++ gap
  | line :: lines => heading ++ gap ++ line ++ "\n" ++ lines.flatMap below

/-- The names and the help message one below the other. -/
def describe (s : Synopsis) : Text :=
  let name (n : Text) : Text := if n = [] then "none" else n
  "short form: " ++ name s.short ++ "\nlong form: " ++ name s.long ++ "\nhelp message:\n" ++ s.info

/-- The room that the names are taken to need. -/
def width (s : Synopsis) : Nat :=
  s.short.length + s.long.length + (if s.isFlag then 0 else placeholder.length) + 2

end Synopsis

def helpSynopsis : Synopsis := ⟨"-h", "--help", "Show help", true⟩

namespace Registry

/-- Lines have eighty characters, and help messages at least twenty of them. -/
def columns (r : Registry σ) : Columns :=
  let synopses := r.options.map (·.synopsis) ++ r.environment.map (·.synopsis)
  let left := (synopses.map Synopsis.width).foldl max 0 + 1
  ⟨left, max (80 - left) 20⟩

/-- What there is, entry by entry, the help command included. -/
def generalHelp (r : Registry σ) : Text :=
  let entry (s : Synopsis) : Text := s.usage r.columns ++ "\n"
  let options := r.options.map (·.synopsis) ++ r.commands.map (·.synopsis) ++ [helpSynopsis]
  "Usage:\n\n  symmap " ++ r.usage ++ "\n\nOptions:\n\n" ++ options.flatMap entry ++
    "Environment variables:\n\n" ++ (r.environment.map (·.synopsis)).flatMap entry

/-- The options that have a name. An option without a short form is also found by the empty name. -/
def named (r : Registry σ) (name : Text) : List Synopsis :=
  (r.options.map (·.synopsis)).filter fun s => s.long = name ∨ s.short = name

/-- What some options are for, and which of the names are not known. -/
def helpOn (r : Registry σ) (names : List Text) : Text :=
  let entry (s : Synopsis) : Text := s.usage r.columns ++ "\n"
  let unknown := names.filter fun name => r.named name = []
  let unrecognized : Text := if unknown = [] then []
    else "Unrecognized input (" ++ decimal unknown.length ++ "):\n" ++ join "\n" unknown ++ "\n"
  "Usage for:\n" ++ (names.flatMap r.named).flatMap entry ++ unrecognized

/-- Adds the command that shows help, on the names that follow it if there are any. -/
def withHelp (r : Registry σ) : Registry σ :=
  let help (names : List Text) : Effect σ := .leave (if names = [] then r.generalHelp else r.helpOn names)
  { r with commands := r.commands ++ [⟨helpSynopsis, .all help⟩] }

end Registry

end CodeAtlas.CommandLine
