import CodeAtlas.SourceServer.Fault
import CodeAtlas.Text.Fields
import CodeAtlas.Text.Numeral

namespace CodeAtlas

/-- A table of source files and of the variables that say how to get them. Of variables with one name the latest
comes first; the fields of a file are in the order of its line, the path before the others. -/
structure SourceIndex where
  ini : List (Text × Text)
  definitions : List (Text × Text)
  files : List (List Text)
deriving Repr, DecidableEq

namespace SourceIndex

open Text SourceServer

/-- The sections of a source index. -/
inductive Heading
  | ini
  | definitions
  | files
  | close
deriving Repr, DecidableEq

/-- The name of a section stands before the first dash; case and blanks around it do not matter. -/
def Heading.ofName? (name : Text) : Option Heading :=
  let name := lower (trim (before (code '-') name))
  if name = "ini" then some ini
  else if name = "variables" then some definitions
  else if name = "source files" then some files
  else if name = "end" then some close
  else none

/-- What a line is: a heading, perhaps of no known section, or content. -/
inductive Line
  | heading (heading : Option Heading)
  | content
deriving Repr, DecidableEq

def Line.ofText (line : Text) : Line :=
  match prefixed? "SRCSRV:" line with
  | some name => .heading (Heading.ofName? name)
  | none => .content

/-- Lines end at line feeds, before which a carriage return may stand; empty lines do not count. A NUL ends the
text. -/
def lines (data : Text) : List Text :=
  let dropReturn (line : Text) : Text := if line.getLast? = some 13 then line.dropLast else line
  ((words 10 (before 0 data)).map dropReturn).filter (· ≠ [])

def empty : SourceIndex := ⟨[], [], []⟩

/-- Names do not depend on case. -/
def addVariable (line : Text) (known : List (Text × Text)) : List (Text × Text) :=
  match cut? "=" line with
  | some (name, value) => (upper name, value) :: known
  | none => known

def addLine (heading : Heading) (line : Text) (index : SourceIndex) : SourceIndex :=
  match heading with
  | .ini => { index with ini := addVariable line index.ini }
  | .definitions => { index with definitions := addVariable line index.definitions }
  | .files => { index with files := index.files ++ [fields (code '*') line] }
  | .close => index

/-- The lines below a heading, up to the heading that closes the index. -/
def addLines : Heading → List Text → SourceIndex → Except Fault SourceIndex
  | _, [], index => .ok index
  | heading, line :: rest, index =>
    match Line.ofText line with
    | .content => addLines heading rest (addLine heading line index)
    | .heading none => .error (.unknownHeading line)
    | .heading (some .close) => .ok index
    | .heading (some next) => addLines next rest index

/-- An index starts with its ini section. -/
def parse (data : Text) : Except Fault SourceIndex :=
  match lines data with
  | [] => .error .noIni
  | line :: rest =>
    match Line.ofText line with
    | .content => .error .noHeading
    | .heading none => .error (.unknownHeading line)
    | .heading (some .ini) => addLines .ini rest empty
    | .heading (some _) => .error .notIniFirst

/-- The text of a variable as it is written. -/
def textOf? (index : SourceIndex) (name : Text) : Option Text := index.definitions.lookup (upper name)

def iniTextOf? (index : SourceIndex) (name : Text) : Option Text := index.ini.lookup (upper name)

/-- A version that is no number counts as zero. -/
def version (index : SourceIndex) : Nat :=
  ((index.iniTextOf? "VERSION").bind fun v => toNatBelow? UInt32.size 10 (trim v)).getD 0

/-- The line of a file. Of lines with one path the first counts; case does not matter. -/
def file? (index : SourceIndex) (path : Text) : Option (List Text) :=
  index.files.find? fun fs => equalsIgnoreCase (fs.headD []) path

end SourceIndex

end CodeAtlas
