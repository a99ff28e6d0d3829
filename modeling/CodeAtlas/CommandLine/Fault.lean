import CodeAtlas.Text.Fields

namespace CodeAtlas.CommandLine

/-- What can be wrong with an argument. -/
inductive Fault
  | missingValue
  | invalidFormat
  | unrecognized
  | missingDirectory
deriving Repr, DecidableEq

def Fault.message : Fault → Text
  | missingValue => "Command line option is missing it's value."
  | invalidFormat => "Invalid format of argument."
  | unrecognized => "Argument is not a recognized option or command."
  | missingDirectory => "Directory does not exist"

/-- A fault and the arguments that show it. -/
structure Complaint where
  fault : Fault
  inputs : List Text
deriving Repr, DecidableEq

namespace Complaint

def message (c : Complaint) : Text := Text.join " " (("Parse error: " ++ c.fault.message) :: c.inputs)

end Complaint

end CodeAtlas.CommandLine
