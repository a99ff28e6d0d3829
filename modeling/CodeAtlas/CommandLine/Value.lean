import CodeAtlas.CommandLine.Fault
import CodeAtlas.Lookup.AddressText

namespace CodeAtlas.CommandLine

open Text

/-- Reads a value, or says that its format is wrong. -/
def value (read? : Text → Option α) (t : Text) : Except Fault α :=
  match read? t with
  | some a => .ok a
  | none => .error .invalidFormat

/-- Complains of a value that stands alone, such as that of an environment variable. -/
def standalone (read? : Text → Option α) (t : Text) : Except Complaint α :=
  (value read? t).mapError fun fault => ⟨fault, [t]⟩

/-- A number that stands alone. There is nothing to show where it is empty. -/
def standaloneNumber (read? : Text → Option α) (t : Text) : Except Complaint α :=
  if t = [] then .error ⟨.missingValue, []⟩ else standalone read? t

/-- The directories between the colons. -/
def searchPath (t : Text) : List Text := words (code ':') t

end CodeAtlas.CommandLine
