import CodeAtlas.Text.Fields

namespace CodeAtlas

/-- A kind of messages that can be kept in a file of its own. -/
inductive LogChannel
  | core
  | images
  | databases
  | sourceServer
  | warnings
deriving Repr, DecidableEq

namespace LogChannel

open Text

def all : List LogChannel := [core, images, databases, sourceServer, warnings]

def name : LogChannel → Text
  | core => "core"
  | images => "pe"
  | databases => "pdb"
  | sourceServer => "srcsrv"
  | warnings => "warning"

def purpose : LogChannel → Text
  | core => "Messages that don't have a intuitive log channel can be logged here."
  | images => "Log messages involving PE image parsing and unwind table decoding"
  | databases => "Log messages involving MSF/PDB parsing and address lookups"
  | sourceServer => "Log messages involving the srcsrv stream and source path mapping"
  | warnings => "Unexpected behaviors should be logged to this channel"

def helpLine (c : LogChannel) : Text := "\n - " ++ c.name ++ ": " ++ c.purpose

def fileName (c : LogChannel) : Text := c.name ++ ".log"

/-- Names of channels between commas, where one is enough to mean all of them. Other names mean nothing. -/
def listOf (t : Text) : List LogChannel :=
  let names := words (code ',') t
  if names.contains "all" then all else names.filterMap fun name => all.find? (·.name = name)

end LogChannel

end CodeAtlas
