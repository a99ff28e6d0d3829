import CodeAtlas.Container.Fault
import CodeAtlas.Database.Fault
import CodeAtlas.DebugId
import CodeAtlas.Image.Fault
import CodeAtlas.SourceServer.Fault

namespace CodeAtlas

/-- The kinds of failure that callers can tell apart. -/
inductive FailureKind
  | notAnImage
  | noCompanion
  | companionNotUtf8
  | companionRefused
  | notLoaded
  | unmatchedId
  | database
  | invalidInput
  | unknownFile
deriving Repr, DecidableEq

namespace FailureKind

/-- In the order of their numbers, from zero on. -/
def all : List FailureKind :=
  [notAnImage, noCompanion, companionNotUtf8, companionRefused, notLoaded, unmatchedId, database, invalidInput,
    unknownFile]

def name : FailureKind → Text
  | notAnImage => "ObjectParse"
  | noCompanion => "NoDebugInfoInPeBinary"
  | companionNotUtf8 => "PdbPathNotUtf8"
  | companionRefused => "FileLocationRefusedPdbLocation"
  | notLoaded => "HelperErrorDuringOpenFile"
  | unmatchedId => "UnmatchedDebugId"
  | database => "Pdb"
  | invalidInput => "InvalidInput"
  | unknownFile => "UnrecognizedFileKind"

def description : FailureKind → Text
  | notAnImage => "The file could not be parsed as its expected object format"
  | noCompanion => "The PE binary does not reference a PDB file"
  | companionNotUtf8 => "The PDB path recorded in the PE binary is not valid UTF-8"
  | companionRefused => "The file location helper did not produce a location for the PDB path"
  | notLoaded => "The file location helper failed to load the file"
  | unmatchedId => "The debug file does not belong to the binary"
  | database => "Error while reading the PDB"
  | invalidInput => "Invalid input"
  | unknownFile => "The file is neither a PE image nor a PDB"

/-- The kind, what it means and the detail, which is left out with its colon if it is empty. -/
def report (kind : FailureKind) (detail : Text) : Text :=
  let head := kind.name ++ ": " ++ kind.description
  if detail = [] then head else head ++ ": " ++ detail

end FailureKind

/-- Why a file or an address in it could not be made sense of. -/
inductive Failure
  | image (fault : Image.Fault)
  | noCompanion (location : Text)
  | companionNotUtf8 (location : Text)
  | companionRefused (path : Text)
  | cannotOpen (path reason : Text)
  | cannotMap (path : Text)
  | notLoaded (location : Text) (cause : Failure)
  | unmatchedId (expected actual : DebugId)
  | container (fault : Container.Fault)
  | database (fault : Database.Fault)
  | sourceIndex (fault : SourceServer.Fault)
  | unevenExceptionTable (size : Nat)
  | invalidInput (detail : Text)
  | unknownFile (size : Nat)
deriving DecidableEq

namespace Failure

open Text

def kind : Failure → FailureKind
  | image _ => .notAnImage
  | noCompanion _ => .noCompanion
  | companionNotUtf8 _ => .companionNotUtf8
  | companionRefused _ => .companionRefused
  | cannotOpen _ _ => .notLoaded
  | cannotMap _ => .notLoaded
  | notLoaded _ _ => .notLoaded
  | unmatchedId _ _ => .unmatchedId
  | container _ => .database
  | database _ => .database
  | sourceIndex _ => .database
  | unevenExceptionTable _ => .invalidInput
  | invalidInput _ => .invalidInput
  | unknownFile _ => .unknownFile

def detail : Failure → Text
  | image fault => fault.message
  | noCompanion location => location
  | companionNotUtf8 location => location
  | companionRefused path => path
  | cannotOpen path reason => "could not open " ++ path ++ ": " ++ reason
  | cannotMap path => "could not map " ++ path
  | notLoaded location cause => location ++ ": " ++ cause.kind.report cause.detail
  | unmatchedId expected actual => "expected " ++ expected.toText ++ ", got " ++ actual.toText
  | container fault => fault.message
  | database fault => fault.message
  | sourceIndex fault => fault.message
  | unevenExceptionTable size =>
    "exception table of " ++ decimal size ++ " bytes is not a whole number of records"
  | invalidInput detail => detail
  | unknownFile size => decimal size ++ " bytes"

def message (f : Failure) : Text := f.kind.report f.detail

end Failure

end CodeAtlas
