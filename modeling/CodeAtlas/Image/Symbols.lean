import CodeAtlas.Image.Identity
import CodeAtlas.Image.SymbolRecord
import CodeAtlas.Image.Unwind
import CodeAtlas.Lookup.Bisection
import CodeAtlas.Lookup.SymbolSource
import CodeAtlas.Mangled

namespace CodeAtlas

/-- A function of an image, as far as the image tells. -/
structure ImageFunction where
  start : UInt32
  stop : Option UInt32
  name : Text
deriving Repr, DecidableEq

namespace ImageFunction

/-- A function of unknown extent runs to the next one, but not past its section. -/
def inferredStop (sections : List Section) (start : UInt32) (next : Option UInt32) : Option UInt32 :=
  let sectionStop := (Section.find? sections start).map Section.stop
  match next with
  | some n => if sectionStop.all (n < ·) then some n else sectionStop
  | none => sectionStop

/-- Of the extents with one start the last one counts. -/
def knownStop? (extents : List Extent) (start : UInt32) : Option UInt32 :=
  (extents.reverse.find? (·.start == start)).map (·.stop)

/-- Gives each of the functions, which are in order, its end. -/
def close (sections : List Section) (extents : List Extent) : List NamedAddress → List ImageFunction
  | [] => []
  | f :: rest =>
    let stop := knownStop? extents f.rva <|> inferredStop sections f.rva (rest.head?.map (·.rva))
    ⟨f.rva, stop, f.name⟩ :: close sections extents rest

/-- One function for each address that has a symbol or an extent, in the order of the addresses. The first symbol of
an address names it. -/
def list (sections : List Section) (symbols : List NamedAddress) (extents : List Extent) : List ImageFunction :=
  let unnamed := extents.map fun e => ⟨e.start, placeholderName e.start⟩
  close sections extents (firstPerKey NamedAddress.rva (symbols ++ unnamed))

end ImageFunction

namespace Image

/-- Exported functions come before those of the symbol table, all under readable names. -/
def namedFunctions [Demangler] (image : Image) : List NamedAddress :=
  (image.exports ++ image.objectSymbols).map fun s => { s with name := Mangled.readable s.name }

/-- Only the exception tables of one machine are read, and one that cannot be is ignored. -/
def extents (image : Image) : List Extent :=
  match image.exceptionTable? with
  | none => []
  | some table =>
    if image.machine = amd64 then
      match UnwindRecord.extents image.dataFrom? table with
      | .ok extents => extents
      | .error _ => []
    else []

def functions [Demangler] (image : Image) : List ImageFunction :=
  ImageFunction.list image.sections image.namedFunctions image.extents

/-- The function that covers an address. -/
def answer? (image : Image) (functions : Array ImageFunction) (a : Address) : Option Answer := do
  let rva ← image.rva? a
  let f ← Bisection.lastAtMost? ImageFunction.start functions rva
  if f.stop.any (· ≤ rva) then none
  else some ⟨⟨f.start, f.stop.map (· - f.start), f.name⟩, none⟩

def symbolSource [Demangler] [Monad m] (image : Image) : SymbolSource m :=
  let functions := image.functions
  let table := functions.toArray
  ⟨image.debugId, functions.map fun f => (f.start, f.name), fun a => pure (image.answer? table a)⟩

end Image

end CodeAtlas
