import CodeAtlas.Database.InlineRange
import CodeAtlas.Database.LineTable
import CodeAtlas.Database.ModuleList
import CodeAtlas.Database.Record
import CodeAtlas.Lookup.Sorting

namespace CodeAtlas.Database

/-- A function that a module describes. -/
structure Procedure where
  rva : UInt32
  length : UInt32
  name : Text
deriving Repr, DecidableEq

/-- A function that was inlined into a procedure, or into another inlined function, which makes it deeper. -/
structure InlineCall where
  procedure : Nat
  depth : Nat
  inlinee : UInt32
  ranges : List InlineRange
deriving Repr, DecidableEq

/-- What a module says about its code. -/
structure ModuleRecords where
  procedures : List Procedure
  calls : List InlineCall
  lines : List LineRecord
  files : List (UInt32 × UInt32)
  definitions : List (UInt32 × Definition)
deriving Repr, DecidableEq

/-- What a symbol record does to the nesting of scopes. -/
inductive SymbolKind
  | procedure
  | inlineCall
  | counted
  | other
  | close
  | plain
deriving Repr, DecidableEq

namespace SymbolKind

/-- Of the two records of inlined functions one also counts the calls. -/
def ofNumber (kind : UInt16) : SymbolKind :=
  if kind ∈ [0x1110, 0x110f, 0x1147, 0x1146, 0x1155, 0x1156] then procedure
  else if kind = 0x114d then inlineCall
  else if kind = 0x115d then counted
  else if kind ∈ [0x1102, 0x1103, 0x1104, 0x1132, 0x112a, 0x112b] then other
  else if kind ∈ [0x0006, 0x114f, 0x114e] then close
  else plain

end SymbolKind

/-- An open scope: whether it is an inlined function, and the procedure that it belongs to, if that one counts. -/
structure Scope where
  isInline : Bool
  procedure : Option Nat
deriving Repr, DecidableEq

namespace ModuleRecords

/-- The open scopes, innermost first, and what has been found so far, latest first. -/
structure State where
  scopes : List Scope
  procedures : List Procedure
  calls : List InlineCall
deriving Repr, DecidableEq

namespace State

def owner (s : State) : Option Nat := s.scopes.head?.bind (·.procedure)

def push (s : State) (scope : Scope) : State := { s with scopes := scope :: s.scopes }

end State

/-- A procedure that is cut off, or whose section number has no address, does not count. -/
def readProcedure? (m : AddressMap) (data : Bytes) : Option Procedure := do
  let length ← data.u32At? 12
  let offset ← data.u32At? 28
  let number ← data.u16At? 32
  let name ← data.cstringAt? 35
  let rva ← m.rva? number offset
  some ⟨rva, length, name⟩

/-- The inlined function and the steps that say where its code is. -/
def readCall? (stepsAt : Nat) (data : Bytes) : Option (UInt32 × List InlineStep) := do
  let inlinee ← data.u32At? 8
  if data.size < stepsAt then none else some (inlinee, InlineStep.list (data.toList.drop stepsAt))

def openProcedure (m : AddressMap) (data : Bytes) (s : State) : State :=
  match readProcedure? m data with
  | some p => { s with procedures := p :: s.procedures }.push ⟨false, some s.procedures.length⟩
  | none => s.push ⟨false, none⟩

/-- The depth counts the inlined functions that are open, this one included. -/
def openCall (definitions : List (UInt32 × Definition)) (stepsAt : Nat) (data : Bytes) (s : State) : State :=
  let s' := s.push ⟨true, s.owner⟩
  match s.owner, readCall? stepsAt data with
  | some procedure, some (inlinee, steps) =>
    let depth := s'.scopes.countP (·.isInline)
    let d := (definitions.lookup inlinee).getD ⟨0, 0⟩
    { s' with calls := ⟨procedure, depth, inlinee, InlineRange.list steps d.line d.file⟩ :: s'.calls }
  | _, _ => s'

def step (m : AddressMap) (definitions : List (UInt32 × Definition)) (s : State) (r : Record) : State :=
  match SymbolKind.ofNumber r.kind with
  | .procedure => openProcedure m r.data s
  | .inlineCall => openCall definitions 12 r.data s
  | .counted => openCall definitions 16 r.data s
  | .other => s.push ⟨false, s.owner⟩
  | .close => { s with scopes := s.scopes.tail }
  | .plain => s

/-- The symbols are read only if they start with the mark of the format that is known. -/
def symbols (m : AddressMap) (definitions : List (UInt32 × Definition)) (data : Bytes) : State :=
  if data.u32At? 0 = some 4 then (Record.list data 4).1.foldl (step m definitions) ⟨[], [], []⟩ else ⟨[], [], []⟩

/-- Subsections of other kinds, and those that are marked to be ignored, are passed over. -/
def bodies (kind : UInt32) (subsections : List Subsection) : List Bytes :=
  (subsections.filter (·.kind == kind)).map (·.body)

/-- The stream of a module holds its symbols, lines in an old form and lines in the form that is read. -/
def parse [Sorting] (m : AddressMap) (entry : ModuleEntry) (data : Bytes) : Except Fault ModuleRecords :=
  let linesAt := entry.symbolSize.toNat + entry.c11Size.toNat
  match data.slice? linesAt entry.c13Size.toNat with
  | none => .error (.shortModule entry.name)
  | some c13 =>
    let subsections := Subsection.list c13 0
    let lines := (bodies Subsection.lines subsections).flatMap (lineRecords m)
    let files := (bodies Subsection.checksums subsections).flatMap (checksumEntries · 0)
    let definitions := (bodies Subsection.definitions subsections).flatMap definitionTable
    let s := symbols m definitions (data.extract 0 entry.symbolSize.toNat)
    .ok ⟨s.procedures.reverse, s.calls.reverse, Sorting.sort LineRecord.start lines, files, definitions⟩

end ModuleRecords

namespace PublicFunction

/-- A public symbol says whether it is a function. -/
def read? (m : AddressMap) (data : Bytes) : Option (UInt32 × Text) := do
  let flags ← data.u32At? 0
  let offset ← data.u32At? 4
  let number ← data.u16At? 8
  let name ← data.cstringAt? 10
  if flags &&& 2 = 0 then none
  else
    let rva ← m.rva? number offset
    some (rva, name)

/-- The functions among the public symbols. -/
def list (m : AddressMap) (data : Bytes) : List (UInt32 × Text) :=
  ((Record.list data 0).1.filter (·.kind == 0x110e)).filterMap fun r => read? m r.data

end PublicFunction

end CodeAtlas.Database
