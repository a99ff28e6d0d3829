import CodeAtlas.Database.Basic
import CodeAtlas.Database.Frames
import CodeAtlas.Database.ModuleRecords
import CodeAtlas.Lookup.Sorting
import CodeAtlas.Lookup.SymbolSource

namespace CodeAtlas.Database

/-- Code that comes from one line of a file, which is told by its number in a table of paths. -/
structure LineSpan where
  start : UInt32
  stop : UInt32
  line : UInt32
  file : Option Nat
deriving Repr, DecidableEq

/-- Each path once, in the order in which they were first met. -/
structure PathTable where
  paths : Array Text
deriving Repr, DecidableEq

namespace PathTable

def empty : PathTable := ⟨#[]⟩

def get? (t : PathTable) (index : Nat) : Option Text := t.paths[index]?

/-- The number of a path, which is added if it is new. -/
def intern (path : Text) : StateM PathTable Nat := fun t =>
  match t.paths.idxOf? path with
  | some i => (i, t)
  | none => (t.paths.size, ⟨t.paths.push path⟩)

end PathTable

/-- A function that was inlined and where its code lies. -/
structure InlinedFunction where
  depth : Nat
  name : Option Text
  spans : Array LineSpan
deriving Repr, DecidableEq

/-- A function of a program. One that only a public symbol names has no known end and no module; up to `limit` an
address is still put down to it. -/
structure ProgramFunction where
  start : UInt32
  stop : Option UInt32
  limit : UInt32
  name : Text
  module : Option Nat
  inlined : List InlinedFunction
deriving Repr, DecidableEq

/-- All functions of a program in the order of their addresses, the lines of each module and the paths of files. -/
structure FunctionTable where
  functions : Array ProgramFunction
  lines : Array (Array LineSpan)
  paths : PathTable
deriving Repr, DecidableEq

namespace FunctionTable

/-- The number of the path that a module's checksum at `file` belongs to. -/
def pathNumber (strings : Option Strings) (files : List (UInt32 × UInt32)) (file : UInt32) :
    StateM PathTable (Option Nat) :=
  match strings.bind fun s => (files.lookup file).bind s.get? with
  | some path => some <$> PathTable.intern path
  | none => pure none

def lineSpan (number : UInt32 → StateM PathTable (Option Nat)) (r : LineRecord) : StateM PathTable LineSpan := do
  pure ⟨r.start, r.stop, r.line, ← number r.file⟩

/-- The ranges of an inlined function, which are in the order of their offsets, moved to the start of the function
around it, modulo 2^32. A range of unknown length runs to the next one or to the end of that function. -/
def inlineSpans (p : Procedure) : List InlineRange → List LineRecord
  | [] => []
  | r :: rs =>
    let start := p.rva + r.offset
    let stop :=
      match r.length, rs.head? with
      | some length, _ => start + length
      | none, some next => p.rva + next.offset
      | none, none => p.rva + p.length
    if stop ≤ start then inlineSpans p rs else ⟨start, stop, r.line, r.file⟩ :: inlineSpans p rs

variable [Sorting]

def inlinedFunction (number : UInt32 → StateM PathTable (Option Nat)) (names : FunctionNames) (p : Procedure)
    (call : InlineCall) : StateM PathTable InlinedFunction := do
  let ranges := Sorting.sort InlineRange.offset call.ranges
  let spans ← (inlineSpans p ranges).mapM (lineSpan number)
  pure ⟨call.depth, names.nameOf? call.inlinee, spans.toArray⟩

/-- The calls that were inlined into each procedure, with the number of the procedure. -/
def inlinedFunctions (number : UInt32 → StateM PathTable (Option Nat)) (names : FunctionNames)
    (procedures : Array Procedure) : List InlineCall → StateM PathTable (List (Nat × InlinedFunction))
  | [] => pure []
  | call :: calls => do
    match procedures[call.procedure]? with
    | none => inlinedFunctions number names procedures calls
    | some p =>
      let f ← inlinedFunction number names p call
      let fs ← inlinedFunctions number names procedures calls
      pure ((call.procedure, f) :: fs)

/-- The lines and functions of one module. -/
def ofModule (strings : Option Strings) (names : FunctionNames) (module : Nat) (m : ModuleRecords) :
    StateM PathTable (Array LineSpan × List ProgramFunction) := do
  let number := pathNumber strings m.files
  let lines ← m.lines.mapM (lineSpan number)
  let inlined ← inlinedFunctions number names m.procedures.toArray m.calls
  let functions := m.procedures.zipIdx.map fun (p, i) =>
    let stop := p.rva + p.length
    let own := (inlined.filter (·.1 == i)).map (·.2)
    ⟨p.rva, some stop, stop, p.name, some module, own⟩
  pure (lines.toArray, functions)

/-- The records of the modules that can be read, in order. -/
def moduleRecords (db : Database) (modules : ModuleList) : List ModuleRecords :=
  modules.modules.filterMap fun e =>
    if e.stream = nilStream then none
    else (streamBytes? db.container e.stream.toNat).bind fun data => (ModuleRecords.parse db.addresses e data).toOption

def ofModules (strings : Option Strings) (names : FunctionNames) :
    Nat → List ModuleRecords → StateM PathTable (List (Array LineSpan) × List ProgramFunction)
  | _, [] => pure ([], [])
  | module, m :: ms => do
    let (lines, functions) ← ofModule strings names module m
    let (moreLines, moreFunctions) ← ofModules strings names (module + 1) ms
    pure (lines :: moreLines, functions ++ moreFunctions)

/-- The functions that public symbols name. -/
def publicFunctions (db : Database) (modules : ModuleList) : List ProgramFunction :=
  if modules.symbolRecords = nilStream then []
  else
    match streamBytes? db.container modules.symbolRecords.toNat with
    | none => []
    | some data =>
      (PublicFunction.list db.addresses data).map fun (rva, name) => ⟨rva, none, rva, name, none, []⟩

/-- Where a function without a known end stops at the latest: at the next one and at the end of its section. The last
function outside all sections has one byte. -/
def lookupLimit (sections : List Section) (start : UInt32) (next : Option UInt32) : UInt32 :=
  let top : Nat := 0xFFFFFFFF
  let limit : Nat :=
    match Section.find? sections start, next with
    | some s, some n => min n.toNat (s.address.toNat + s.memorySize.toNat)
    | some s, none => min top (s.address.toNat + s.memorySize.toNat)
    | none, some n => n.toNat
    | none, none => start.toNat + 1
  UInt32.ofNat (min limit top)

/-- Sets the limit of the functions without a known end. -/
def setLimits (sections : List Section) : List ProgramFunction → List ProgramFunction
  | [] => []
  | f :: fs =>
    let limit := if f.stop.isSome then f.limit else lookupLimit sections f.start (fs.head?.map (·.start))
    { f with limit := limit } :: setLimits sections fs

/-- Procedures come before public symbols, and of several with one address the first counts. -/
def build (db : Database) : FunctionTable :=
  match db.modules with
  | none => ⟨#[], #[], .empty⟩
  | some modules =>
    let records := moduleRecords db modules
    let ((lines, procedures), paths) := (ofModules db.strings db.functionNames 0 records).run .empty
    let functions := firstPerKey ProgramFunction.start (procedures ++ publicFunctions db modules)
    ⟨(setLimits db.addresses.sections functions).toArray, lines.toArray, paths⟩

/-- The span that holds an address, if the last one that starts at or before it does. -/
def covering? (spans : Array LineSpan) (rva : UInt32) : Option LineSpan :=
  (Bisection.lastAtMost? LineSpan.start spans rva).filter (rva < ·.stop)

def function? (t : FunctionTable) (rva : UInt32) : Option ProgramFunction :=
  (Bisection.lastAtMost? ProgramFunction.start t.functions rva).filter fun f => rva < f.stop.getD f.limit

def path? (t : FunctionTable) (s : LineSpan) : Option Text := s.file.bind t.paths.get?

/-- The inlined functions that cover an address, deepest first. -/
def inlinedFrames (t : FunctionTable) (f : ProgramFunction) (rva : UInt32) : List RecordedFrame :=
  let covering := f.inlined.filterMap fun i => (covering? i.spans rva).map fun s => (i, s)
  (covering.mergeSort fun a b => b.1.depth ≤ a.1.depth).map fun (i, s) => ⟨i.name, t.path? s, some s.line⟩

/-- The frame of a function itself. A function whose name is empty has none. -/
def ownFrame (t : FunctionTable) (f : ProgramFunction) (rva : UInt32) : RecordedFrame :=
  let span? := (f.module.bind (t.lines[·]?)).bind (covering? · rva)
  ⟨if f.name = [] then none else some f.name, span?.bind t.path?, span?.map (·.line)⟩

def frames? (t : FunctionTable) (rva : UInt32) : Option FunctionFrames :=
  (t.function? rva).map fun f => ⟨f.start, f.stop, t.inlinedFrames f rva ++ [t.ownFrame f rva]⟩

def frameSource (t : FunctionTable) : FrameSource :=
  ⟨t.functions.toList.map fun f => ⟨f.start, f.stop, if f.name = [] then none else some f.name⟩, t.frames?⟩

end FunctionTable

end CodeAtlas.Database
