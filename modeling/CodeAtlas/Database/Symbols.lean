import CodeAtlas.Database.FunctionTable
import CodeAtlas.Mangled
import CodeAtlas.Permalink.Memo
import CodeAtlas.SourceServer.Permalinks

namespace CodeAtlas.Database

open Permalink

/-- Paths are mapped by the source index, if the database has one. -/
def askIndex (index : Option SourceIndex) (path : Text) : StateM PUnit (Option Permalink) :=
  pure (index.bind (·.permalink? path))

def mapPath (index : Option SourceIndex) (path : Text) : StateM Memo (Option Permalink) := fun memo =>
  (((Memo.resolve (askIndex index) path).run memo).run ⟨⟩).1

def frame (index : Option SourceIndex) (f : RecordedFrame) : StateM Memo Frame := do
  match f.file with
  | none => pure ⟨f.function, none, f.line⟩
  | some path => pure ⟨f.function, some ⟨path, ← mapPath index path⟩, f.line⟩

section Answers

variable [Demangler]

/-- The last frame names the function, and the frames are given only if they say more than that. -/
def answer (index : Option SourceIndex) (f : FunctionFrames) : StateM Memo (Option Answer) :=
  match f.frames.getLast? with
  | none => pure none
  | some outermost => do
    let name := (outermost.function.map Mangled.readable).getD "unknown"
    let symbol : Symbol := ⟨f.start, f.stop.map (· - f.start), name⟩
    if f.hasDebugInfo then
      let frames ← f.frames.mapM (frame index)
      pure (some ⟨symbol, some (.known frames)⟩)
    else pure (some ⟨symbol, none⟩)

/-- A database knows neither where its image is loaded nor how its file is laid out, so only relative addresses have
an answer. -/
def lookup (frames : FrameSource) (index : Option SourceIndex) : Address → StateM Memo (Option Answer)
  | .relative rva =>
    match frames.frames? rva with
    | some f => answer index f
    | none => pure none
  | _ => pure none

def symbolSource (id : DebugId) (frames : FrameSource) (index : Option SourceIndex) : SymbolSource (StateM Memo) :=
  ⟨id, frames.functions.map fun f => (f.start, f.name.getD (placeholderName f.start)), lookup frames index⟩

end Answers

/-- A database without a source index is fine, one whose source index cannot be read is not. -/
def sourceIndex (db : Database) : Except Failure (Option SourceIndex) := do
  match ← db.namedStream "srcsrv" with
  | none => pure none
  | some data => some <$> (SourceIndex.parse data.toList).mapError .sourceIndex

def openSymbols [Sorting] [Demangler] (data : Bytes) : Except Failure (SymbolSource (StateM Memo)) := do
  let db ← Database.parse data
  let index ← db.sourceIndex
  pure (symbolSource db.debugId (FunctionTable.build db).frameSource index)

end CodeAtlas.Database
