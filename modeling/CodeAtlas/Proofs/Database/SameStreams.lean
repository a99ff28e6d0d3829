import CodeAtlas.Database.Symbols
import CodeAtlas.Proofs.Container.StoredStream

namespace CodeAtlas

/-- Who asks for the sizes and the bytes of streams only cannot tell the containers apart. -/
structure Container.SameStreams (c d : Container) : Prop where
  size_eq : ∀ i, c.streamSize? i = d.streamSize? i
  bytes_eq : ∀ i, (c.stream i).map (·.bytes) = (d.stream i).map (·.bytes)

theorem Container.HasStreams.map_bytes_stream {c : Container} {streams : List (Option Bytes)} (h : c.HasStreams streams)
    (i : Nat) : (c.stream i).map (·.bytes) = match streams[i]?.join with
      | some content => .ok content
      | none => .error (.noStream i) := by
  cases hstream : streams[i]?.join with
  | none =>
    rw [h.stream_error i hstream]
    rfl
  | some content =>
    obtain ⟨s, hs, rfl⟩ := h.stream_ok i content (Option.join_eq_some_iff.mp hstream)
    rw [hs]
    rfl

theorem Container.HasStreams.sameStreams {c d : Container} {streams : List (Option Bytes)} (hc : c.HasStreams streams)
    (hd : d.HasStreams streams) : c.SameStreams d where
  size_eq i := by rw [hc.size_eq, hd.size_eq]
  bytes_eq i := by rw [hc.map_bytes_stream, hd.map_bytes_stream]

namespace Database

theorem streamBytes_eq (c : Container) (i : Nat) :
    streamBytes c i = ((c.stream i).map (·.bytes)).mapError .container := by
  rw [streamBytes]
  cases c.stream i with
  | ok s => rfl
  | error fault => rfl

theorem streamBytes?_eq (c : Container) (i : Nat) : streamBytes? c i = ((c.stream i).map (·.bytes)).toOption := by
  rw [streamBytes?]
  cases c.stream i with
  | ok s => rfl
  | error fault => rfl

section Containers

variable {c d : Container} (h : c.SameStreams d)

include h

theorem streamBytes_congr (i : Nat) : streamBytes c i = streamBytes d i := by
  rw [streamBytes_eq, streamBytes_eq, h.bytes_eq]

theorem streamBytes?_congr (i : Nat) : streamBytes? c i = streamBytes? d i := by
  rw [streamBytes?_eq, streamBytes?_eq, h.bytes_eq]

theorem isEmptyStream_congr (i : Nat) : isEmptyStream c i = isEmptyStream d i := by
  rw [isEmptyStream, isEmptyStream, h.size_eq]

theorem readModules_congr : readModules c = readModules d := by
  rw [readModules, readModules, isEmptyStream_congr h, streamBytes_congr h]

theorem readAddresses_congr [Sorting] (streams : ImageStreams) : readAddresses c streams = readAddresses d streams := by
  unfold readAddresses
  simp only [streamBytes?_congr h]

theorem readStrings?_congr (info : Info) : readStrings? c info = readStrings? d info := by
  unfold readStrings?
  simp only [streamBytes?_congr h]

theorem readTypes?_congr (i : Nat) : readTypes? c i = readTypes? d i := by
  rw [readTypes?, readTypes?, isEmptyStream_congr h, streamBytes?_congr h]

end Containers

structure Agrees (x y : Database) : Prop where
  sameStreams : x.container.SameStreams y.container
  info_eq : x.info = y.info
  modules_eq : x.modules = y.modules
  addresses_eq : x.addresses = y.addresses
  strings_eq : x.strings = y.strings
  types_eq : x.types = y.types
  ids_eq : x.ids = y.ids

def ofContainer [Sorting] (c : Container) : Except Failure Database := do
  let info ← (Info.parse (← streamBytes c infoStream)).mapError .database
  let modules ← readModules c
  let addresses := match modules with
    | some m => readAddresses c m.imageStreams
    | none => .empty
  pure ⟨c, info, modules, addresses, readStrings? c info, readTypes? c typeStream, readTypes? c idStream⟩

/-- What is known of addresses once the database is read. -/
def openDatabase [Sorting] [Demangler] (db : Database) : Except Failure (SymbolSource (StateM Permalink.Memo)) := do
  let index ← db.sourceIndex
  pure (symbolSource db.debugId (FunctionTable.build db).frameSource index)

theorem openSymbols_of_parse [Sorting] [Demangler] {data : Bytes} {c : Container} (h : Container.parse data = .ok c) :
    openSymbols data = ofContainer c >>= openDatabase := by
  rw [openSymbols, Database.parse, h]
  rfl

theorem ofContainer_agrees [Sorting] {c d : Container} (h : c.SameStreams d) :
    (∃ failure, ofContainer c = .error failure ∧ ofContainer d = .error failure) ∨
      ∃ x y, ofContainer c = .ok x ∧ ofContainer d = .ok y ∧ x.Agrees y := by
  simp only [ofContainer, streamBytes_congr h, readModules_congr h, readAddresses_congr h, readStrings?_congr h,
    readTypes?_congr h, bind, Except.bind]
  cases streamBytes d infoStream with
  | error failure => exact .inl ⟨failure, rfl, rfl⟩
  | ok data =>
    dsimp only
    cases (Info.parse data).mapError Failure.database with
    | error failure => exact .inl ⟨failure, rfl, rfl⟩
    | ok info =>
      cases readModules d with
      | error failure => exact .inl ⟨failure, rfl, rfl⟩
      | ok modules => exact .inr ⟨_, _, rfl, rfl, h, rfl, rfl, rfl, rfl, rfl, rfl⟩

section Databases

variable {x y : Database} (h : x.Agrees y)

include h

theorem debugId_congr : x.debugId = y.debugId := by
  rw [debugId, debugId, h.info_eq, h.modules_eq]

theorem sourceIndex_congr : x.sourceIndex = y.sourceIndex := by
  have hstream : ∀ name, x.namedStream name = y.namedStream name := by
    intro name
    unfold namedStream
    simp only [h.info_eq, streamBytes_congr h.sameStreams]
  rw [sourceIndex, sourceIndex, hstream]

theorem moduleRecords_congr [Sorting] (modules : ModuleList) :
    FunctionTable.moduleRecords x modules = FunctionTable.moduleRecords y modules := by
  unfold FunctionTable.moduleRecords
  simp only [h.addresses_eq, streamBytes?_congr h.sameStreams]

theorem publicFunctions_congr (modules : ModuleList) :
    FunctionTable.publicFunctions x modules = FunctionTable.publicFunctions y modules := by
  unfold FunctionTable.publicFunctions
  simp only [h.addresses_eq, streamBytes?_congr h.sameStreams]

theorem build_congr [Sorting] : FunctionTable.build x = FunctionTable.build y := by
  have hnames : x.functionNames = y.functionNames := by
    rw [functionNames, functionNames, h.ids_eq, h.types_eq]
  unfold FunctionTable.build
  simp only [h.modules_eq, h.strings_eq, h.addresses_eq, hnames, moduleRecords_congr h, publicFunctions_congr h]

theorem openDatabase_congr [Sorting] [Demangler] : openDatabase x = openDatabase y := by
  rw [openDatabase, openDatabase, sourceIndex_congr h, debugId_congr h, build_congr h]

end Databases

end Database

end CodeAtlas
