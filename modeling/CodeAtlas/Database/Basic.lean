import CodeAtlas.Container.Stream
import CodeAtlas.Database.AddressMap
import CodeAtlas.Database.Info
import CodeAtlas.Database.ModuleList
import CodeAtlas.Database.Strings
import CodeAtlas.Database.Types
import CodeAtlas.Failure

namespace CodeAtlas

/-- A program database: the streams of a container, with the tables that other streams refer to. -/
structure Database where
  container : Container
  info : Database.Info
  modules : Option Database.ModuleList
  addresses : Database.AddressMap
  strings : Option Database.Strings
  types : Option Database.TypeTable
  ids : Option Database.TypeTable
deriving DecidableEq

namespace Database

/-- The streams with fixed numbers. -/
def infoStream : Nat := 1

def typeStream : Nat := 2

def moduleStream : Nat := 3

def idStream : Nat := 4

/-- The bytes of a stream. -/
def streamBytes (c : Container) (index : Nat) : Except Failure Bytes :=
  match c.stream index with
  | .ok content => .ok content.bytes
  | .error fault => .error (.container fault)

/-- The bytes of a stream that may be missing or unreadable. -/
def streamBytes? (c : Container) (index : Nat) : Option Bytes := (c.stream index).toOption.map (·.bytes)

def isEmptyStream (c : Container) (index : Nat) : Bool := (c.streamSize? index).getD 0 == 0

/-- A database without a list of modules is not wrong, only empty. -/
def readModules (c : Container) : Except Failure (Option ModuleList) :=
  if isEmptyStream c moduleStream then .ok none
  else do
    let data ← streamBytes c moduleStream
    match ModuleList.parse data with
    | .ok modules => pure (some modules)
    | .error fault => throw (.database fault)

/-- Where code was moved after linking, section numbers refer to the sections as they were before. -/
def readAddresses [Sorting] (c : Container) (streams : ImageStreams) : AddressMap :=
  let stream? (index : UInt16) : Option Bytes := if index = nilStream then none else streamBytes? c index.toNat
  match (stream? streams.omapFromSource).filter (0 < ·.size), stream? streams.linkedSections with
  | some moves, some sections => .make (Section.table sections) (Move.table moves)
  | _, _ =>
    match stream? streams.sections with
    | some sections => .make (Section.table sections) []
    | none => .empty

def readStrings? (c : Container) (info : Info) : Option Strings := do
  let index ← info.find? "/names"
  let data ← streamBytes? c index.toNat
  (Strings.parse data).toOption

def readTypes? (c : Container) (index : Nat) : Option TypeTable := do
  if isEmptyStream c index then none
  else
    let data ← streamBytes? c index
    (TypeTable.parse data).toOption

/-- The identity and the list of modules have to be readable; other tables that are not are left out. -/
def parse [Sorting] (data : Bytes) : Except Failure Database := do
  let c ← (Container.parse data).mapError .container
  let info ← (Info.parse (← streamBytes c infoStream)).mapError .database
  let modules ← readModules c
  let addresses := match modules with
    | some m => readAddresses c m.imageStreams
    | none => .empty
  pure ⟨c, info, modules, addresses, readStrings? c info, readTypes? c typeStream, readTypes? c idStream⟩

/-- The age is that of the list of modules, if there is one. -/
def debugId (db : Database) : DebugId :=
  .ofGuidAge db.info.guid ((db.modules.map (·.age)).getD db.info.age)

/-- A name that no stream has is no failure. -/
def namedStream (db : Database) (name : Text) : Except Failure (Option Bytes) :=
  match db.info.find? name with
  | none => .ok none
  | some index => some <$> streamBytes db.container index.toNat

def functionNames (db : Database) : FunctionNames := ⟨db.ids, db.types⟩

end Database

end CodeAtlas
