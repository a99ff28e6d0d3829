import CodeAtlas.Lookup.Sorting.Partition
import CodeAtlas.Proofs.Container.Writing
import CodeAtlas.Proofs.Database.SameStreams
import CodeAtlas.Proofs.Lookup.Ordered

namespace CodeAtlas

/-- The file is a container of these streams, of any block size and with its pieces in any blocks. -/
def Container.Stores (streams : List (Option Bytes)) (data : Bytes) : Prop :=
  ∃ p : Placement, p.Sized streams ∧ p.StoredIn streams data

theorem Container.Stores.parse {streams : List (Option Bytes)} {data : Bytes} (h : Stores streams data) :
    ∃ c, Container.parse data = .ok c ∧ c.HasStreams streams := by
  obtain ⟨p, hs, hstored⟩ := h
  exact ⟨_, p.parse_of_storedIn hs hstored, p.hasStreams_of_storedIn hs hstored⟩

namespace Database

open Container Permalink

/-- Opening sees a file only through the streams that are stored in it. -/
theorem openSymbols_congr [Sorting] [Demangler] {streams : List (Option Bytes)} {data other : Bytes}
    (h : Stores streams data) (hother : Stores streams other) : openSymbols data = openSymbols other := by
  obtain ⟨c, hc, hstreams⟩ := h.parse
  obtain ⟨d, hd, hstreams'⟩ := hother.parse
  have hsame := hstreams.sameStreams hstreams'
  rw [openSymbols_of_parse hc, openSymbols_of_parse hd]
  rcases ofContainer_agrees hsame with ⟨failure, hx, hy⟩ | ⟨x, y, hx, hy, hagree⟩
  · rw [hx, hy]
  · rw [hx, hy]
    exact openDatabase_congr hagree

/-- Both fail in the same way, or both have the same identity and symbols and, whatever is remembered of earlier
lookups, give the same answer to every address. -/
inductive SameOutcome : Except Failure (SymbolSource (StateM Memo)) → Except Failure (SymbolSource (StateM Memo)) → Prop
  | failed (failure : Failure) : SameOutcome (.error failure) (.error failure)
  | opened {x y : SymbolSource (StateM Memo)} (debugId : x.debugId = y.debugId)
      (count : x.symbols.length = y.symbols.length) (symbols : x.symbols = y.symbols)
      (lookup : ∀ address memo, (x.lookup address).run memo = (y.lookup address).run memo) :
      SameOutcome (.ok x) (.ok y)

theorem SameOutcome.refl (outcome : Except Failure (SymbolSource (StateM Memo))) : SameOutcome outcome outcome := by
  cases outcome with
  | error failure => exact .failed failure
  | ok x => exact .opened rfl rfl rfl fun address memo => rfl

/-- The block size and where the streams, the directory and the block map are stored do not show. -/
theorem sameOutcome_of_stores [Sorting] [Demangler] {streams : List (Option Bytes)} {data other : Bytes}
    (h : Stores streams data) (hother : Stores streams other) : SameOutcome (openSymbols data) (openSymbols other) := by
  rw [openSymbols_congr h hother]
  exact SameOutcome.refl _

theorem streamBytes_of_hasStreams {c : Container} {streams : List (Option Bytes)} (h : c.HasStreams streams) {i : Nat}
    {content : Bytes} (hstream : streams[i]? = some (some content)) : streamBytes c i = .ok content := by
  rw [streamBytes_eq, h.map_bytes_stream, hstream]
  rfl

theorem streamBytes?_of_hasStreams {c : Container} {streams : List (Option Bytes)} (h : c.HasStreams streams) {i : Nat}
    {content : Bytes} (hstream : streams[i]? = some (some content)) : streamBytes? c i = some content := by
  rw [streamBytes?_eq, h.map_bytes_stream, hstream]
  rfl

/-- What is read of a container that holds an identity and a module list, but no types. -/
theorem ofContainer_of_hasStreams [Sorting] {streams : List (Option Bytes)} {c : Container} (h : c.HasStreams streams)
    {infoData listData : Bytes} {info : Info} {modules : ModuleList}
    (hinfoData : streams[infoStream]? = some (some infoData))
    (hlistData : streams[moduleStream]? = some (some listData)) (hsize : listData.size ≠ 0)
    (hinfo : Info.parse infoData = .ok info) (hlist : ModuleList.parse listData = .ok modules)
    (htypes : streams[typeStream]?.join = none) (hids : streams[idStream]?.join = none) :
    ofContainer c =
      .ok ⟨c, info, some modules, readAddresses c modules.imageStreams, readStrings? c info, none, none⟩ := by
  have hnamed : (Info.parse infoData).mapError Failure.database = .ok info := by
    rw [hinfo]
    rfl
  have hmodules : readModules c = .ok (some modules) := by
    have hempty : isEmptyStream c moduleStream = false := by
      rw [isEmptyStream, h.size_eq, hlistData]
      exact beq_false_of_ne hsize
    rw [readModules, hempty, streamBytes_of_hasStreams h hlistData]
    simp only [bind, Except.bind, hlist]
    rfl
  have hnone : ∀ i, streams[i]?.join = none → readTypes? c i = none := by
    intro i hi
    rw [readTypes?, isEmptyStream, h.size_eq, hi]
    rfl
  rw [ofContainer, streamBytes_of_hasStreams h hinfoData]
  simp only [bind, Except.bind, hnamed, hmodules, hnone typeStream htypes, hnone idStream hids]
  rfl

theorem AddressMap.make_nil [Sorting] (sections : List Section) : make sections [] = ⟨sections, #[]⟩ := by
  rw [make, Sorting.sort_nil]

/-- Where no code was moved, the sections are those of the image. -/
theorem readAddresses_of_hasStreams [Sorting] {streams : List (Option Bytes)} {c : Container} (h : c.HasStreams streams)
    {images : ImageStreams} (hmoves : images.omapFromSource = nilStream) (hsome : images.sections ≠ nilStream)
    {data : Bytes} (hdata : streams[images.sections.toNat]? = some (some data)) :
    readAddresses c images = ⟨Section.table data, #[]⟩ := by
  have hstream := streamBytes?_of_hasStreams h hdata
  simp only [readAddresses, if_pos hmoves, if_neg hsome, hstream, Option.filter_none]
  exact AddressMap.make_nil _

def smallInfoStream : Bytes := #[0x94, 0x2e, 0x31, 1, 1, 0, 0, 0, 1, 0, 0, 0] ++ .replicate 16 7 ++ .replicate 20 0

def smallModuleStream : Bytes :=
  .replicate 4 0xff ++ #[1, 0, 0, 0, 1, 0, 0, 0, 0xff, 0xff, 0, 0, 0xff, 0xff, 0, 0, 5, 0, 0, 0] ++ .replicate 24 0 ++
    #[22, 0, 0, 0] ++ .replicate 12 0 ++ .replicate 10 0xff ++ #[6, 0] ++ .replicate 10 0xff

def smallSymbolStream : Bytes := #[14, 0, 0x0e, 0x11, 2, 0, 0, 0, 0x10, 0, 0, 0, 1, 0, 0x66, 0]

def smallSectionStream : Bytes := #[0x2e, 0x74, 0x65, 0x78, 0x74, 0, 0, 0, 0, 1, 0, 0, 0, 0x10] ++ .replicate 26 0

/-- A database whose only function is a public symbol, sixteen bytes after the start of the only section. -/
def smallDatabase : List (Option Bytes) :=
  [some #[], some smallInfoStream, none, some smallModuleStream, none, some smallSymbolStream, some smallSectionStream]

def smallInfo : Info := ⟨20000404, 1, 1, .replicate 16 7, []⟩

def smallModules : ModuleList :=
  ⟨1, 1, 0xffff, 0xffff, 5, 0, [],
    ⟨0xffff, 0xffff, 0xffff, 0xffff, 0xffff, 6, 0xffff, 0xffff, 0xffff, 0xffff, 0xffff⟩⟩

def smallAddresses : AddressMap := ⟨[⟨".text", 0x100, 0x1000, 0, 0, 0⟩], #[]⟩

def smallTable : FunctionTable := ⟨#[⟨0x1010, none, 0x1100, "f", none, []⟩], #[], .empty⟩

theorem parse_smallInfoStream : Info.parse smallInfoStream = .ok smallInfo := by decide +kernel

theorem ofContainer_smallDatabase [Sorting] {c : Container} (h : c.HasStreams smallDatabase) :
    ofContainer c = .ok ⟨c, smallInfo, some smallModules, smallAddresses, none, none, none⟩ := by
  have hlist : ModuleList.parse smallModuleStream = .ok smallModules := by decide +kernel
  have haddresses : readAddresses c smallModules.imageStreams = smallAddresses := by
    have hdata : smallDatabase[smallModules.imageStreams.sections.toNat]? = some (some smallSectionStream) := rfl
    rw [readAddresses_of_hasStreams h rfl (by decide) hdata]
    decide +kernel
  rw [ofContainer_of_hasStreams h rfl rfl (by decide +kernel) parse_smallInfoStream hlist rfl rfl, haddresses]
  rfl

theorem build_smallDatabase [Sorting] {c : Container} (h : c.HasStreams smallDatabase) : FunctionTable.build
    ⟨c, smallInfo, some smallModules, smallAddresses, none, none, none⟩ = smallTable := by
  have hlist : PublicFunction.list smallAddresses smallSymbolStream = [(0x1010, ("f" : Text))] := by decide +kernel
  have hstream : streamBytes? c smallModules.symbolRecords.toNat = some smallSymbolStream :=
    streamBytes?_of_hasStreams h (rfl : smallDatabase[5]? = _)
  have hnil : smallModules.symbolRecords ≠ nilStream := by decide
  have hpublic : FunctionTable.publicFunctions ⟨c, smallInfo, some smallModules, smallAddresses, none, none, none⟩
      smallModules = [⟨0x1010, none, 0x1010, "f", none, []⟩] := by
    simp only [FunctionTable.publicFunctions, if_neg hnil, hstream, hlist, List.map_cons, List.map_nil]
  change FunctionTable.mk (FunctionTable.setLimits smallAddresses.sections (firstPerKey ProgramFunction.start
    (FunctionTable.publicFunctions _ smallModules))).toArray #[] .empty = smallTable
  rw [hpublic, firstPerKey_singleton]
  decide +kernel

theorem openSymbols_smallDatabase [Sorting] [Demangler] {data : Bytes} (h : Stores smallDatabase data) :
    openSymbols data = .ok (symbolSource (.ofGuidAge smallInfo.guid 1) smallTable.frameSource none) := by
  obtain ⟨c, hc, hstreams⟩ := h.parse
  rw [openSymbols_of_parse hc, ofContainer_smallDatabase hstreams]
  change openDatabase ⟨c, smallInfo, some smallModules, smallAddresses, none, none, none⟩ = _
  rw [openDatabase, build_smallDatabase hstreams]
  rfl

theorem stores_smallDatabase {blockSize : Nat} (h : blockSize = 512 ∨ blockSize = 4096) (fill : Nat → UInt8) :
    Stores smallDatabase ((turnedAround blockSize).file smallDatabase fill) := by
  have hs : (turnedAround blockSize).Sized smallDatabase := by
    rcases h with rfl | rfl
    · exact ⟨by decide +kernel, by decide +kernel, by decide +kernel⟩
    · exact ⟨by decide +kernel, by decide +kernel, by decide +kernel⟩
  have ha : (turnedAround blockSize).Apart smallDatabase := by
    rcases h with rfl | rfl
    · exact ⟨by decide +kernel, by decide +kernel, by decide +kernel⟩
    · exact ⟨by decide +kernel, by decide +kernel, by decide +kernel⟩
  exact ⟨_, hs, Placement.storedIn_file hs ha fill⟩

open scoped Sorting Demangler

theorem sameOutcome_smallDatabase :
    Stores smallDatabase ((turnedAround 512).file smallDatabase fun _ => 0) ∧
    Stores smallDatabase ((turnedAround 4096).file smallDatabase fun _ => 0xff) ∧
    (∃ x, openSymbols ((turnedAround 512).file smallDatabase fun _ => 0) = .ok x) ∧
    SameOutcome (openSymbols ((turnedAround 512).file smallDatabase fun _ => 0))
      (openSymbols ((turnedAround 4096).file smallDatabase fun _ => 0xff)) := by
  have h := stores_smallDatabase (.inl rfl) fun _ => 0
  have hother := stores_smallDatabase (.inr rfl) fun _ => 0xff
  exact ⟨h, hother, ⟨_, openSymbols_smallDatabase h⟩, sameOutcome_of_stores h hother⟩

end Database

end CodeAtlas
