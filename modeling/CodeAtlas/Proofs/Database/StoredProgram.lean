import CodeAtlas.Proofs.Database.LayoutIndependence
import CodeAtlas.Proofs.Database.RecordEncoding
import Mathlib.Algebra.Group.Action.Defs
import Mathlib.Algebra.Order.BigOperators.Group.List
import Mathlib.Algebra.Order.Group.Nat

/-!
How a few small streams are stored, and one program stored like this, with all that is read of it: two functions with
lines, inlined functions, one of whose ranges wraps around, and a source index.
-/

namespace CodeAtlas.Database

open Container

section InBlocks

/-- The block map, the directory and each stream take one block. -/
def inBlocks : Placement where
  blockSize := 512
  blockCount := 16
  freeMap := 1
  unused := 0
  block
    | .blockMap => 1
    | .directory part => 2 + part
    | .stream index part => 3 + index + part

variable {streams : List (Option Bytes)}

theorem blocksFor_le_one {size : Nat} (h : size ≤ 512) : blocksFor size 512 ≤ 1 := by
  unfold blocksFor
  omega

theorem size_storedContent_le (hsize : ∀ stream ∈ streams, (stream.getD #[]).size ≤ 512) (index : Nat) :
    (storedContent streams index).size ≤ 512 := by
  rw [storedContent]
  cases h : streams[index]? with
  | none => exact Nat.zero_le _
  | some stream => exact hsize stream (List.mem_of_getElem? h)

theorem size_directory_le (hcount : streams.length ≤ 13)
    (hsize : ∀ stream ∈ streams, (stream.getD #[]).size ≤ 512) : (inBlocks.directory streams).size ≤ 512 := by
  have hblocks : ∀ l ∈ inBlocks.layouts streams, ((recordedBlocks l).flatMap (leBytes 4)).length ≤ 4 := by
    intro l hl
    rw [length_flatMap_leBytes]
    cases l with
    | none => exact Nat.zero_le _
    | some l =>
      obtain ⟨index, content, hcontent, rfl⟩ := Placement.mem_layouts_iff.mp hl
      have hone := blocksFor_le_one (hsize _ (List.mem_of_getElem? hcontent))
      rw [recordedBlocks, Placement.length_blocksOf]
      exact Nat.mul_le_mul_right 4 hone
  have hsum := List.sum_le_card_nsmul _ 4 (List.forall_mem_map.mpr hblocks)
  rw [List.length_map, smul_eq_mul] at hsum
  have hlength : (inBlocks.layouts streams).length = streams.length := List.length_mapIdx
  rw [Placement.directory, List.size_toArray, length_writeDirectory, List.length_flatMap]
  omega

theorem eq_of_mem_pieces (hcount : streams.length ≤ 13)
    (hsize : ∀ stream ∈ streams, (stream.getD #[]).size ≤ 512) {x : Piece} (hx : x ∈ inBlocks.pieces streams) :
    x = .blockMap ∨ x = .directory 0 ∨ ∃ index < streams.length, x = .stream index 0 := by
  cases x with
  | blockMap => exact .inl rfl
  | directory part =>
    have hpart := Placement.directory_mem_iff.mp hx
    have hone := blocksFor_le_one (size_directory_le hcount hsize)
    exact .inr (.inl (congrArg Piece.directory (Nat.lt_one_iff.mp (Nat.lt_of_lt_of_le hpart hone))))
  | stream index part =>
    have hpart := Placement.stream_mem_iff.mp hx
    have hone := blocksFor_le_one (size_storedContent_le hsize index)
    refine .inr (.inr ⟨index, Nat.lt_of_not_le fun hle => ?_, congrArg (Piece.stream index)
      (Nat.lt_one_iff.mp (Nat.lt_of_lt_of_le hpart hone))⟩)
    rw [storedContent, List.getElem?_eq_none hle] at hpart
    exact Nat.not_lt_zero _ hpart

/-- Up to thirteen streams that fit into a block each can be stored like this. -/
theorem stores_inBlocks (hcount : streams.length ≤ 13)
    (hsize : ∀ stream ∈ streams, (stream.getD #[]).size ≤ 512) (fill : Nat → UInt8) :
    Stores streams (inBlocks.file streams fill) := by
  have hpieces : ∀ x ∈ inBlocks.pieces streams, _ := fun x hx => eq_of_mem_pieces hcount hsize hx
  have hs : inBlocks.Sized streams := by
    refine ⟨by decide, by decide, ?_⟩
    have hone := blocksFor_le_one (size_directory_le hcount hsize)
    exact Nat.le_trans (Nat.mul_le_mul_right 4 hone) (by decide)
  have ha : inBlocks.Apart streams := by
    refine ⟨fun x hx => ?_, fun x hx => ?_, fun x hx y hy heq => ?_⟩
    · rcases hpieces x hx with rfl | rfl | ⟨index, -, rfl⟩ <;> simp only [inBlocks] <;> omega
    · rcases hpieces x hx with rfl | rfl | ⟨index, hindex, rfl⟩ <;> simp only [inBlocks] <;> omega
    · rcases hpieces x hx with rfl | rfl | ⟨index, hindex, rfl⟩ <;>
        rcases hpieces y hy with rfl | rfl | ⟨other, hother, rfl⟩ <;> simp only [inBlocks] at heq <;>
        first | rfl | omega | (congr 1; omega)
  exact ⟨inBlocks, hs, Placement.storedIn_file hs ha fill⟩

end InBlocks

section Sample

def procedureRecord (offset : Nat) (name : UInt8) : Record :=
  ⟨0x1110, (List.replicate 12 0 ++ leBytes 4 0x40 ++ List.replicate 12 0 ++ leBytes 4 offset ++ leBytes 2 1 ++
    [0, name, 0]).toArray⟩

def callRecord (inlinee : Nat) (steps : List UInt8) : Record :=
  ⟨0x114d, (List.replicate 8 0 ++ leBytes 4 inlinee ++ steps).toArray⟩

def closeRecord : Record := ⟨0x0006, #[]⟩

/-- Eight steps of 0x1fffffff bytes lead to an offset shortly before the end of the address space. -/
def wrappingSteps : List UInt8 :=
  (List.replicate 8 [4, 0xdf, 0xff, 0xff, 0xff]).flatten ++ [0xc, 8, 0, 1, 0x10, 0xc, 0x10, 0]

/-- Two functions, each with an inlined one of two ranges. In the first another one is inlined into that; in the second
one of the ranges lies before the function. -/
def sampleRecords : List Record :=
  [procedureRecord 0x10 0x66, callRecord 7 [0xc, 0x10, 0x10, 0xc, 8, 0x18], callRecord 8 [0xc, 4, 0x14], closeRecord,
    closeRecord, closeRecord, procedureRecord 0x100 0x67, callRecord 7 wrappingSteps, closeRecord, closeRecord]

def sampleSymbols : List UInt8 := leBytes 4 4 ++ sampleRecords.flatMap Record.bytes

def lineBody : List UInt8 :=
  leBytes 4 0x10 ++ leBytes 2 1 ++ leBytes 2 0 ++ [0x40, 0, 1, 20, 0, 5].flatMap (leBytes 4)

def checksumBody : List UInt8 := leBytes 4 1 ++ [0, 0, 0, 0] ++ leBytes 4 5 ++ [0, 0]

def definitionBody : List UInt8 := [0, 7, 8, 20, 8, 0, 30].flatMap (leBytes 4)

def subsectionBytes (kind : Nat) (body : List UInt8) : List UInt8 := leBytes 4 kind ++ leBytes 4 body.length ++ body

def sampleSubsections : List UInt8 :=
  subsectionBytes 0xf2 lineBody ++ subsectionBytes 0xf4 checksumBody ++ [0, 0] ++ subsectionBytes 0xf6 definitionBody

def sampleInfoStream : Bytes :=
  ([20000404, 1, 1].flatMap (leBytes 4) ++ List.replicate 16 7 ++ leBytes 4 14 ++ Text.ofString "/names" ++ [0] ++
    Text.ofString "srcsrv" ++ [0] ++ [2, 2, 1, 3, 0, 0, 5, 7, 7].flatMap (leBytes 4)).toArray

def sampleModuleStream : Bytes :=
  ([0xffffffff, 1, 1, 0xffff, 0xffff, 0xffff, 68, 0, 0, 0, 0, 0, 22, 0, 0, 0].flatMap (leBytes 4) ++
    List.replicate 34 0 ++ leBytes 2 6 ++ [sampleSymbols.length, 0, sampleSubsections.length].flatMap (leBytes 4) ++
    List.replicate 16 0 ++ [0x6d, 0, 0, 0] ++ List.replicate 10 0xff ++ [8, 0] ++ List.replicate 10 0xff).toArray

def sampleStrings : Strings := ⟨([0] ++ Text.ofString "c.c" ++ [0] ++ Text.ofString "/rustc/ab/x.rs" ++ [0]).toArray⟩

def sampleStringStream : Bytes := ([0xeffeeffe, 1, 20].flatMap (leBytes 4)).toArray ++ sampleStrings.buffer

def sampleIndexText : Text :=
  "SRCSRV: ini\nVERSION=1\nSRCSRV: variables\nSRCSRVTRG=http://h/%var1%\nSRCSRV: source files\nc.c\nSRCSRV: end\n"

def sampleSectionStream : Bytes :=
  (Text.ofString ".text" ++ List.replicate 3 0 ++ [0x1000, 0x1000].flatMap (leBytes 4) ++ List.replicate 24 0).toArray

def sampleProgram : List (Option Bytes) :=
  [some #[], some sampleInfoStream, none, some sampleModuleStream, none, some sampleStringStream,
    some (sampleSymbols ++ sampleSubsections).toArray, some sampleIndexText.toArray, some sampleSectionStream]

def sampleFile : Bytes := inBlocks.file sampleProgram fun _ => 0

def sampleInfo : Info := ⟨20000404, 1, 1, .replicate 16 7, [("/names", 5), ("srcsrv", 7)]⟩

def sampleEntry : ModuleEntry := ⟨"m", [], 6, .ofNat sampleSymbols.length, 0, .ofNat sampleSubsections.length⟩

def sampleModules : ModuleList :=
  ⟨1, 1, 0xffff, 0xffff, 0xffff, 0, [sampleEntry],
    ⟨0xffff, 0xffff, 0xffff, 0xffff, 0xffff, 8, 0xffff, 0xffff, 0xffff, 0xffff, 0xffff⟩⟩

def sampleAddresses : AddressMap := ⟨[⟨".text", 0x1000, 0x1000, 0, 0, 0⟩], #[]⟩

def sampleDatabase (c : Container) : Database :=
  ⟨c, sampleInfo, some sampleModules, sampleAddresses, some sampleStrings, none, none⟩

def sampleModuleRecords : ModuleRecords where
  procedures := [⟨0x1010, 0x40, "f"⟩, ⟨0x1100, 0x40, "g"⟩]
  calls :=
    [⟨0, 1, 7, [⟨0x10, some 0x10, 20, 8⟩, ⟨0x28, some 8, 20, 8⟩]⟩, ⟨0, 2, 8, [⟨0x14, some 4, 30, 0⟩]⟩,
      ⟨1, 1, 7, [⟨0xfffffff8, some 8, 20, 8⟩, ⟨0x10, some 0x10, 20, 8⟩]⟩]
  lines := [⟨0x1010, 0x1050, 5, 0⟩]
  files := [(0, 1), (8, 5)]
  definitions := [(7, ⟨8, 20⟩), (8, ⟨0, 30⟩)]

def outerCall : InlinedFunction := ⟨1, none, #[⟨0x1020, 0x1030, 20, some 1⟩, ⟨0x1038, 0x1040, 20, some 1⟩]⟩

def innerCall : InlinedFunction := ⟨2, none, #[⟨0x1024, 0x1028, 30, some 0⟩]⟩

def wrappedCall : InlinedFunction := ⟨1, none, #[⟨0x1110, 0x1120, 20, some 1⟩, ⟨0x10f8, 0x1100, 20, some 1⟩]⟩

def sampleFunctions : List ProgramFunction :=
  [⟨0x1010, some 0x1050, 0x1050, "f", some 0, [outerCall, innerCall]⟩,
    ⟨0x1100, some 0x1140, 0x1140, "g", some 0, [wrappedCall]⟩]

def sampleTable : FunctionTable :=
  ⟨sampleFunctions.toArray, #[#[⟨0x1010, 0x1050, 5, some 0⟩]], ⟨#["c.c", "/rustc/ab/x.rs"]⟩⟩

/-- Of two sites the deeper one comes first. -/
theorem mergeSort_of_depth_lt {a b : InlinedFunction × LineSpan} (h : a.1.depth < b.1.depth) :
    ([a, b].mergeSort fun a b => b.1.depth ≤ a.1.depth) = [b, a] := by
  simp [List.mergeSort, Nat.not_le.mpr h]

theorem frames?_sampleTable : sampleTable.frames? 0x1026 = some ⟨0x1010, some 0x1050,
    [⟨none, some "c.c", some 30⟩, ⟨none, some "/rustc/ab/x.rs", some 20⟩, ⟨some "f", some "c.c", some 5⟩]⟩ := by
  have hfunction : sampleTable.function? 0x1026 =
      some ⟨0x1010, some 0x1050, 0x1050, "f", some 0, [outerCall, innerCall]⟩ := by decide +kernel
  have hcovering : [outerCall, innerCall].filterMap (fun i =>
      (FunctionTable.covering? i.spans 0x1026).map fun s => (i, s)) =
      [(outerCall, ⟨0x1020, 0x1030, 20, some 1⟩), (innerCall, ⟨0x1024, 0x1028, 30, some 0⟩)] := by decide +kernel
  rw [FunctionTable.frames?, hfunction, Option.map_some, FunctionTable.inlinedFrames]
  dsimp only
  rw [hcovering, mergeSort_of_depth_lt (by decide)]
  decide +kernel

theorem exists_sampleContainer : ∃ c, Container.parse sampleFile = .ok c ∧ c.HasStreams sampleProgram :=
  (stores_inBlocks (by decide) (by decide +kernel) fun _ => 0).parse

theorem parse_sampleModuleStream : ModuleList.parse sampleModuleStream = .ok sampleModules := by
  have hentry : ModuleEntry.readAt? (sampleModuleStream.extract 64 132) 0 = some sampleEntry := by decide +kernel
  have hend : (sampleModuleStream.extract 64 132).size = 68 ∧ Bytes.align4 (0 + sampleEntry.size) = 68 := by
    decide +kernel
  have hlist : ModuleEntry.list (sampleModuleStream.extract 64 132) 0 = .ok [sampleEntry] := by
    rw [ModuleEntry.list, hend.1, if_neg (by decide), hentry]
    dsimp only
    rw [hend.2, ModuleEntry.list, hend.1, if_pos (by decide)]
    rfl
  have hparts : sampleModuleStream.slice? 0 64 = some (sampleModuleStream.extract 0 64) ∧
      sampleModuleStream.slice? 64 68 = some (sampleModuleStream.extract 64 132) ∧
      sampleModuleStream.slice? 132 22 = some (sampleModuleStream.extract 132 154) := by decide +kernel
  have himage : ImageStreams.parse (sampleModuleStream.extract 132 154) = sampleModules.imageStreams := by
    decide +kernel
  have hwords : [0, 4, 8, 24, 28, 32, 36, 40, 48, 52].map (Bytes.u32At? (sampleModuleStream.extract 0 64)) =
      [0xffffffff, 1, 1, 68, 0, 0, 0, 0, 22, 0].map some := by decide +kernel
  have hhalves : [12, 16, 20, 58].map (Bytes.u16At? (sampleModuleStream.extract 0 64)) =
      [0xffff, 0xffff, 0xffff, 0].map some := by decide +kernel
  simp only [List.map_cons, List.map_nil, List.cons.injEq, and_true] at hwords hhalves
  unfold ModuleList.parse
  simp only [ModuleList.headerSize, hparts, hwords, hhalves, Option.getD_some, List.map_cons, List.map_nil]
  simp [ModuleList.isNegative, hparts, hlist, himage]
  rfl

theorem symbols_sample : ModuleRecords.symbols sampleAddresses sampleModuleRecords.definitions sampleSymbols.toArray =
    ⟨[], sampleModuleRecords.procedures.reverse, sampleModuleRecords.calls.reverse⟩ := by
  have hrecords := (Bytes.holds_toArray sampleSymbols).right
  rw [length_leBytes, Nat.zero_add] at hrecords
  have hlist : Record.list sampleSymbols.toArray 4 = (sampleRecords, true) := by
    apply Record.list_of_holds hrecords (by decide +kernel)
    rw [List.size_toArray, sampleSymbols, List.length_append, length_leBytes, Record.headSize]
    omega
  have hmark : Bytes.u32At? sampleSymbols.toArray 0 = some 4 :=
    Bytes.Holds.u32At? (n := 4) (Bytes.holds_toArray sampleSymbols).left
  rw [ModuleRecords.symbols, if_pos hmark, hlist]
  decide +kernel

theorem parse_sampleModule [Sorting] : ModuleRecords.parse sampleAddresses sampleEntry
    (sampleSymbols ++ sampleSubsections).toArray = .ok sampleModuleRecords := by
  have hsymbols : sampleEntry.symbolSize.toNat = sampleSymbols.length ∧ sampleEntry.c11Size.toNat = 0 ∧
      sampleEntry.c13Size.toNat = sampleSubsections.length := by decide +kernel
  have hc13 := Bytes.slice?_toArray_append sampleSymbols sampleSubsections []
  have hpart := (Bytes.slice?_eq_some_iff.mp (Bytes.slice?_toArray_append [] sampleSymbols sampleSubsections)).2
  rw [List.append_nil] at hc13
  rw [List.nil_append, List.length_nil, Nat.zero_add] at hpart
  have hlist : Subsection.list sampleSubsections.toArray 0 =
      [⟨0xf2, lineBody.toArray⟩, ⟨0xf4, checksumBody.toArray⟩, ⟨0xf6, definitionBody.toArray⟩] := by
    decide +kernel
  have hlines : lineRecords sampleAddresses lineBody.toArray = sampleModuleRecords.lines := by
    decide +kernel
  have hfiles : checksumEntries checksumBody.toArray 0 = sampleModuleRecords.files := by
    decide +kernel
  have hdefinitions : definitionTable definitionBody.toArray = sampleModuleRecords.definitions := by
    decide +kernel
  have hbodies : [Subsection.lines, Subsection.checksums, Subsection.definitions].map (ModuleRecords.bodies ·
      [⟨0xf2, lineBody.toArray⟩, ⟨0xf4, checksumBody.toArray⟩, ⟨0xf6, definitionBody.toArray⟩]) =
      [[lineBody.toArray], [checksumBody.toArray], [definitionBody.toArray]] := rfl
  simp only [List.map_cons, List.map_nil, List.cons.injEq, and_true] at hbodies
  simp only [ModuleRecords.parse, hsymbols, Nat.add_zero, hc13, hpart, hlist, hbodies, List.flatMap_singleton, hlines,
    hfiles, hdefinitions, symbols_sample, List.reverse_reverse]
  exact congrArg Except.ok (congrArg (ModuleRecords.mk _ _ · _ _) (Sorting.sort_singleton _))

theorem moduleRecords_sampleDatabase [Sorting] {c : Container} (h : c.HasStreams sampleProgram) :
    FunctionTable.moduleRecords (sampleDatabase c) sampleModules = [sampleModuleRecords] := by
  have hmodule : streamBytes? c sampleEntry.stream.toNat = some (sampleSymbols ++ sampleSubsections).toArray :=
    streamBytes?_of_hasStreams h (rfl : sampleProgram[6]? = _)
  have hnil : sampleEntry.stream ≠ nilStream := by decide
  have hread : ModuleRecords.parse (sampleDatabase c).addresses sampleEntry
      (sampleSymbols ++ sampleSubsections).toArray = .ok sampleModuleRecords := parse_sampleModule
  simp only [FunctionTable.moduleRecords, sampleModules, List.filterMap_cons, List.filterMap_nil, if_neg hnil]
  rw [show (sampleDatabase c).container = c from rfl, hmodule, Option.bind_some, hread]
  rfl

theorem sort_sampleRanges [Sorting] :
    Sorting.sort InlineRange.offset [⟨0x10, some 0x10, 20, 8⟩, ⟨0x28, some 8, 20, 8⟩] =
      [⟨0x10, some 0x10, 20, 8⟩, ⟨0x28, some 8, 20, 8⟩] := Sorting.sort_eq_of_increasing (.refl _) (by decide)

theorem build_sampleDatabase [Sorting] {c : Container} (h : c.HasStreams sampleProgram) :
    FunctionTable.build (sampleDatabase c) = sampleTable := by
  have hpublic : FunctionTable.publicFunctions (sampleDatabase c) sampleModules = [] := rfl
  have hfalling : Sorting.sort InlineRange.offset [⟨0xfffffff8, some 8, 20, 8⟩, ⟨0x10, some 0x10, 20, 8⟩] =
      [⟨0x10, some 0x10, 20, 8⟩, ⟨0xfffffff8, some 8, 20, 8⟩] :=
    Sorting.sort_eq_of_increasing (.swap _ _ _) (by decide)
  have hmodules : (FunctionTable.ofModules (some sampleStrings) ⟨none, none⟩ 0 [sampleModuleRecords]).run .empty =
      (([#[⟨0x1010, 0x1050, 5, some 0⟩]], sampleFunctions), ⟨#["c.c", "/rustc/ab/x.rs"]⟩) := by
    simp only [FunctionTable.ofModules, FunctionTable.ofModule, FunctionTable.inlinedFunctions,
      FunctionTable.inlinedFunction, sampleModuleRecords, sort_sampleRanges, hfalling, Sorting.sort_singleton]
    refine Prod.ext ?_ (congrArg PathTable.mk ?_) <;> decide +kernel
  have hnamed : (FunctionTable.ofModules (sampleDatabase c).strings (sampleDatabase c).functionNames 0
      [sampleModuleRecords]).run .empty = _ := hmodules
  have hlimits : FunctionTable.setLimits sampleAddresses.sections (firstPerKey ProgramFunction.start sampleFunctions) =
      sampleFunctions := by
    rw [firstPerKey, List.mergeSort_of_pairwise (by decide)]
    decide +kernel
  rw [FunctionTable.build, show (sampleDatabase c).modules = some sampleModules from rfl]
  dsimp only
  rw [moduleRecords_sampleDatabase h, hpublic, hnamed]
  dsimp only
  rw [List.append_nil]
  exact congrArg (FunctionTable.mk ·.toArray _ _) hlimits

theorem ofContainer_sampleProgram [Sorting] {c : Container} (h : c.HasStreams sampleProgram) :
    ofContainer c = .ok (sampleDatabase c) := by
  have hinfo : Info.parse sampleInfoStream = .ok sampleInfo := by decide +kernel
  have hstrings : Strings.parse sampleStringStream = .ok sampleStrings := by decide +kernel
  have haddresses : readAddresses c sampleModules.imageStreams = sampleAddresses := by
    have hdata : sampleProgram[sampleModules.imageStreams.sections.toNat]? = some (some sampleSectionStream) := rfl
    rw [readAddresses_of_hasStreams h rfl (by decide) hdata]
    decide +kernel
  have hnames : readStrings? c sampleInfo = some sampleStrings := by
    have hindex : sampleInfo.find? "/names" = some 5 := by decide
    have hstream : streamBytes? c (5 : UInt32).toNat = some sampleStringStream :=
      streamBytes?_of_hasStreams h (rfl : sampleProgram[5]? = _)
    simp only [readStrings?, hindex, Option.bind_eq_bind, Option.bind_some, hstream, hstrings]
    rfl
  rw [ofContainer_of_hasStreams h rfl rfl (by decide +kernel) hinfo parse_sampleModuleStream rfl rfl, haddresses,
    hnames]
  rfl

theorem parse_sampleFile [Sorting] {c : Container} (hc : Container.parse sampleFile = .ok c)
    (hs : c.HasStreams sampleProgram) : Database.parse sampleFile = .ok (sampleDatabase c) := by
  rw [Database.parse, hc]
  exact ofContainer_sampleProgram hs

end Sample

end CodeAtlas.Database
