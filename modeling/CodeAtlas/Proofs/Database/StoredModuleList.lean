import CodeAtlas.Proofs.Database.ModuleSubstreams

namespace CodeAtlas.Database

/-- A list of modules as it is stored: its header, with the numbers that are passed over, and its substreams. -/
structure StoredModuleList where
  version : UInt32
  age : UInt32
  globals : UInt16
  build : UInt16
  publics : UInt16
  library : UInt16
  symbolRecords : UInt16
  libraryBuild : UInt16
  typeServer : UInt32
  flags : UInt16
  machine : UInt16
  unused : UInt32
  modules : List StoredModule
  /-- Whether the last module is filled up, too. -/
  fillLast : Bool
  contributions : List UInt8
  sectionMap : List UInt8
  sources : List UInt8
  typeServers : List UInt8
  editNames : List UInt8
  imageStreams : List UInt16

namespace StoredModuleList

def moduleBytes (m : StoredModuleList) : List UInt8 := StoredModule.listBytes m.fillLast m.modules

def imageStreamBytes (m : StoredModuleList) : List UInt8 := ImageStreams.bytes m.imageStreams

def header (m : StoredModuleList) : List UInt8 :=
  leBytes 4 0xFFFFFFFF ++ (leBytes 4 m.version.toNat ++ (leBytes 4 m.age.toNat ++ (leBytes 2 m.globals.toNat ++
    (leBytes 2 m.build.toNat ++ (leBytes 2 m.publics.toNat ++ (leBytes 2 m.library.toNat ++
      (leBytes 2 m.symbolRecords.toNat ++ (leBytes 2 m.libraryBuild.toNat ++ (leBytes 4 m.moduleBytes.length ++
        (leBytes 4 m.contributions.length ++ (leBytes 4 m.sectionMap.length ++ (leBytes 4 m.sources.length ++
          (leBytes 4 m.typeServers.length ++ (leBytes 4 m.typeServer.toNat ++ (leBytes 4 m.imageStreamBytes.length ++
            (leBytes 4 m.editNames.length ++ (leBytes 2 m.flags.toNat ++ (leBytes 2 m.machine.toNat ++
              leBytes 4 m.unused.toNat))))))))))))))))))

/-- The numbers of the image's streams come last, although their size stands before that of the names. -/
def bytes (m : StoredModuleList) : List UInt8 :=
  m.header ++ (m.moduleBytes ++ (m.contributions ++ (m.sectionMap ++ (m.sources ++ (m.typeServers ++ (m.editNames ++
    m.imageStreamBytes))))))

/-- The sizes can be stored with a sign, and there are no more numbers than the image has streams. -/
structure Fits (m : StoredModuleList) : Prop where
  modules : m.moduleBytes.length < 2 ^ 31
  contributions : m.contributions.length < 2 ^ 31
  sectionMap : m.sectionMap.length < 2 ^ 31
  sources : m.sources.length < 2 ^ 31
  typeServers : m.typeServers.length < 2 ^ 31
  editNames : m.editNames.length < 2 ^ 31
  imageStreams : m.imageStreams.length ≤ 11

/-- A list says what was stored; numbers of streams that were not are nil. -/
structure Says (m : StoredModuleList) (l : ModuleList) : Prop where
  version : l.version = m.version
  age : l.age = m.age
  globals : l.globals = m.globals
  publics : l.publics = m.publics
  symbolRecords : l.symbolRecords = m.symbolRecords
  machine : l.machine = m.machine
  modules : l.modules = m.modules.map (·.entry)
  imageStreams : l.imageStreams.toList = m.imageStreams ++ List.replicate (11 - m.imageStreams.length) nilStream

variable {m : StoredModuleList} {data : Bytes}

theorem length_header (m : StoredModuleList) : m.header.length = ModuleList.headerSize := by
  simp only [header, ModuleList.headerSize, List.length_append, length_leBytes]

theorem length_imageStreamBytes_lt (h : m.Fits) : m.imageStreamBytes.length < 2 ^ 31 := by
  have hle := h.imageStreams
  rw [imageStreamBytes, ImageStreams.length_bytes]
  omega

end StoredModuleList

namespace ModuleList

theorem toNat_wordAt_of_holds {data : Bytes} {offset n : Nat} (h : data.Holds offset (leBytes 4 n)) (hn : n < 2 ^ 31) :
    (wordAt data offset).toNat = n := by
  have hlt : n < 2 ^ 32 := by omega
  rw [wordAt, h.u32At?_ofNat hlt, Option.getD_some, UInt32.toNat_ofNat_of_lt' hlt]

theorem not_exists_negative_iff {data : Bytes} : (¬∃ offset ∈ sizeOffsets, signedAt data offset < 0) ↔
    ∀ offset ∈ sizeOffsets, 0 ≤ signedAt data offset := by
  simp only [not_exists, not_and, Int.not_lt]

end ModuleList

namespace StoredModuleList

variable {m : StoredModuleList} {data : Bytes}

open ModuleList

theorem sizes_of_holds (h : data.Holds 0 m.header) (hm : m.Fits) :
    sizeOffsets.map (fun offset => (wordAt data offset).toNat) = [m.moduleBytes.length, m.contributions.length,
      m.sectionMap.length, m.sources.length, m.typeServers.length, m.imageStreamBytes.length, m.editNames.length] := by
  have hsizes := h.right.right.right.right.right.right.right.right.right
  have hmodules : (wordAt data 24).toNat = _ := toNat_wordAt_of_holds hsizes.left hm.modules
  have hcontributions : (wordAt data 28).toNat = _ := toNat_wordAt_of_holds hsizes.right.left hm.contributions
  have hmap : (wordAt data 32).toNat = _ := toNat_wordAt_of_holds hsizes.right.right.left hm.sectionMap
  have hsources : (wordAt data 36).toNat = _ := toNat_wordAt_of_holds hsizes.right.right.right.left hm.sources
  have hservers : (wordAt data 40).toNat = _ := toNat_wordAt_of_holds hsizes.right.right.right.right.left hm.typeServers
  have hlast := hsizes.right.right.right.right.right.right
  have himage : (wordAt data 48).toNat = _ := toNat_wordAt_of_holds hlast.left (length_imageStreamBytes_lt hm)
  have hnames : (wordAt data 52).toNat = _ := toNat_wordAt_of_holds hlast.right.left hm.editNames
  simp only [sizeOffsets, List.map_cons, List.map_nil, hmodules, hcontributions, hmap, hsources, hservers, himage,
    hnames]

theorem ofSubstreams_stored (hm : m.Fits) : ∃ l,
    ofSubstreams m.header.toArray m.moduleBytes.toArray m.imageStreamBytes.toArray = .ok l ∧ m.Says l := by
  have h := Bytes.holds_toArray m.header
  have hversion : wordAt m.header.toArray 4 = m.version := congrArg (·.getD 0) h.right.left.u32At?
  have hage : wordAt m.header.toArray 8 = m.age := congrArg (·.getD 0) h.right.right.left.u32At?
  have hglobals : Bytes.u16At? m.header.toArray 12 = some m.globals := h.right.right.right.left.u16At?
  have hpublics : Bytes.u16At? m.header.toArray 16 = some m.publics := h.right.right.right.right.right.left.u16At?
  have hrecords : Bytes.u16At? m.header.toArray 20 = some m.symbolRecords :=
    h.right.right.right.right.right.right.right.left.u16At?
  have hsizes := h.right.right.right.right.right.right.right.right.right
  have hflags := hsizes.right.right.right.right.right.right.right.right
  have hmachine : Bytes.u16At? m.header.toArray 58 = some m.machine := hflags.right.left.u16At?
  have hmodules : ModuleEntry.list m.moduleBytes.toArray 0 = .ok (m.modules.map (·.entry)) := by
    refine StoredModule.list_of_holds (Bytes.holds_toArray _) ?_ (Nat.zero_mod 4)
    rw [Nat.zero_add]
    exact List.size_toArray
  refine ⟨⟨m.version, m.age, m.globals, m.publics, m.symbolRecords, m.machine, m.modules.map (·.entry),
    ImageStreams.parse m.imageStreamBytes.toArray⟩, ?_, ⟨rfl, rfl, rfl, rfl, rfl, rfl, rfl, ?_⟩⟩
  · simp only [ofSubstreams, hmodules, hversion, hage, hglobals, hpublics, hrecords, hmachine, Option.getD_some]
    rfl
  · exact ImageStreams.toList_parse hm.imageStreams

/-- No size is taken for negative. -/
theorem signedAt_of_holds (h : data.Holds 0 m.header) (hm : m.Fits) {offset : Nat} (hoffset : offset ∈ sizeOffsets) :
    0 ≤ signedAt data offset := by
  have himage := length_imageStreamBytes_lt hm
  have hmem := List.mem_map_of_mem (f := fun offset => (wordAt data offset).toNat) hoffset
  have hlt : ∀ n ∈ [m.moduleBytes.length, m.contributions.length, m.sectionMap.length, m.sources.length,
      m.typeServers.length, m.imageStreamBytes.length, m.editNames.length], n < 2 ^ 31 := by
    simp only [List.forall_mem_cons, hm.modules, hm.contributions, hm.sectionMap, hm.sources, hm.typeServers, himage,
      hm.editNames, List.not_mem_nil, false_imp_iff, implies_true, and_self]
  rw [sizes_of_holds h hm] at hmem
  rw [signedAt, signed_eq, if_pos (hlt _ hmem)]
  exact Int.natCast_nonneg _

/-- What is stored is read back, whatever follows it. -/
theorem exists_parse (hm : m.Fits) (after : List UInt8) :
    ∃ l, ModuleList.parse (m.bytes ++ after).toArray = .ok l ∧ m.Says l := by
  have hwhole : Bytes.Holds (m.bytes ++ after).toArray 0 (m.bytes ++ after) := Bytes.holds_toArray _
  generalize (m.bytes ++ after).toArray = data at hwhole ⊢
  have hbytes := hwhole.left
  have hheader := hbytes.left
  have hsignature : signedAt data 0 = -1 :=
    signed_eq_neg_one_iff.mpr (congrArg (·.getD 0) (hheader.left.u32At?_ofNat (by decide)))
  have hnonneg := not_exists_negative_iff.mpr fun offset hoffset => signedAt_of_holds hheader hm hoffset
  have hsizes := sizes_of_holds hheader hm
  have hsize := hbytes.le_size
  have hlength := m.length_header
  have hbound : headerSize + total data ≤ data.size := by
    rw [total, hsizes]
    simp only [bytes, List.length_append, List.sum_cons, List.sum_nil] at hsize ⊢
    omega
  simp only [sizeOffsets, List.map_cons, List.map_nil, List.cons.injEq, and_true] at hsizes
  obtain ⟨hmodules, hcontributions, hmap, hsources, hservers, himage, hnames⟩ := hsizes
  have hheaderAt := (Bytes.slice?_eq_some_iff.mp hheader.slice?).2
  have hmodulesAt := (Bytes.slice?_eq_some_iff.mp hbytes.right.left.slice?).2
  have himageAt := (Bytes.slice?_eq_some_iff.mp hbytes.right.right.right.right.right.right.right.slice?).2
  rw [hlength, Nat.zero_add] at hheaderAt hmodulesAt himageAt
  have hstart : imageStreamsAt data = headerSize + m.moduleBytes.length + m.contributions.length +
      m.sectionMap.length + m.sources.length + m.typeServers.length + m.editNames.length := by
    rw [imageStreamsAt, hmodules, hcontributions, hmap, hsources, hservers, hnames]
  rw [parse_eq, if_neg (by omega), if_neg fun hne => hne hsignature, if_neg hnonneg, if_neg (by omega), hmodules,
    himage, hstart, hheaderAt, hmodulesAt, himageAt]
  exact ofSubstreams_stored hm

end StoredModuleList

namespace ModuleList

variable {data : Bytes}

theorem parse_eq_negativeSize_iff : parse data = .error .negativeSize ↔
    headerSize ≤ data.size ∧ signedAt data 0 = -1 ∧ ∃ offset ∈ sizeOffsets, signedAt data offset < 0 := by
  rw [parse_eq]
  split
  next hsize => exact ⟨nofun, fun h => absurd h.1 (Nat.not_le.mpr hsize)⟩
  next hsize =>
    split
    next hsignature => exact ⟨nofun, fun h => absurd h.2.1 hsignature⟩
    next hsignature =>
      split
      next hnegative => exact iff_of_true rfl ⟨Nat.not_lt.mp hsize, Decidable.not_not.mp hsignature, hnegative⟩
      next hnegative =>
        refine iff_of_false ?_ fun h => hnegative h.2.2
        split
        next => nofun
        next => exact fun h => nomatch eq_shortModuleEntry_of_ofSubstreams h

theorem parse_eq_largeSubstreams_iff : parse data = .error .largeSubstreams ↔
    headerSize ≤ data.size ∧ signedAt data 0 = -1 ∧ (∀ offset ∈ sizeOffsets, 0 ≤ signedAt data offset) ∧
      data.size < headerSize + (sizeOffsets.map (signedAt data)).sum := by
  rw [parse_eq]
  split
  next hsize => exact ⟨nofun, fun h => absurd h.1 (Nat.not_le.mpr hsize)⟩
  next hsize =>
    split
    next hsignature => exact ⟨nofun, fun h => absurd h.2.1 hsignature⟩
    next hsignature =>
      split
      next hnegative => exact iff_of_false nofun fun h => absurd hnegative (not_exists_negative_iff.mpr h.2.2.1)
      next hnegative =>
        have hnonneg := not_exists_negative_iff.mp hnegative
        have hsum := sum_signedAt hnonneg
        split
        next hlarge =>
          exact iff_of_true rfl ⟨Nat.not_lt.mp hsize, Decidable.not_not.mp hsignature, hnonneg, by omega⟩
        next hlarge =>
          refine iff_of_false (fun h => nomatch eq_shortModuleEntry_of_ofSubstreams h) fun h => ?_
          have hlt := h.2.2.2
          omega

theorem exists_fault (h : (∃ offset ∈ sizeOffsets, signedAt data offset < 0) ∨
    data.size < headerSize + (sizeOffsets.map (signedAt data)).sum) : ∃ fault, parse data = .error fault := by
  by_cases hsize : data.size < headerSize
  · exact ⟨_, by rw [parse_eq, if_pos hsize]⟩
  · by_cases hsignature : signedAt data 0 = -1
    · by_cases hnegative : ∃ offset ∈ sizeOffsets, signedAt data offset < 0
      · exact ⟨_, parse_eq_negativeSize_iff.mpr ⟨Nat.not_lt.mp hsize, hsignature, hnegative⟩⟩
      · have hnonneg := not_exists_negative_iff.mp hnegative
        have hlarge := h.resolve_left hnegative
        exact ⟨_, parse_eq_largeSubstreams_iff.mpr ⟨Nat.not_lt.mp hsize, hsignature, hnonneg, hlarge⟩⟩
    · exact ⟨_, by rw [parse_eq, if_neg hsize, if_pos hsignature]⟩

/-- What is stored is read back, and sizes that cannot be those of the substreams are refused. -/
structure ReadsModules (m : StoredModuleList) (data : Bytes) : Prop where
  decoded : ∀ after, ∃ l, parse (m.bytes ++ after).toArray = .ok l ∧ m.Says l
  refused : (∃ offset ∈ sizeOffsets, signedAt data offset < 0) ∨
    data.size < headerSize + (sizeOffsets.map (signedAt data)).sum → ∃ fault, parse data = .error fault
  negativeSize_iff : parse data = .error .negativeSize ↔
    headerSize ≤ data.size ∧ signedAt data 0 = -1 ∧ ∃ offset ∈ sizeOffsets, signedAt data offset < 0
  largeSubstreams_iff : parse data = .error .largeSubstreams ↔
    headerSize ≤ data.size ∧ signedAt data 0 = -1 ∧ (∀ offset ∈ sizeOffsets, 0 ≤ signedAt data offset) ∧
      data.size < headerSize + (sizeOffsets.map (signedAt data)).sum
  /-- No position wraps: a cursor whose positions are machine words ends where the exact sum of the sizes says, or at
  the end of the data and marked. -/
  cursor_eq : data.size < UInt64.size → headerSize ≤ data.size → (readInWords data).2.toCursor =
    if data.size < headerSize + total data then ⟨data, data.size, true⟩ else ⟨data, headerSize + total data, false⟩
  /-- What that cursor hands out is what the list is read from. -/
  replies_eq : data.size < UInt64.size → headerSize + total data ≤ data.size → ∃ modules imageStreams,
    (readInWords data).1 =
        [.bytes modules, .nothing, .nothing, .nothing, .nothing, .nothing, .bytes imageStreams] ∧
      (signedAt data 0 = -1 → (∀ offset ∈ sizeOffsets, 0 ≤ signedAt data offset) →
        parse data = ofSubstreams (data.extract 0 headerSize) modules imageStreams)

theorem parse_of_total_le (hsignature : signedAt data 0 = -1)
    (hnonneg : ∀ offset ∈ sizeOffsets, 0 ≤ signedAt data offset)
    (hle : headerSize + total data ≤ data.size) : parse data = ofSubstreams (data.extract 0 headerSize)
      (data.extract headerSize (headerSize + (wordAt data 24).toNat))
      (data.extract (imageStreamsAt data) (imageStreamsAt data + (wordAt data 48).toNat)) := by
  have hnegative := not_exists_negative_iff.mpr hnonneg
  rw [parse_eq, if_neg (by omega), if_neg fun hne => hne hsignature, if_neg hnegative, if_neg (by omega)]

theorem readsModules {m : StoredModuleList} (hm : m.Fits) (data : Bytes) : ReadsModules m data where
  decoded := StoredModuleList.exists_parse hm
  refused := exists_fault
  negativeSize_iff := parse_eq_negativeSize_iff
  largeSubstreams_iff := parse_eq_largeSubstreams_iff
  cursor_eq := cursor_readInWords
  replies_eq hsize hle :=
    ⟨_, _, replies_readInWords hsize hle, fun hsignature hnonneg => parse_of_total_le hsignature hnonneg hle⟩

/-- Two modules, of which the first is filled up and the last is not, and three numbers of streams. -/
def twoModules : StoredModuleList where
  version := 19990903
  age := 3
  globals := 5
  build := 0x8e1d
  publics := 6
  library := 0
  symbolRecords := 7
  libraryBuild := 0
  typeServer := 0
  flags := 0
  machine := 0x8664
  unused := 0
  modules := [
    ⟨⟨"a.c", "libab", 9, 4, 0, 8⟩, List.replicate 34 1, List.replicate 16 2, [0, 0], by decide, by decide, by decide,
      by decide, by decide⟩,
    ⟨⟨"b", "", 0xFFFF, 0, 0, 0⟩, List.replicate 34 3, List.replicate 16 4, [0], by decide, by decide, by decide,
      by decide, by decide⟩]
  fillLast := false
  contributions := [1, 2, 3]
  sectionMap := []
  sources := [4]
  typeServers := []
  editNames := [5, 6]
  imageStreams := [8, 0xFFFF, 10]

/-- A header whose sizes are not negative, but together far more than a word can tell. -/
def hugeSizes : Bytes :=
  (leBytes 4 0xFFFFFFFF ++ List.replicate 20 0 ++ (List.replicate 8 (leBytes 4 0x7FFFFFFF)).flatten ++
    List.replicate 8 0).toArray

theorem fits_twoModules : twoModules.Fits := by
  refine ⟨?_, ?_, ?_, ?_, ?_, ?_, ?_⟩ <;> decide +kernel

theorem readsModules_twoModules : twoModules.Fits ∧ ReadsModules twoModules hugeSizes ∧
    parse hugeSizes = .error .largeSubstreams :=
  ⟨fits_twoModules, readsModules fits_twoModules hugeSizes, by decide +kernel⟩

end ModuleList

end CodeAtlas.Database
