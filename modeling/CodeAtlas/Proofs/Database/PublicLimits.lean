import CodeAtlas.Proofs.Database.FunctionIndex
import CodeAtlas.Proofs.Database.StoredProgram
import CodeAtlas.Proofs.Image.SectionSpans

namespace CodeAtlas.Database

def imageSections? (db : Database) : Option (List Section) :=
  db.modules.bind fun modules => (numberedStream? db.container modules.imageStreams.sections).map Section.table

/-- The sections as they were before code was moved, if it was moved. -/
def linkedSections? (db : Database) : Option (List Section) :=
  db.modules.bind fun modules =>
    ((numberedStream? db.container modules.imageStreams.omapFromSource).filter (0 < ·.size)).bind fun _ =>
      (numberedStream? db.container modules.imageStreams.linkedSections).map Section.table

/-- The sections that are kept are those before the moves, wherever there are moves. -/
theorem sections_readAddresses [Sorting] (c : Container) (streams : ImageStreams) : (readAddresses c streams).sections =
    (((numberedStream? c streams.omapFromSource).filter (0 < ·.size)).bind fun _ =>
      (numberedStream? c streams.linkedSections).map Section.table).getD
        (((numberedStream? c streams.sections).map Section.table).getD []) := by
  unfold readAddresses numberedStream?
  dsimp only
  generalize (if streams.omapFromSource = nilStream then none
    else streamBytes? c streams.omapFromSource.toNat).filter (0 < ·.size) = moves?
  generalize (if streams.linkedSections = nilStream then none
    else streamBytes? c streams.linkedSections.toNat) = linked?
  generalize (if streams.sections = nilStream then none else streamBytes? c streams.sections.toNat) = sections?
  cases moves? <;> cases linked? <;> cases sections? <;> rfl

theorem sections_of_parse [Sorting] {data : Bytes} {db : Database} (h : Database.parse data = .ok db) :
    db.addresses.sections = db.linkedSections?.getD (db.imageSections?.getD []) := by
  obtain ⟨c, -, h⟩ := bind_eq_ok_iff.mp h
  obtain ⟨infoData, -, h⟩ := bind_eq_ok_iff.mp h
  obtain ⟨info, -, h⟩ := bind_eq_ok_iff.mp h
  obtain ⟨modules, -, h⟩ := bind_eq_ok_iff.mp h
  cases h
  cases modules with
  | none => rfl
  | some modules => exact sections_readAddresses c modules.imageStreams

def ProgramFunction.symbol [Demangler] (f : ProgramFunction) : Symbol :=
  ⟨f.start, f.stop.map (· - f.start), if f.name = [] then "unknown" else Mangled.readable f.name⟩

theorem map_symbol_answer [Demangler] {index : Option SourceIndex} {f : FunctionFrames} {outermost : RecordedFrame}
    (h : f.frames.getLast? = some outermost) (memo : Permalink.Memo) :
    (((answer index f).run memo).1).map (·.symbol) =
      some ⟨f.start, f.stop.map (· - f.start), (outermost.function.map Mangled.readable).getD "unknown"⟩ := by
  unfold answer
  rw [h]
  dsimp only
  split
  next => rfl
  next => rfl

/-- Whatever is remembered of earlier lookups, an address is answered with the symbol of the function around it. -/
theorem map_symbol_lookup [Demangler] (t : FunctionTable) (index : Option SourceIndex) (rva : UInt32)
    (memo : Permalink.Memo) :
    (((lookup t.frameSource index (.relative rva)).run memo).1).map (·.symbol) =
      (t.function? rva).map ProgramFunction.symbol := by
  have hframes : t.frameSource.frames? rva = t.frames? rva := rfl
  rw [lookup, hframes, FunctionTable.frames?]
  cases t.function? rva with
  | none => rfl
  | some f =>
    rw [Option.map_some, Option.map_some]
    dsimp only
    rw [map_symbol_answer List.getLast?_concat, ProgramFunction.symbol, FunctionTable.ownFrame]
    cases f.name with
    | nil => rfl
    | cons b name => rfl

/-- The symbol of a public function: it has no size, and one without a name gets a placeholder. -/
def publicSymbol [Demangler] (q : UInt32 × Text) : Symbol :=
  ⟨q.1, none, if q.2 = [] then "unknown" else Mangled.readable q.2⟩

namespace FunctionTable

variable {sections : List Section} {start rva : UInt32} {next : Option UInt32}

/-- Addresses from the start of a function on are below its limit if they are before the next function and in the
section of the start. Where there is neither, only the start is; the last address never is. -/
theorem lt_lookupLimit_iff (hle : start ≤ rva) : rva < lookupLimit sections start next ↔ rva < 0xFFFFFFFF ∧
    (∀ n, next = some n → rva < n) ∧ (∀ s, Section.find? sections start = some s → s.Spans rva.toNat) ∧
    (next = none → Section.find? sections start = none → rva = start) := by
  have htop : (0xFFFFFFFF : UInt32).toNat = 0xFFFFFFFF := rfl
  have hfound : ∀ s, Section.find? sections start = some s → (s.Spans rva.toNat ↔ rva.toNat < s.exactStop) :=
    fun s hs => Section.spans_iff_of_find? hs hle
  rw [UInt32.le_iff_toNat_le] at hle
  unfold lookupLimit
  simp only [UInt32.lt_iff_toNat_lt, UInt32.toNat_ofNat', htop, ← UInt32.toNat_inj]
  cases hs : Section.find? sections start with
  | none =>
    cases next with
    | none =>
      simp only [reduceCtorEq, false_implies, implies_true, true_and, forall_const]
      omega
    | some n =>
      simp only [reduceCtorEq, false_implies, implies_true, and_true, Option.some.injEq, forall_eq']
      omega
  | some s =>
    have hspans := hfound s hs
    rw [Section.exactStop] at hspans
    cases next with
    | none =>
      simp only [reduceCtorEq, false_implies, implies_true, and_true, true_and, Option.some.injEq, forall_eq', hspans]
      omega
    | some n =>
      simp only [reduceCtorEq, false_implies, and_true, Option.some.injEq, forall_eq', hspans]
      omega

variable {db : Database} {q : UInt32 × Text}

theorem eq_of_symbol_eq [Demangler] {f : ProgramFunction} (h : f.symbol = publicSymbol q) :
    f.start = q.1 ∧ f.stop = none := by
  refine ⟨congrArg Symbol.start h, ?_⟩
  have hsize := congrArg Symbol.size h
  exact Option.map_eq_none_iff.mp hsize

/-- A public symbol has a function of its own if no procedure and no public symbol before it has its address. -/
theorem exists_public [Sorting] [Demangler] (hfirst : (publicRecords db).find? (·.1 == q.1) = some q)
    (hnone : (numberedProcedures db).find? (·.2.rva == q.1) = none) :
    ∃ f ∈ (build db).functions.toList, f.start = q.1 ∧ f.stop = none ∧ f.symbol = publicSymbol q := by
  have hfind := find?_build db q.1
  rw [hnone, hfirst, Option.map_none, Option.none_or, Option.map_some] at hfind
  obtain ⟨f, hf, heq⟩ := Option.map_eq_some_iff.mp hfind
  have hstart : f.start = q.1 := congrArg FunctionOutline.start heq
  have hstop : f.stop = none := congrArg FunctionOutline.stop heq
  have hname : f.name = q.2 := congrArg FunctionOutline.name heq
  refine ⟨f, List.mem_of_find?_eq_some hf, hstart, hstop, ?_⟩
  rw [ProgramFunction.symbol, publicSymbol, hstart, hstop, hname]
  rfl

theorem lt_limit_iff [Sorting] {f : ProgramFunction} (hf : f ∈ (build db).functions.toList) (hstop : f.stop = none)
    (hle : f.start ≤ rva) (hgreatest : ∀ g ∈ (build db).functions.toList, g.start ≤ rva → g.start ≤ f.start) :
    rva < f.limit ↔ rva < 0xFFFFFFFF ∧
      (∀ s, Section.IsFirst db.addresses.sections f.start.toNat s → s.Spans rva.toNat) ∧
      ((∀ s, ¬Section.IsFirst db.addresses.sections f.start.toNat s) →
        (∀ g ∈ (build db).functions.toList, g.start ≤ f.start) → rva = f.start) := by
  obtain ⟨k, hk⟩ := List.mem_iff_getElem?.mp hf
  have hinc := increasing_build db
  -- The next function starts behind the address, or it would be the one with the greatest start.
  have hnext : ∀ n, (build db).functions.toList[k + 1]?.map (·.start) = some n → rva < n := by
    intro n hn
    obtain ⟨g, hg, rfl⟩ := Option.map_eq_some_iff.mp hn
    refine UInt32.not_le.mp fun hgle => ?_
    exact UInt32.not_le.mpr (hinc.lt_next hk hn) (hgreatest g (List.mem_of_getElem? hg) hgle)
  rw [limit_build hk hstop, lt_lookupLimit_iff hle, hinc.next_eq_none_iff hk]
  simp only [Section.find?_eq_some_iff, Option.eq_none_iff_forall_ne_some, ne_eq]
  constructor
  · rintro ⟨htop, -, hspans, hlast⟩
    exact ⟨htop, hspans, fun hsection hall => hlast hall hsection⟩
  · rintro ⟨htop, hspans, hlast⟩
    exact ⟨htop, hnext, hspans, fun hall hsection => hlast hsection hall⟩

end FunctionTable

open FunctionTable

/-- An address is answered with this symbol, when this is remembered of earlier lookups. -/
def AnswersWith (source : SymbolSource Remembering) (memo : Permalink.Memo) (s : Symbol) (rva : UInt32) : Prop :=
  (((source.lookup (.relative rva)).run memo).1).map (·.symbol) = some s

/-- The sections that public functions do not leave: those before the moves, wherever there are moves. -/
def limitingSections (db : Database) : List Section := db.linkedSections?.getD (db.imageSections?.getD [])

section Answering

variable {db : Database} {id : DebugId} {index : Option SourceIndex} {memo : Permalink.Memo} {rva : UInt32}
  {q : UInt32 × Text}

theorem answersWith_iff [Sorting] [Demangler] {s : Symbol} :
    AnswersWith (symbolSource id (build db).frameSource index) memo s rva ↔
      ∃ f, (build db).function? rva = some f ∧ f.symbol = s := by
  have hlookup := map_symbol_lookup (build db) index rva memo
  change (((lookup (build db).frameSource index (.relative rva)).run memo).1).map (·.symbol) = some s ↔ _
  rw [hlookup, Option.map_eq_some_iff]

theorem spans_of_answersWith [Sorting] [Demangler]
    (h : AnswersWith (symbolSource id (build db).frameSource index) memo (publicSymbol q) rva)
    {s : Section} (hs : Section.IsFirst db.addresses.sections q.1.toNat s) : s.Spans rva.toNat := by
  obtain ⟨f, hf, hsymbol⟩ := answersWith_iff.mp h
  obtain ⟨hmem, hle, hgreatest, hlimit⟩ := (function?_eq_some_iff (increasing_build db)).mp hf
  obtain ⟨hstart, hstop⟩ := eq_of_symbol_eq hsymbol
  rw [hstop, Option.getD_none] at hlimit
  exact ((lt_limit_iff hmem hstop hle hgreatest).mp hlimit).2.1 s (hstart ▸ hs)

theorem answersWith_public_iff [Sorting] [Demangler] (hfirst : (publicRecords db).find? (·.1 == q.1) = some q)
    (hnone : (numberedProcedures db).find? (·.2.rva == q.1) = none) :
    AnswersWith (symbolSource id (build db).frameSource index) memo (publicSymbol q) rva ↔
      q.1 ≤ rva ∧ rva < 0xFFFFFFFF ∧ (∀ f ∈ (build db).functions.toList, f.start ≤ rva → f.start ≤ q.1) ∧
        (∀ s, Section.IsFirst db.addresses.sections q.1.toNat s → s.Spans rva.toNat) ∧
        ((∀ s, ¬Section.IsFirst db.addresses.sections q.1.toNat s) →
          (∀ f ∈ (build db).functions.toList, f.start ≤ q.1) → rva = q.1) := by
  have hinc := increasing_build db
  obtain ⟨f, hmem, hstart, hstop, hsymbol⟩ := exists_public hfirst hnone
  have hanswers : AnswersWith (symbolSource id (build db).frameSource index) memo (publicSymbol q) rva ↔
      (build db).function? rva = some f := by
    -- No other function has this start, so an answer with the symbol is an answer with the function.
    refine answersWith_iff.trans ⟨?_, fun h => ⟨f, h, hsymbol⟩⟩
    rintro ⟨g, hg, heq⟩
    have hgmem := ((function?_eq_some_iff hinc).mp hg).1
    rwa [hinc.eq_of_key_eq hgmem hmem ((eq_of_symbol_eq heq).1.trans hstart.symm)] at hg
  rw [hanswers, function?_eq_some_iff hinc, hstop, Option.getD_none, ← hstart, and_iff_right hmem]
  constructor
  · rintro ⟨hle, hgreatest, hlimit⟩
    obtain ⟨htop, hlimit⟩ := (lt_limit_iff hmem hstop hle hgreatest).mp hlimit
    exact ⟨hle, htop, hgreatest, hlimit⟩
  · rintro ⟨hle, htop, hgreatest, hlimit⟩
    exact ⟨hle, hgreatest, (lt_limit_iff hmem hstop hle hgreatest).mpr ⟨htop, hlimit⟩⟩

end Answering

/-- How far the functions among the public symbols reach, where these are the procedures and the functions that the
symbols of the database describe. -/
structure LimitsPublics [Demangler] (db : Database) (procedures : List (Nat × Procedure))
    (publics : List (UInt32 × Text)) (source : SymbolSource Remembering) : Prop where
  /-- Where no code was moved, a public function ends with the section of the image that its start lies in. -/
  inside : db.linkedSections? = none → ∀ sections, db.imageSections? = some sections → ∀ q ∈ publics, ∀ s,
    Section.IsFirst sections q.1.toNat s → ∀ memo rva, AnswersWith source memo (publicSymbol q) rva → s.Spans rva.toNat
  /-- Otherwise it ends with a section that took up the address before code was moved. -/
  inside_linked : ∀ sections, db.linkedSections? = some sections → ∀ q ∈ publics, ∀ s,
    Section.IsFirst sections q.1.toNat s → ∀ memo rva, AnswersWith source memo (publicSymbol q) rva → s.Spans rva.toNat
  /-- The addresses that are answered with a public symbol which no procedure and no other public symbol hides. -/
  answers_iff : ∀ q, publics.find? (·.1 == q.1) = some q → procedures.find? (·.2.rva == q.1) = none → ∀ memo rva,
    (AnswersWith source memo (publicSymbol q) rva ↔ q.1 ≤ rva ∧ rva < 0xFFFFFFFF ∧
      (∀ e ∈ source.symbols, e.1 ≤ rva → e.1 ≤ q.1) ∧
      (∀ s, Section.IsFirst (limitingSections db) q.1.toNat s → s.Spans rva.toNat) ∧
      ((∀ s, ¬Section.IsFirst (limitingSections db) q.1.toNat s) → (∀ e ∈ source.symbols, e.1 ≤ q.1) → rva = q.1))

theorem limitsPublics_of_openSymbols [Sorting] [Demangler] {data : Bytes} {db : Database}
    {procedures : List (Nat × Procedure)} {publics : List (UInt32 × Text)} {source : SymbolSource Remembering}
    (hdb : Database.parse data = .ok db) (hdescribes : Describes db procedures publics)
    (hsource : openSymbols data = .ok source) : LimitsPublics db procedures publics source := by
  obtain ⟨db', hdb', hsource⟩ := bind_eq_ok_iff.mp hsource
  cases Except.ok.inj (hdb.symm.trans hdb')
  obtain ⟨index, -, hsource⟩ := bind_eq_ok_iff.mp hsource
  cases hsource
  obtain ⟨rfl, rfl⟩ := describes_iff.mp hdescribes
  have hsections : db.addresses.sections = limitingSections db := sections_of_parse hdb
  refine ⟨?_, ?_, ?_⟩
  · intro hlinked sections himage q _ s hs memo rva h
    refine spans_of_answersWith h (?_ : Section.IsFirst _ _ s)
    rwa [hsections, limitingSections, hlinked, himage]
  · intro sections hlinked q _ s hs memo rva h
    refine spans_of_answersWith h (?_ : Section.IsFirst _ _ s)
    rwa [hsections, limitingSections, hlinked]
  · intro q hfirst hnone memo rva
    rw [answersWith_public_iff hfirst hnone, hsections]
    simp only [symbolSource, frameSource, List.map_map, List.forall_mem_map, Function.comp_apply]

open scoped Sorting Demangler

section Rearranged

def rearrangedModuleStream : Bytes :=
  smallModuleStream.extract 0 64 ++ .replicate 8 0xff ++ #[8, 0, 6, 0] ++ .replicate 8 0xff ++ #[7, 0]

def imageSectionStream : Bytes := #[0x2e, 0x74, 0x65, 0x78, 0x74, 0, 0, 0, 0, 1, 0, 0, 0, 0x50] ++ .replicate 26 0

def linkedSectionStream : Bytes :=
  smallSectionStream ++ #[0x2e, 0x72, 0x73, 0x72, 0x63, 0, 0, 0, 0, 0x30, 0, 0, 0, 0x40] ++ .replicate 26 0

def moveStream : Bytes := #[0, 0x10, 0, 0, 0, 0x50, 0, 0]

/-- The code was moved to where another section lay when the program was linked. -/
def rearrangedProgram : List (Option Bytes) :=
  [some #[], some smallInfoStream, none, some rearrangedModuleStream, none, some smallSymbolStream,
    some imageSectionStream, some linkedSectionStream, some moveStream]

def rearrangedFile : Bytes := inBlocks.file rearrangedProgram fun _ => 0

def rearrangedModules : ModuleList :=
  { smallModules with
    imageStreams := ⟨0xffff, 0xffff, 0xffff, 0xffff, 8, 6, 0xffff, 0xffff, 0xffff, 0xffff, 7⟩ }

def rearrangedAddresses : AddressMap :=
  ⟨[⟨".text", 0x100, 0x1000, 0, 0, 0⟩, ⟨".rsrc", 0x3000, 0x4000, 0, 0, 0⟩], #[⟨0x1000, 0x5000⟩]⟩

def rearrangedPublic : UInt32 × Text := (0x5010, "f")

def rearrangedDatabase (c : Container) : Database :=
  ⟨c, smallInfo, some rearrangedModules, rearrangedAddresses, none, none, none⟩

theorem exists_rearrangedContainer : ∃ c, Container.parse rearrangedFile = .ok c ∧ c.HasStreams rearrangedProgram :=
  (stores_inBlocks (by decide) (by decide +kernel) fun _ => 0).parse

variable {c : Container} (h : c.HasStreams rearrangedProgram)

include h

theorem imageSections?_rearranged :
    (rearrangedDatabase c).imageSections? = some [⟨".text", 0x100, 0x5000, 0, 0, 0⟩] := by
  have hstream : numberedStream? c rearrangedModules.imageStreams.sections = some imageSectionStream := by
    rw [numberedStream?, if_neg (by decide)]
    exact streamBytes?_of_hasStreams h (rfl : rearrangedProgram[6]? = _)
  have htable : Section.table imageSectionStream = [⟨".text", 0x100, 0x5000, 0, 0, 0⟩] := by decide +kernel
  change (numberedStream? c rearrangedModules.imageStreams.sections).map Section.table = _
  rw [hstream, Option.map_some, htable]

theorem readAddresses_rearranged : readAddresses c rearrangedModules.imageStreams = rearrangedAddresses := by
  have hmoves : streamBytes? c rearrangedModules.imageStreams.omapFromSource.toNat = some moveStream :=
    streamBytes?_of_hasStreams h (rfl : rearrangedProgram[8]? = _)
  have hlinked : streamBytes? c rearrangedModules.imageStreams.linkedSections.toNat = some linkedSectionStream :=
    streamBytes?_of_hasStreams h (rfl : rearrangedProgram[7]? = _)
  have hsome : rearrangedModules.imageStreams.omapFromSource ≠ nilStream ∧
      rearrangedModules.imageStreams.linkedSections ≠ nilStream := by decide
  have htable : Section.table linkedSectionStream = rearrangedAddresses.sections ∧
      Move.table moveStream = [⟨0x1000, 0x5000⟩] := by decide +kernel
  have hsize : decide (0 < moveStream.size) = true := rfl
  simp only [readAddresses, if_neg hsome.1, if_neg hsome.2, hmoves, hlinked, Option.filter_some, hsize, ↓reduceIte,
    htable, AddressMap.make, Sorting.sort_singleton]
  rfl

theorem parse_rearrangedFile (hc : Container.parse rearrangedFile = .ok c) :
    Database.parse rearrangedFile = .ok (rearrangedDatabase c) := by
  have hlist : ModuleList.parse rearrangedModuleStream = .ok rearrangedModules := by decide +kernel
  have hcontainer := ofContainer_of_hasStreams h rfl rfl (by decide) parse_smallInfoStream hlist rfl rfl
  rw [readAddresses_rearranged h] at hcontainer
  rw [Database.parse, hc]
  exact hcontainer

theorem publicRecords_rearranged : publicRecords (rearrangedDatabase c) = [rearrangedPublic] := by
  have hstream : streamBytes? c rearrangedModules.symbolRecords.toNat = some smallSymbolStream :=
    streamBytes?_of_hasStreams h (rfl : rearrangedProgram[5]? = _)
  have hsymbols : publicSymbols (rearrangedDatabase c) = smallSymbolStream := by
    change (numberedStream? c rearrangedModules.symbolRecords).getD #[] = _
    rw [numberedStream?, if_neg (by decide), hstream, Option.getD_some]
  have hlist : PublicFunction.list rearrangedAddresses smallSymbolStream = [rearrangedPublic] := by decide +kernel
  rw [publicRecords, hsymbols]
  exact hlist

theorem openSymbols_rearrangedFile (hc : Container.parse rearrangedFile = .ok c) : openSymbols rearrangedFile =
    .ok (symbolSource (rearrangedDatabase c).debugId (build (rearrangedDatabase c)).frameSource none) := by
  rw [openSymbols, parse_rearrangedFile h hc]
  rfl

theorem answersWith_rearranged {id : DebugId} :
    AnswersWith (symbolSource id (build (rearrangedDatabase c)).frameSource none) .empty
      (publicSymbol rearrangedPublic) 0x5800 := by
  have hpublic := publicRecords_rearranged h
  have hfirst : (rearrangedDatabase c).publicRecords.find? (·.1 == rearrangedPublic.1) = some rearrangedPublic := by
    rw [hpublic]
    rfl
  have hall : ∀ f ∈ (build (rearrangedDatabase c)).functions.toList, f.start = rearrangedPublic.1 := by
    intro f hf
    obtain ⟨p, hp, -⟩ | ⟨q, hq, hstart⟩ := (start_build_iff _ f.start).mp ⟨f, hf, rfl⟩
    · cases hp
    · rw [hpublic, List.mem_singleton] at hq
      rw [← hstart, hq]
  -- Among the sections before the move, the new place of the code is in another one, which reaches further.
  have hsection : Section.find? (rearrangedDatabase c).addresses.sections 0x5010 =
      some ⟨".rsrc", 0x3000, 0x4000, 0, 0, 0⟩ := by
    change Section.find? rearrangedAddresses.sections 0x5010 = _
    decide
  refine (answersWith_public_iff hfirst rfl).mpr ⟨by decide, by decide, ?_, ?_, ?_⟩
  · intro f hf _
    exact UInt32.le_of_eq (hall f hf)
  · intro s hs
    cases hsection.symm.trans (Section.find?_eq_some_iff.mpr hs)
    exact ⟨by decide, by decide⟩
  · intro hnone
    exact absurd (Section.find?_eq_some_iff.mp hsection) (hnone _)

end Rearranged

theorem limitsPublics_rearrangedFile : ∃ db procedures publics source, Database.parse rearrangedFile = .ok db ∧
    Describes db procedures publics ∧ openSymbols rearrangedFile = .ok source ∧
    LimitsPublics db procedures publics source := by
  obtain ⟨c, hc, h⟩ := exists_rearrangedContainer
  have hparse := parse_rearrangedFile h hc
  have hdescribes := describes_iff.mpr ⟨rfl, publicRecords_rearranged h⟩
  have hopen := openSymbols_rearrangedFile h hc
  exact ⟨_, _, _, _, hparse, hdescribes, hopen, limitsPublics_of_openSymbols hparse hdescribes hopen⟩

/-- An address outside the section of the image that the function is in is put down to the function. -/
theorem leavesSection_rearrangedFile : ∃ db procedures publics source sections s,
    Database.parse rearrangedFile = .ok db ∧ Describes db procedures publics ∧
    openSymbols rearrangedFile = .ok source ∧ db.imageSections? = some sections ∧
    rearrangedPublic ∈ publics ∧ Section.IsFirst sections rearrangedPublic.1.toNat s ∧
    AnswersWith source .empty (publicSymbol rearrangedPublic) 0x5800 ∧ ¬s.Spans 0x5800 := by
  obtain ⟨c, hc, h⟩ := exists_rearrangedContainer
  have hdescribes := describes_iff.mpr ⟨rfl, publicRecords_rearranged h⟩
  have hfind : Section.find? [⟨".text", 0x100, 0x5000, 0, 0, 0⟩] 0x5010 = some ⟨".text", 0x100, 0x5000, 0, 0, 0⟩ := by
    decide
  exact ⟨_, _, _, _, _, _, parse_rearrangedFile h hc, hdescribes, openSymbols_rearrangedFile h hc,
    imageSections?_rearranged h, List.mem_singleton_self _, Section.find?_eq_some_iff.mp hfind,
    answersWith_rearranged h, fun hs => absurd hs.2 (by decide)⟩

end CodeAtlas.Database
