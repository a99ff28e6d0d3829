import CodeAtlas.Proofs.Database.StoredProgram
import CodeAtlas.Proofs.Permalink.Memo

namespace CodeAtlas.Database

open Permalink Memo

/-- What the source index says about a path, or else what the path itself tells. -/
def pathPermalink? (index : Option SourceIndex) (path : Text) : Option Permalink :=
  (index.bind (·.permalink? path)).or (ofRustc? path)

def plainFrame (index : Option SourceIndex) (f : RecordedFrame) : Frame :=
  ⟨f.function, f.file.map fun path => ⟨path, pathPermalink? index path⟩, f.line⟩

/-- The answer as it is without any memo. -/
def plainAnswer [Demangler] (index : Option SourceIndex) (f : FunctionFrames) : Option Answer :=
  f.frames.getLast?.map fun outermost =>
    ⟨⟨f.start, f.stop.map (· - f.start), (outermost.function.map Mangled.readable).getD "unknown"⟩,
      if f.hasDebugInfo then some (.known (f.frames.map (plainFrame index))) else none⟩

def plainLookup [Demangler] (frames : FrameSource) (index : Option SourceIndex) : Address → Option Answer
  | .relative rva => (frames.frames? rva).bind (plainAnswer index)
  | _ => none

variable {index : Option SourceIndex}

theorem run_mapPath (path : Text) (m : Memo) : (mapPath index path).run m = match m.answers.lookup path with
    | some known => (known, m)
    | none => (pathPermalink? index path, ⟨(path, pathPermalink? index path) :: m.answers⟩) := by
  change (((resolve (askIndex index) path).run m).run ⟨⟩).1 = _
  rw [run_resolve]
  cases m.answers.lookup path with
  | some known => rfl
  | none => rfl

theorem settles_mapPath (path : Text) :
    Settles (pathPermalink? index) (mapPath index path) (pathPermalink? index path) := by
  intro m hm
  rw [run_mapPath]
  cases hknown : m.answers.lookup path with
  | some known => exact ⟨hm path known hknown, hm⟩
  | none => exact ⟨rfl, hm.keep path⟩

theorem settles_frame (f : RecordedFrame) : Settles (pathPermalink? index) (frame index f) (plainFrame index f) := by
  rw [frame, plainFrame]
  cases f.file with
  | none => exact settles_pure _
  | some path => exact (settles_mapPath path).bind (settles_pure _)

theorem settles_answer [Demangler] (f : FunctionFrames) :
    Settles (pathPermalink? index) (answer index f) (plainAnswer index f) := by
  rw [answer, plainAnswer]
  cases f.frames.getLast? with
  | none => exact settles_pure _
  | some outermost =>
    dsimp only
    cases hinfo : f.hasDebugInfo with
    | true =>
      exact (settles_mapM settles_frame f.frames).bind (settles_pure _)
    | false => exact settles_pure _

theorem settles_lookup [Demangler] (frames : FrameSource) (a : Address) :
    Settles (pathPermalink? index) (lookup frames index a) (plainLookup frames index a) := by
  cases a with
  | relative rva =>
    rw [lookup, plainLookup]
    cases frames.frames? rva with
    | none => exact settles_pure _
    | some f => exact settles_answer f
  | preferred address => exact settles_pure _
  | fileOffset offset => exact settles_pure _

/-- Each answer is the one that symbols give which have not been asked before, and what is kept for later lookups is
what the source index and the toolchain's rule say of the paths. -/
structure HistoryFree (index : Option SourceIndex) (source : SymbolSource (StateM Memo)) : Prop where
  lookupAll_eq : ∀ addresses, ((source.lookupAll addresses).run .empty).1 =
    addresses.map fun a => ((source.lookup a).run .empty).1
  lookup_after : ∀ before a, ((source.lookup a).run ((source.lookupAll before).run .empty).2).1 =
    ((source.lookup a).run .empty).1
  remembered : ∀ before path found, ((source.lookupAll before).run .empty).2.answers.lookup path = some found →
    found = pathPermalink? index path

theorem historyFree_of_settles {source : SymbolSource (StateM Memo)} {plain : Address → Option Answer}
    (h : ∀ a, Settles (pathPermalink? index) (source.lookup a) (plain a)) : HistoryFree index source := by
  have hstart := faithful_empty (pathPermalink? index)
  have hall : ∀ addresses, Settles (pathPermalink? index) (source.lookupAll addresses) (addresses.map plain) :=
    fun addresses => settles_mapM h addresses
  constructor
  · intro addresses
    rw [(hall addresses _ hstart).1]
    exact List.map_congr_left fun a _ => (h a _ hstart).1.symm
  · intro before a
    rw [(h a _ (hall before _ hstart).2).1, (h a _ hstart).1]
  · intro before
    exact (hall before _ hstart).2

theorem historyFree_of_openSymbols [Sorting] [Demangler] {data : Bytes} {source : SymbolSource (StateM Memo)}
    (h : openSymbols data = .ok source) :
    ∃ db index, Database.parse data = .ok db ∧ db.sourceIndex = .ok index ∧ HistoryFree index source := by
  obtain ⟨db, hdb, h⟩ := bind_eq_ok_iff.mp h
  obtain ⟨index, hindex, h⟩ := bind_eq_ok_iff.mp h
  cases h
  exact ⟨db, index, hdb, hindex, historyFree_of_settles (settles_lookup _)⟩

open scoped Sorting Demangler

def sampleIndex : SourceIndex := ⟨[("VERSION", "1")], [("SRCSRVTRG", "http://h/%var1%")], [["c.c"]]⟩

theorem historyFree_sampleFile : ∃ source, openSymbols sampleFile = .ok source ∧ HistoryFree (some sampleIndex) source ∧
    ((source.lookup (.relative 0x1026)).run .empty).1.isSome = true := by
  obtain ⟨c, hc, hs⟩ := exists_sampleContainer
  have hparse := parse_sampleFile hc hs
  have hindex : (sampleDatabase c).sourceIndex = .ok (some sampleIndex) := by
    have hnumber : (sampleDatabase c).info.find? "srcsrv" = some 7 :=
      (by decide : sampleInfo.find? "srcsrv" = some 7)
    have hstream : streamBytes (sampleDatabase c).container (7 : UInt32).toNat = .ok sampleIndexText.toArray :=
      streamBytes_of_hasStreams hs (rfl : sampleProgram[7]? = _)
    have hnamed : (sampleDatabase c).namedStream "srcsrv" = .ok (some sampleIndexText.toArray) := by
      rw [namedStream, hnumber]
      dsimp only
      rw [hstream]
      rfl
    have htext : SourceIndex.parse sampleIndexText.toArray.toList = .ok sampleIndex := by decide +kernel
    rw [sourceIndex, hnamed]
    simp only [bind, Except.bind, htext]
    rfl
  have hopen : openSymbols sampleFile = .ok (symbolSource (sampleDatabase c).debugId
      (FunctionTable.build (sampleDatabase c)).frameSource (some sampleIndex)) := by
    rw [openSymbols, hparse]
    simp only [bind, Except.bind, hindex]
    rfl
  obtain ⟨db, index, hdb, hindex', hfree⟩ := historyFree_of_openSymbols hopen
  cases hparse.symm.trans hdb
  cases hindex.symm.trans hindex'
  refine ⟨_, hopen, hfree, ?_⟩
  change ((lookup _ _ (.relative 0x1026)).run .empty).1.isSome = true
  rw [(settles_lookup _ _ .empty (faithful_empty _)).1, build_sampleDatabase hs]
  change ((sampleTable.frames? 0x1026).bind _).isSome = true
  rw [frames?_sampleTable]
  rfl

end CodeAtlas.Database
