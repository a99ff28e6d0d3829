import CodeAtlas.Proofs.Database.FunctionIndex
import CodeAtlas.Proofs.Database.PathNumbers

namespace CodeAtlas.Database

structure InlineSource where
  depth : Nat
  name : Option Text
  spans : List SourceSpan

structure FunctionSource where
  start : UInt32
  stop : Option UInt32
  name : Text
  inlined : List InlineSource

def InlinedFunction.source (t : PathTable) (i : InlinedFunction) : InlineSource :=
  ⟨i.depth, i.name, i.spans.toList.map (·.source t)⟩

def ProgramFunction.source (t : PathTable) (f : ProgramFunction) : FunctionSource :=
  ⟨f.start, f.stop, f.name, f.inlined.map (·.source t)⟩

/-- The ranges of an inlined function in the order of their offsets. -/
def InlineCall.sortedRanges [Sorting] (c : InlineCall) : List InlineRange := Sorting.sort InlineRange.offset c.ranges

def InlineCall.source [Sorting] (names : FunctionNames) (path? : UInt32 → Option Text) (p : Procedure)
    (c : InlineCall) : InlineSource :=
  ⟨c.depth, names.nameOf? c.inlinee, (FunctionTable.inlineSpans p c.sortedRanges).map (·.source path?)⟩

/-- What the records say about a function: a procedure with the functions that were inlined into it, in the order of
their records, and the files of its module, or a public symbol. -/
structure FunctionRecord where
  start : UInt32
  length : Option UInt32
  name : Text
  calls : List InlineCall
  files : List (UInt32 × UInt32)

namespace FunctionRecord

def stop (r : FunctionRecord) : Option UInt32 := r.length.map (r.start + ·)

def procedure (r : FunctionRecord) : Procedure := ⟨r.start, r.length.getD 0, r.name⟩

def source [Sorting] (strings : Option Strings) (names : FunctionNames) (r : FunctionRecord) : FunctionSource :=
  ⟨r.start, r.stop, r.name, r.calls.map (·.source names (recordedPath? strings r.files) r.procedure)⟩

def ofModule (m : ModuleRecords) : List FunctionRecord :=
  m.procedures.zipIdx.map fun (p, i) => ⟨p.rva, some p.length, p.name, m.calls.filter (·.procedure == i), m.files⟩

def ofPublic (q : UInt32 × Text) : FunctionRecord := ⟨q.1, none, q.2, [], []⟩

end FunctionRecord

namespace FunctionTable

open PathTable

variable {strings : Option Strings} {names : FunctionNames}

theorem denotes_inlinedFunction [Sorting] (files : List (UInt32 × UInt32)) (p : Procedure) (c : InlineCall) :
    Denotes (inlinedFunction (pathNumber strings files) names p c) fun t i =>
      i.source t = c.source names (recordedPath? strings files) p := by
  refine (denotes_mapM (denotes_lineSpan strings files) _).bind fun spans => denotes_pure fun t hspans => ?_
  rw [InlinedFunction.source, hspans]
  rfl

/-- The calls that were inlined into procedures that exist. -/
def numberedSources [Sorting] (names : FunctionNames) (path? : UInt32 → Option Text) (procedures : Array Procedure)
    (calls : List InlineCall) : List (Nat × InlineSource) :=
  calls.filterMap fun c => procedures[c.procedure]?.map fun p => (c.procedure, c.source names path? p)

theorem denotes_inlinedFunctions [Sorting] (files : List (UInt32 × UInt32)) (procedures : Array Procedure)
    (calls : List InlineCall) :
    Denotes (inlinedFunctions (pathNumber strings files) names procedures calls) fun t fs =>
      fs.map (fun f => (f.1, f.2.source t)) = numberedSources names (recordedPath? strings files) procedures calls := by
  induction calls with
  | nil => exact denotes_pure fun t => rfl
  | cons c calls ih =>
    rw [inlinedFunctions, numberedSources, List.filterMap_cons]
    cases procedures[c.procedure]? with
    | none => exact ih
    | some p =>
      refine (denotes_inlinedFunction files p c).bind fun i => ih.bind fun fs => denotes_pure fun t hfs hi => ?_
      rw [List.map_cons, hfs]
      exact congrArg (fun source => (c.procedure, source) :: _) hi

/-- The functions that were inlined into one procedure are those of its calls. -/
theorem own_numberedSources [Sorting] {path? : UInt32 → Option Text} {procedures : Array Procedure} {i : Nat}
    {p : Procedure} (hp : procedures[i]? = some p) (calls : List InlineCall) :
    ((numberedSources names path? procedures calls).filter (·.1 == i)).map (·.2) =
      (calls.filter (·.procedure == i)).map (·.source names path? p) := by
  induction calls with
  | nil => rfl
  | cons c calls ih =>
    rw [numberedSources, List.filterMap_cons, List.filter_cons]
    by_cases hc : c.procedure = i
    · rw [hc, hp, if_pos (beq_self_eq_true i)]
      simp only [Option.map_some, List.filter_cons, beq_self_eq_true, if_true, List.map_cons]
      exact congrArg _ ih
    · rw [if_neg (by simpa using hc)]
      cases procedures[c.procedure]? with
      | none => exact ih
      | some q =>
        have hne : (c.procedure == i) = false := by simpa using hc
        simp only [Option.map_some, List.filter_cons, hne]
        exact ih

theorem denotes_ofModule [Sorting] (module : Nat) (m : ModuleRecords) :
    Denotes (ofModule strings names module m) fun t r =>
      r.1.toList.map (·.source t) = m.lines.map (·.source (recordedPath? strings m.files)) ∧
        r.2.map (·.source t) = (FunctionRecord.ofModule m).map (·.source strings names) := by
  refine (denotes_mapM (denotes_lineSpan strings m.files) m.lines).bind fun lines =>
    (denotes_inlinedFunctions m.files m.procedures.toArray m.calls).bind fun inlined =>
      denotes_pure fun t hinlined hlines => ⟨hlines, ?_⟩
  rw [FunctionRecord.ofModule, List.map_map, List.map_map]
  refine List.map_congr_left fun (p, i) hp => ?_
  have hnumber : m.procedures.toArray[i]? = some p := by
    rw [List.getElem?_toArray]
    exact List.mem_zipIdx_iff_getElem?.mp hp
  have hown : ((inlined.filter (·.1 == i)).map (·.2)).map (·.source t) =
      (m.calls.filter (·.procedure == i)).map (·.source names (recordedPath? strings m.files) p) := by
    rw [← own_numberedSources hnumber, ← hinlined, List.filter_map, List.map_map, List.map_map]
    rfl
  exact congrArg _ hown

theorem denotes_ofModules [Sorting] (module : Nat) (ms : List ModuleRecords) :
    Denotes (ofModules strings names module ms) fun t r => r.1.map (fun lines => lines.toList.map (·.source t)) =
        ms.map (fun m => m.lines.map (·.source (recordedPath? strings m.files))) ∧
      r.2.map (·.source t) = (ms.flatMap FunctionRecord.ofModule).map (·.source strings names) := by
  induction ms generalizing module with
  | nil => exact denotes_pure fun t => ⟨rfl, rfl⟩
  | cons m ms ih =>
    refine (denotes_ofModule module m).bind fun r => (ih (module + 1)).bind fun more =>
      denotes_pure fun t hmore hr => ⟨?_, ?_⟩
    · rw [List.map_cons, List.map_cons, hr.1, hmore.1]
    · rw [List.map_append, List.flatMap_cons, List.map_append, hr.2, hmore.2]

end FunctionTable

/-- The functions that a database describes: the procedures module by module, then the public symbols. -/
def functionRecords [Sorting] (db : Database) : List FunctionRecord :=
  match db.modules with
  | none => []
  | some modules =>
    (FunctionTable.moduleRecords db modules).flatMap FunctionRecord.ofModule ++
      (publicRecords db).map FunctionRecord.ofPublic

namespace FunctionTable

theorem sources_publicFunctions [Sorting] {db : Database} {modules : ModuleList} (h : db.modules = some modules)
    (t : PathTable) : (publicFunctions db modules).map (·.source t) =
      ((publicRecords db).map FunctionRecord.ofPublic).map (·.source db.strings db.functionNames) := by
  rw [publicFunctions_eq h, List.map_map, List.map_map]
  rfl

theorem sources_setLimits (sections : List Section) (fs : List ProgramFunction) (t : PathTable) :
    (setLimits sections fs).map (·.source t) = fs.map (·.source t) := by
  induction fs with
  | nil => rfl
  | cons f fs ih =>
    rw [setLimits, List.map_cons, List.map_cons, ih]
    rfl

theorem find?_sources (fs : List ProgramFunction) (t : PathTable) (s : UInt32) :
    (fs.find? (·.start == s)).map (·.source t) = (fs.map (·.source t)).find? (·.start == s) := by
  rw [List.find?_map]
  rfl

theorem paths_build [Sorting] {db : Database} {modules : ModuleList} (h : db.modules = some modules) :
    (build db).paths = ((ofModules db.strings db.functionNames 0 (moduleRecords db modules)).run .empty).2 := by
  rw [build, h]
  rfl

theorem sources_ofModules_of_within [Sorting] {db : Database} {modules : ModuleList} (h : db.modules = some modules)
    {later : PathTable} (hlater : (build db).paths.Within later) :
    ((ofModules db.strings db.functionNames 0 (moduleRecords db modules)).run .empty).1.2.map (·.source later) =
      ((moduleRecords db modules).flatMap FunctionRecord.ofModule).map (·.source db.strings db.functionNames) := by
  rw [paths_build h] at hlater
  exact ((denotes_ofModules 0 (moduleRecords db modules) .empty).2 later hlater).2

theorem sources_ofModules [Sorting] {db : Database} {modules : ModuleList} (h : db.modules = some modules) :
    ((ofModules db.strings db.functionNames 0 (moduleRecords db modules)).run .empty).1.2.map
        (·.source (build db).paths) =
      ((moduleRecords db modules).flatMap FunctionRecord.ofModule).map (·.source db.strings db.functionNames) :=
  sources_ofModules_of_within h (PathTable.Within.refl _)

/-- The function at an address is described by the first record with that address. -/
theorem find?_sources_build [Sorting] (db : Database) (s : UInt32) :
    ((build db).functions.toList.find? (·.start == s)).map (·.source (build db).paths) =
      ((functionRecords db).find? (·.start == s)).map (·.source db.strings db.functionNames) := by
  cases h : db.modules with
  | none =>
    rw [functionRecords, build, h]
    rfl
  | some modules =>
    rw [functions_build h, find?_sources, sources_setLimits, ← find?_sources, find?_firstPerKey, find?_sources,
      List.map_append, sources_ofModules h, sources_publicFunctions h, ← List.map_append, List.find?_map,
      functionRecords, h]
    rfl

theorem exists_record [Sorting] {db : Database} {f : ProgramFunction} (hf : f ∈ (build db).functions.toList) :
    ∃ r, (functionRecords db).find? (·.start == r.start) = some r ∧
      f.source (build db).paths = r.source db.strings db.functionNames := by
  have h := find?_sources_build db f.start
  rw [(increasing_build db).find?_eq hf] at h
  obtain ⟨r, hr, hsource⟩ := Option.map_eq_some_iff.mp h.symm
  have hstart : r.start = f.start := congrArg FunctionSource.start hsource
  exact ⟨r, hstart ▸ hr, hsource.symm⟩

theorem exists_function [Sorting] {db : Database} {r : FunctionRecord} (hr : r ∈ functionRecords db) :
    ∃ f ∈ (build db).functions.toList, f.start = r.start := by
  have hfound : ((functionRecords db).find? (·.start == r.start)).isSome = true :=
    List.find?_isSome.mpr ⟨r, hr, beq_self_eq_true r.start⟩
  have h := congrArg Option.isSome (find?_sources_build db r.start)
  rw [Option.isSome_map, Option.isSome_map, hfound, List.find?_isSome] at h
  obtain ⟨f, hf, hstart⟩ := h
  exact ⟨f, hf, eq_of_beq hstart⟩

theorem lines_build_of_within [Sorting] {db : Database} {modules : ModuleList} (h : db.modules = some modules)
    {later : PathTable} (hlater : (build db).paths.Within later) :
    (build db).lines.toList.map (fun lines => lines.toList.map (·.source later)) =
      (moduleRecords db modules).map fun m => m.lines.map (·.source (recordedPath? db.strings m.files)) := by
  have hlines : (build db).lines =
      ((ofModules db.strings db.functionNames 0 (moduleRecords db modules)).run .empty).1.1.toArray := by
    rw [build, h]
    rfl
  rw [paths_build h] at hlater
  rw [hlines]
  exact ((denotes_ofModules 0 (moduleRecords db modules) .empty).2 later hlater).1

/-- The lines of each module that can be read. -/
theorem lines_build [Sorting] {db : Database} {modules : ModuleList} (h : db.modules = some modules) :
    (build db).lines.toList.map (fun lines => lines.toList.map (·.source (build db).paths)) =
      (moduleRecords db modules).map fun m => m.lines.map (·.source (recordedPath? db.strings m.files)) :=
  lines_build_of_within h (PathTable.Within.refl _)

end FunctionTable

end CodeAtlas.Database
