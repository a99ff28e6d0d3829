import CodeAtlas.Proofs.Database.FunctionSymbols
import CodeAtlas.Proofs.Database.Lookup

namespace CodeAtlas.Database

/-- What tells a function of a table from others: where it starts and ends, its name and its module. -/
structure FunctionOutline where
  start : UInt32
  stop : Option UInt32
  name : Text
  module : Option Nat

namespace FunctionOutline

def ofProcedure (p : Nat × Procedure) : FunctionOutline := ⟨p.2.rva, some (p.2.rva + p.2.length), p.2.name, some p.1⟩

def ofPublic (q : UInt32 × Text) : FunctionOutline := ⟨q.1, none, q.2, none⟩

def ofFunction (f : ProgramFunction) : FunctionOutline := ⟨f.start, f.stop, f.name, f.module⟩

end FunctionOutline

open FunctionOutline

namespace FunctionTable

theorem outlines_ofModule [Sorting] (strings : Option Strings) (names : FunctionNames) (module : Nat)
    (m : ModuleRecords) (paths : PathTable) : ((ofModule strings names module m).run paths).1.2.map ofFunction =
      m.procedures.map fun p => ofProcedure (module, p) := by
  have hfst : ∀ (g : Procedure × Nat → ProgramFunction), (∀ p i, ofFunction (g (p, i)) = ofProcedure (module, p)) →
      (m.procedures.zipIdx.map g).map ofFunction = m.procedures.map fun p => ofProcedure (module, p) := by
    intro g hg
    rw [List.map_map, ← List.zipIdx_map_fst 0 m.procedures, List.map_map, List.zipIdx_map_fst]
    exact List.map_congr_left fun ⟨p, i⟩ _ => hg p i
  exact hfst _ fun p i => rfl

theorem outlines_ofModules [Sorting] (strings : Option Strings) (names : FunctionNames) (module : Nat)
    (ms : List ModuleRecords) (paths : PathTable) : ((ofModules strings names module ms).run paths).1.2.map ofFunction =
      (ms.zipIdx module).flatMap fun (m, i) => m.procedures.map fun p => ofProcedure (i, p) := by
  induction ms generalizing module paths with
  | nil => rfl
  | cons m ms ih =>
    change (((ofModule strings names module m).run paths).1.2 ++
      ((ofModules strings names (module + 1) ms).run ((ofModule strings names module m).run paths).2).1.2).map
        ofFunction = _
    rw [List.map_append, outlines_ofModule, ih, List.zipIdx_cons, List.flatMap_cons]

theorem procedures_moduleRecords [Sorting] {db : Database} {modules : ModuleList} (h : db.modules = some modules) :
    (moduleRecords db modules).map (·.procedures) = (readableModules db).map fun (e, data) =>
      ModuleRecords.procedureRecords db.addresses (data.extract 0 e.symbolSize.toNat) := by
  rw [moduleRecords, readableModules, h]
  dsimp only
  rw [List.map_filterMap, List.map_filterMap]
  refine congrArg (List.filterMap · modules.modules) (funext fun e => ?_)
  split
  next => rfl
  next =>
    cases streamBytes? db.container e.stream.toNat with
    | none => rfl
    | some data =>
      rw [Option.bind_some, Option.bind_some, ModuleRecords.procedures_parse]
      split <;> rfl

theorem outlines_procedures [Sorting] {db : Database} {modules : ModuleList} (h : db.modules = some modules)
    (paths : PathTable) :
    ((ofModules db.strings db.functionNames 0 (moduleRecords db modules)).run paths).1.2.map ofFunction =
      (numberedProcedures db).map ofProcedure := by
  have hzip : (moduleRecords db modules).zipIdx.flatMap (fun (m, i) => m.procedures.map fun p => ofProcedure (i, p)) =
      ((moduleRecords db modules).map (·.procedures)).zipIdx.flatMap fun x => x.1.map fun p => ofProcedure (x.2, p) := by
    rw [List.zipIdx_map, List.flatMap_map]
    rfl
  rw [outlines_ofModules, hzip, procedures_moduleRecords h, List.zipIdx_map, List.flatMap_map, numberedProcedures,
    List.map_flatMap]
  simp only [List.map_map]
  rfl

theorem publicFunctions_eq {db : Database} {modules : ModuleList} (h : db.modules = some modules) :
    publicFunctions db modules = (publicRecords db).map fun (rva, name) => ⟨rva, none, rva, name, none, []⟩ := by
  rw [publicFunctions, publicRecords, publicSymbols, h, Option.bind_some, numberedStream?]
  split
  next => rw [Option.getD_none, PublicFunction.list_empty, List.map_nil]
  next =>
    cases streamBytes? db.container modules.symbolRecords.toNat with
    | none =>
      dsimp only
      rw [Option.getD_none, PublicFunction.list_empty, List.map_nil]
    | some data => rfl

theorem outlines_publicFunctions {db : Database} {modules : ModuleList} (h : db.modules = some modules) :
    (publicFunctions db modules).map ofFunction = (publicRecords db).map ofPublic := by
  rw [publicFunctions_eq h, List.map_map]
  rfl

theorem outlines_setLimits (sections : List Section) (fs : List ProgramFunction) :
    (setLimits sections fs).map ofFunction = fs.map ofFunction := by
  induction fs with
  | nil => rfl
  | cons f fs ih => rw [setLimits, List.map_cons, List.map_cons, ih]; rfl

theorem functions_build [Sorting] {db : Database} {modules : ModuleList} (h : db.modules = some modules) :
    (build db).functions.toList = setLimits db.addresses.sections (firstPerKey ProgramFunction.start
      (((ofModules db.strings db.functionNames 0 (moduleRecords db modules)).run .empty).1.2 ++
        publicFunctions db modules)) := by
  rw [build, h]
  rfl

theorem find?_outlines (fs : List ProgramFunction) (s : UInt32) :
    (fs.find? (·.start == s)).map ofFunction = (fs.map ofFunction).find? (·.start == s) := by
  rw [List.find?_map]
  rfl

/-- The entry of a start is the first procedure with that address, or else the first public symbol with it. -/
theorem find?_build [Sorting] (db : Database) (s : UInt32) :
    ((build db).functions.toList.find? (·.start == s)).map ofFunction =
      (((numberedProcedures db).find? (·.2.rva == s)).map ofProcedure).or
        (((publicRecords db).find? (·.1 == s)).map ofPublic) := by
  cases h : db.modules with
  | none =>
    have hprocedures : numberedProcedures db = [] := by
      rw [numberedProcedures, readableModules, h]
      rfl
    have hpublics : publicRecords db = [] := by
      rw [publicRecords, publicSymbols, h]
      exact PublicFunction.list_empty _
    rw [build, h, hprocedures, hpublics]
    rfl
  | some modules =>
    rw [functions_build h, find?_outlines, outlines_setLimits, ← find?_outlines, find?_firstPerKey, find?_outlines,
      List.map_append, outlines_procedures h, outlines_publicFunctions h, List.find?_append, List.find?_map,
      List.find?_map]
    rfl

theorem limit_setLimits {sections : List Section} {fs : List ProgramFunction} {k : Nat} {f : ProgramFunction}
    (h : (setLimits sections fs)[k]? = some f) (hstop : f.stop = none) :
    f.limit = lookupLimit sections f.start ((setLimits sections fs)[k + 1]?.map (·.start)) := by
  induction fs generalizing k with
  | nil => cases h
  | cons g fs ih =>
    cases k with
    | zero =>
      have hnext : (setLimits sections fs)[0]?.map (·.start) = fs.head?.map (·.start) := by
        rw [← List.getElem?_map, starts_setLimits, ← List.head?_eq_getElem?, List.head?_map]
      cases h
      change g.stop = none at hstop
      rw [setLimits, List.getElem?_cons_succ, hnext]
      simp only [hstop, Option.isSome_none, Bool.false_eq_true, ↓reduceIte]
    | succ k => exact ih h

/-- A table lists the given procedures and public symbols by their addresses. The procedures carry the numbers of their
modules, and of several entries for one address the first procedure counts, then the first public symbol. -/
structure Lists (t : FunctionTable) (sections : List Section) (procedures : List (Nat × Procedure))
    (publics : List (UInt32 × Text)) : Prop where
  increasing : Increasing ProgramFunction.start t.functions.toList
  start_iff : ∀ s, (∃ f ∈ t.functions.toList, f.start = s) ↔
    (∃ p ∈ procedures, p.2.rva = s) ∨ ∃ q ∈ publics, q.1 = s
  of_procedure : ∀ f ∈ t.functions.toList, ∀ module p, procedures.find? (·.2.rva == f.start) = some (module, p) →
    f.stop = some (p.rva + p.length) ∧ f.name = p.name ∧ f.module = some module
  of_public : ∀ f ∈ t.functions.toList, procedures.find? (·.2.rva == f.start) = none →
    f.stop = none ∧ f.module = none ∧ publics.find? (·.1 == f.start) = some (f.start, f.name)
  /-- The end that is assumed for a function without one depends on its section and on the next function. -/
  limit_of_public : ∀ k f, t.functions.toList[k]? = some f → f.stop = none →
    f.limit = lookupLimit sections f.start (t.functions.toList[k + 1]?.map (·.start))
  /-- Only the function with the greatest start up to an address can answer it, and does if the address is before its
  end, or before the limit where no end is known. -/
  frames?_iff : ∀ rva r, t.frames? rva = some r ↔ ∃ f ∈ t.functions.toList, f.start ≤ rva ∧
    (∀ g ∈ t.functions.toList, g.start ≤ rva → g.start ≤ f.start) ∧ rva < f.stop.getD f.limit ∧
    r = ⟨f.start, f.stop, t.inlinedFrames f rva ++ [t.ownFrame f rva]⟩

theorem function?_eq_some_iff {t : FunctionTable} (hinc : Increasing ProgramFunction.start t.functions.toList)
    {rva : UInt32} {f : ProgramFunction} : t.function? rva = some f ↔ f ∈ t.functions.toList ∧ f.start ≤ rva ∧
      (∀ g ∈ t.functions.toList, g.start ≤ rva → g.start ≤ f.start) ∧ rva < f.stop.getD f.limit := by
  rw [function?, Option.filter_eq_some_iff, Bisection.lastAtMost?_eq_some_iff hinc, decide_eq_true_eq, and_assoc,
    and_assoc]

theorem frames?_eq_some_iff {t : FunctionTable} (hinc : Increasing ProgramFunction.start t.functions.toList)
    {rva : UInt32} {r : FunctionFrames} : t.frames? rva = some r ↔ ∃ f ∈ t.functions.toList, f.start ≤ rva ∧
      (∀ g ∈ t.functions.toList, g.start ≤ rva → g.start ≤ f.start) ∧ rva < f.stop.getD f.limit ∧
      r = ⟨f.start, f.stop, t.inlinedFrames f rva ++ [t.ownFrame f rva]⟩ := by
  simp only [frames?, Option.map_eq_some_iff, function?_eq_some_iff hinc, and_assoc, @eq_comm _ r]

theorem limit_build [Sorting] {db : Database} {k : Nat} {f : ProgramFunction}
    (h : (build db).functions.toList[k]? = some f) (hstop : f.stop = none) : f.limit =
      lookupLimit db.addresses.sections f.start ((build db).functions.toList[k + 1]?.map (·.start)) := by
  cases hmodules : db.modules with
  | none =>
    rw [build, hmodules] at h
    cases h
  | some modules =>
    rw [functions_build hmodules] at h ⊢
    exact limit_setLimits h hstop

theorem start_build_iff [Sorting] (db : Database) (s : UInt32) : (∃ f ∈ (build db).functions.toList, f.start = s) ↔
    (∃ p ∈ numberedProcedures db, p.2.rva = s) ∨ ∃ q ∈ publicRecords db, q.1 = s := by
  have h := congrArg Option.isSome (find?_build db s)
  rw [Option.isSome_map, Option.isSome_or, Option.isSome_map, Option.isSome_map, Bool.eq_iff_iff, Bool.or_eq_true,
    List.find?_isSome, List.find?_isSome, List.find?_isSome] at h
  simpa only [beq_iff_eq] using h

/-- What is built from a database lists the procedures of its readable modules and its public functions. -/
theorem lists_build [Sorting] (db : Database) : (∃ procedures publics, Describes db procedures publics) ∧
    ∀ procedures publics, Describes db procedures publics →
      (build db).Lists db.addresses.sections procedures publics := by
  refine ⟨⟨_, _, describes_iff.mpr ⟨rfl, rfl⟩⟩, fun procedures publics h => ?_⟩
  obtain ⟨rfl, rfl⟩ := describes_iff.mp h
  exact {
    increasing := increasing_build db
    start_iff := start_build_iff db
    of_procedure := fun f hf module p hp => by
      have h := find?_build db f.start
      rw [(increasing_build db).find?_eq hf, hp] at h
      cases f
      cases h
      exact ⟨rfl, rfl, rfl⟩
    of_public := fun f hf hp => by
      have h := find?_build db f.start
      rw [(increasing_build db).find?_eq hf, hp, Option.map_none, Option.none_or] at h
      obtain ⟨q, hq, he⟩ := Option.map_eq_some_iff.mp h.symm
      cases f
      cases he
      exact ⟨rfl, rfl, hq⟩
    limit_of_public := fun k f => limit_build
    frames?_iff := fun rva r => frames?_eq_some_iff (increasing_build db) }

end FunctionTable

end CodeAtlas.Database
