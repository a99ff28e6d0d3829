import CodeAtlas.Proofs.Lookup.Closest
import CodeAtlas.Proofs.Outcome

namespace CodeAtlas.Database

namespace FunctionTable

theorem starts_setLimits (sections : List Section) (fs : List ProgramFunction) :
    (setLimits sections fs).map (·.start) = fs.map (·.start) := by
  induction fs with
  | nil => rfl
  | cons f fs ih => rw [setLimits, List.map_cons, List.map_cons, ih]

theorem increasing_build [Sorting] (db : Database) : Increasing ProgramFunction.start (build db).functions.toList := by
  unfold build
  split
  next => exact List.Pairwise.nil
  next => exact increasing_of_map_eq (starts_setLimits _ _) (increasing_firstPerKey _)

theorem lastAtMost?_of_frames? {t : FunctionTable} {rva : UInt32} {frames : FunctionFrames}
    (h : t.frames? rva = some frames) : ∃ f, Bisection.lastAtMost? ProgramFunction.start t.functions rva = some f ∧
      frames.start = f.start ∧ frames.stop = f.stop ∧ ∀ e, f.stop = some e → rva < e := by
  obtain ⟨f, hf, rfl⟩ := Option.map_eq_some_iff.mp h
  obtain ⟨hlast, hlimit⟩ := Option.filter_eq_some_iff.mp hf
  refine ⟨f, hlast, rfl, rfl, fun e he => ?_⟩
  rw [he, Option.getD_some] at hlimit
  exact of_decide_eq_true hlimit

end FunctionTable

theorem symbol_of_answer [Demangler] {index : Option SourceIndex} {f : FunctionFrames} {memo : Permalink.Memo}
    {a : Answer} (h : ((answer index f).run memo).1 = some a) :
    a.symbol.start = f.start ∧ a.symbol.size = f.stop.map (· - f.start) := by
  unfold answer at h
  split at h
  next => cases h
  next =>
    dsimp only at h
    split at h
    next =>
      cases Option.some.inj h
      exact ⟨rfl, rfl⟩
    next =>
      cases Option.some.inj h
      exact ⟨rfl, rfl⟩

theorem answersClosest_symbolSource [Sorting] [Demangler] (id : DebugId) (db : Database) (index : Option SourceIndex) :
    (symbolSource id (FunctionTable.build db).frameSource index).AnswersClosest fun a r => a = .relative r := by
  intro a memo answer h
  cases a with
  | relative rva =>
    change ((lookup (FunctionTable.build db).frameSource index (.relative rva)).run memo).1 = some answer at h
    rw [lookup] at h
    split at h
    next frames hframes =>
      obtain ⟨f, hf, hstart, hstop, hlimit⟩ := FunctionTable.lastAtMost?_of_frames? hframes
      obtain ⟨hsymbol, hsize⟩ := symbol_of_answer h
      refine ⟨rva, rfl, isClosest_of_lastAtMost? (FunctionTable.increasing_build db) ?_ hf hlimit
        (hsymbol.trans hstart) ?_⟩
      · simp only [symbolSource, FunctionTable.frameSource, List.map_map]
        rfl
      · rw [hsize, hstop, hstart]
    next => cases h
  | preferred address => cases h
  | fileOffset offset => cases h

theorem answersClosest_of_openSymbols [Sorting] [Demangler] {data : Bytes} {source : SymbolSource Remembering}
    (h : openSymbols data = .ok source) : source.AnswersClosest fun a r => a = .relative r := by
  obtain ⟨db, -, h⟩ := bind_eq_ok_iff.mp h
  obtain ⟨index, -, h⟩ := bind_eq_ok_iff.mp h
  cases h
  exact answersClosest_symbolSource db.debugId db index

end CodeAtlas.Database
