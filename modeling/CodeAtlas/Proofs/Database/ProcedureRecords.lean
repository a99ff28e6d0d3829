import CodeAtlas.Database.ModuleRecords
import CodeAtlas.Proofs.Bytes.Slice

namespace CodeAtlas.Database.ModuleRecords

/-- The procedure that a symbol record describes, if it is one and has an address. -/
def procedure? (m : AddressMap) (r : Record) : Option Procedure :=
  if SymbolKind.ofNumber r.kind = .procedure then readProcedure? m r.data else none

/-- The procedures among the symbols of a module, whatever scopes they stand in. -/
def procedureRecords (m : AddressMap) (symbols : Bytes) : List Procedure :=
  if symbols.u32At? 0 = some 4 then (Record.list symbols 4).1.filterMap (procedure? m) else []

variable {m : AddressMap} {definitions : List (UInt32 × Definition)}

theorem procedures_openCall (stepsAt : Nat) (data : Bytes) (s : State) :
    (openCall definitions stepsAt data s).procedures = s.procedures := by
  unfold openCall
  split <;> rfl

theorem procedures_step (s : State) (r : Record) :
    (step m definitions s r).procedures = (procedure? m r).toList ++ s.procedures := by
  unfold step procedure?
  cases SymbolKind.ofNumber r.kind with
  | procedure =>
    dsimp only [openProcedure]
    rw [if_pos rfl]
    cases readProcedure? m r.data <;> rfl
  | inlineCall => exact procedures_openCall 12 r.data s
  | counted => exact procedures_openCall 16 r.data s
  | other => rfl
  | close => rfl
  | plain => rfl

theorem procedures_foldl_step (rs : List Record) (s : State) :
    (rs.foldl (step m definitions) s).procedures = (rs.filterMap (procedure? m)).reverse ++ s.procedures := by
  induction rs generalizing s with
  | nil => rfl
  | cons r rs ih =>
    rw [List.foldl_cons, ih, procedures_step]
    cases h : procedure? m r with
    | none => rw [List.filterMap_cons_none h, Option.toList_none, List.nil_append]
    | some p =>
      rw [List.filterMap_cons_some h, Option.toList_some, List.reverse_cons, List.append_assoc, List.singleton_append]

theorem procedures_symbols (m : AddressMap) (definitions : List (UInt32 × Definition)) (data : Bytes) :
    (symbols m definitions data).procedures.reverse = procedureRecords m data := by
  unfold symbols procedureRecords
  split
  next => rw [procedures_foldl_step, List.append_nil, List.reverse_reverse]
  next => rfl

/-- A module can be read if its stream is as long as its three parts, and then has the procedures of its symbols. -/
theorem procedures_parse [Sorting] (m : AddressMap) (e : ModuleEntry) (data : Bytes) :
    (parse m e data).toOption.map (·.procedures) =
      if e.symbolSize.toNat + e.c11Size.toNat + e.c13Size.toNat ≤ data.size then
        some (procedureRecords m (data.extract 0 e.symbolSize.toNat))
      else none := by
  unfold parse
  dsimp only
  cases h : data.slice? (e.symbolSize.toNat + e.c11Size.toNat) e.c13Size.toNat with
  | none =>
    rw [if_neg (Nat.not_le.mpr (Bytes.slice?_eq_none_iff.mp h))]
    rfl
  | some c13 =>
    rw [if_pos (Bytes.slice?_eq_some_iff.mp h).1]
    exact congrArg some (procedures_symbols m _ _)

end CodeAtlas.Database.ModuleRecords
