import CodeAtlas.Database.ModuleRecords
import CodeAtlas.Proofs.Database.RecordEncoding

namespace CodeAtlas.Database

namespace SymbolKind

def procedureNumbers : List UInt16 := [0x110f, 0x1110, 0x1146, 0x1147, 0x1155, 0x1156]

def otherNumbers : List UInt16 := [0x1102, 0x1103, 0x1104, 0x112a, 0x112b, 0x1132]

def closeNumbers : List UInt16 := [0x0006, 0x114e, 0x114f]

/-- The records that have to do with scopes; two of them open an inlined function. -/
def scopeNumbers : List UInt16 := 0x114d :: 0x115d :: (procedureNumbers ++ otherNumbers ++ closeNumbers)

theorem ofNumber_of_procedure {n : UInt16} (h : n ∈ procedureNumbers) : ofNumber n = .procedure := by
  simp only [procedureNumbers, List.mem_cons, List.not_mem_nil, or_false] at h
  rcases h with rfl | rfl | rfl | rfl | rfl | rfl <;> rfl

theorem ofNumber_of_other {n : UInt16} (h : n ∈ otherNumbers) : ofNumber n = .other := by
  simp only [otherNumbers, List.mem_cons, List.not_mem_nil, or_false] at h
  rcases h with rfl | rfl | rfl | rfl | rfl | rfl <;> rfl

theorem ofNumber_of_close {n : UInt16} (h : n ∈ closeNumbers) : ofNumber n = .close := by
  simp only [closeNumbers, List.mem_cons, List.not_mem_nil, or_false] at h
  rcases h with rfl | rfl | rfl <;> rfl

theorem ofNumber_of_plain {n : UInt16} (h : n ∉ scopeNumbers) : ofNumber n = .plain := by
  simp only [scopeNumbers, procedureNumbers, otherNumbers, closeNumbers, List.cons_append, List.nil_append,
    List.mem_cons, List.not_mem_nil, or_false, not_or] at h
  simp only [ofNumber, List.mem_cons, List.not_mem_nil, h, or_self, ↓reduceIte]

end SymbolKind

/-- A record of some kind, whatever else it says. -/
structure RecordOf (kind : UInt16 → Prop) where
  record : Record
  kind_spec : kind record.kind
  fits : record.Fits

/-- A record that opens a procedure, of any of the kinds that do. -/
structure ProcedureSymbol where
  kind : UInt16
  kind_mem : kind ∈ SymbolKind.procedureNumbers
  links : Vector UInt8 12
  length : UInt32
  debug : Vector UInt8 12
  offset : UInt32
  sectionNumber : UInt16
  flags : UInt8
  name : Text
  no_nul : 0 ∉ name
  rest : List UInt8
  fits : 38 + name.length + rest.length < 65536

namespace ProcedureSymbol

def bytes (p : ProcedureSymbol) : List UInt8 :=
  p.links.toList ++ (leBytes 4 p.length.toNat ++ (p.debug.toList ++ (leBytes 4 p.offset.toNat ++
    (leBytes 2 p.sectionNumber.toNat ++ ([p.flags] ++ ((p.name ++ [0]) ++ p.rest))))))

def record (p : ProcedureSymbol) : Record := ⟨p.kind, p.bytes.toArray⟩

/-- The procedure, if its place in a section has an address. -/
def procedure? (m : AddressMap) (p : ProcedureSymbol) : Option Procedure :=
  (m.rva? p.sectionNumber p.offset).map fun rva => ⟨rva, p.length, p.name⟩

theorem fits_record (p : ProcedureSymbol) : p.record.Fits := by
  have hp := p.fits
  simp only [Record.Fits, record, bytes, List.size_toArray, List.length_append, Vector.length_toList,
    length_leBytes, List.length_singleton]
  omega

theorem readProcedure?_record (m : AddressMap) (p : ProcedureSymbol) :
    ModuleRecords.readProcedure? m p.record.data = p.procedure? m := by
  have hlength := (Bytes.holds_toArray p.bytes).right
  rw [Vector.length_toList, Nat.zero_add] at hlength
  have hoffset := hlength.right.right
  rw [length_leBytes, Vector.length_toList] at hoffset
  have hnumber := hoffset.right
  rw [length_leBytes] at hnumber
  have hname := hnumber.right.right
  rw [length_leBytes, List.length_singleton] at hname
  simp only [ModuleRecords.readProcedure?, record, Option.bind_eq_bind, hlength.left.u32At?, hoffset.left.u32At?,
    hnumber.left.u16At?, hname.left.cstringAt? p.no_nul, Option.bind_some]
  exact Option.map_eq_bind.symm

end ProcedureSymbol

/-- A record that opens an inlined function; one of the two kinds counts the calls. -/
structure InlineSymbol where
  links : Vector UInt8 8
  inlinee : UInt32
  count? : Option UInt32
  steps : List UInt8
  fits : (if count?.isSome then 18 else 14) + steps.length < 65536

namespace InlineSymbol

def kind (c : InlineSymbol) : UInt16 := if c.count?.isSome then 0x115d else 0x114d

def countBytes (c : InlineSymbol) : List UInt8 := c.count?.elim [] fun n => leBytes 4 n.toNat

def bytes (c : InlineSymbol) : List UInt8 :=
  c.links.toList ++ (leBytes 4 c.inlinee.toNat ++ (c.countBytes ++ c.steps))

def record (c : InlineSymbol) : Record := ⟨c.kind, c.bytes.toArray⟩

theorem length_countBytes (c : InlineSymbol) : c.countBytes.length = if c.count?.isSome then 4 else 0 := by
  unfold countBytes
  cases c.count? <;> rfl

theorem fits_record (c : InlineSymbol) : c.record.Fits := by
  have hc := c.fits
  simp only [Record.Fits, record, bytes, List.size_toArray, List.length_append, Vector.length_toList,
    length_leBytes, length_countBytes]
  split at hc
  next hcount =>
    rw [if_pos hcount]
    omega
  next hcount =>
    rw [if_neg hcount]
    omega

theorem readCall?_record (c : InlineSymbol) :
    ModuleRecords.readCall? (12 + c.countBytes.length) c.record.data = some (c.inlinee, InlineStep.list c.steps) := by
  have hinlinee := (Bytes.holds_toArray c.bytes).right
  rw [Vector.length_toList, Nat.zero_add] at hinlinee
  have hsplit : c.bytes = (c.links.toList ++ leBytes 4 c.inlinee.toNat ++ c.countBytes) ++ c.steps := by
    simp only [bytes, List.append_assoc]
  have hfront : (c.links.toList ++ leBytes 4 c.inlinee.toNat ++ c.countBytes).length = 12 + c.countBytes.length := by
    rw [List.length_append, List.length_append, Vector.length_toList, length_leBytes]
  have hlong : ¬c.bytes.toArray.size < 12 + c.countBytes.length := by
    rw [List.size_toArray, hsplit, List.length_append, hfront]
    omega
  have hsteps : c.bytes.toArray.toList.drop (12 + c.countBytes.length) = c.steps := by
    rw [← hfront]
    exact (congrArg (List.drop _) hsplit).trans List.drop_left
  simp only [ModuleRecords.readCall?, record, hinlinee.left.u32At?, Option.bind_eq_bind, Option.bind_some, if_neg hlong,
    hsteps]

end InlineSymbol

/-- A record that opens a scope. -/
inductive Opening
  | procedure (p : ProcedureSymbol)
  | inline (c : InlineSymbol)
  | other (r : RecordOf (· ∈ SymbolKind.otherNumbers))

namespace Opening

def record : Opening → Record
  | procedure p => p.record
  | inline c => c.record
  | other r => r.record

def procedure? (m : AddressMap) : Opening → Option Procedure
  | procedure p => p.procedure? m
  | _ => none

theorem fits_record (o : Opening) : o.record.Fits := by
  cases o with
  | procedure p => exact p.fits_record
  | inline c => exact c.fits_record
  | other r => exact r.fits

end Opening

namespace ModuleRecords

variable {m : AddressMap} {definitions : List (UInt32 × Definition)}

theorem step_procedure (s : State) (p : ProcedureSymbol) :
    step m definitions s p.record = openProcedure m p.record.data s := by
  have hkind : SymbolKind.ofNumber p.record.kind = .procedure := SymbolKind.ofNumber_of_procedure p.kind_mem
  rw [step, hkind]

theorem step_inline (s : State) (c : InlineSymbol) :
    step m definitions s c.record = openCall definitions (12 + c.countBytes.length) c.record.data s := by
  rw [InlineSymbol.length_countBytes, step]
  cases hcount : c.count?.isSome with
  | true =>
    have hkind : SymbolKind.ofNumber c.record.kind = .counted := by
      rw [InlineSymbol.record, InlineSymbol.kind, if_pos hcount]
      rfl
    rw [hkind]
    rfl
  | false =>
    have hkind : SymbolKind.ofNumber c.record.kind = .inlineCall := by
      rw [InlineSymbol.record, InlineSymbol.kind, hcount]
      rfl
    rw [hkind]
    rfl

theorem step_other (s : State) (r : RecordOf (· ∈ SymbolKind.otherNumbers)) :
    step m definitions s r.record = s.push ⟨false, s.owner⟩ := by
  rw [step, SymbolKind.ofNumber_of_other r.kind_spec]

theorem step_close (s : State) (r : RecordOf (· ∈ SymbolKind.closeNumbers)) :
    step m definitions s r.record = { s with scopes := s.scopes.tail } := by
  rw [step, SymbolKind.ofNumber_of_close r.kind_spec]

theorem step_plain (s : State) (r : RecordOf (· ∉ SymbolKind.scopeNumbers)) :
    step m definitions s r.record = s := by
  rw [step, SymbolKind.ofNumber_of_plain r.kind_spec]

end ModuleRecords

end CodeAtlas.Database
