import CodeAtlas.Database.Fault
import CodeAtlas.Database.Record

namespace CodeAtlas.Database

/-- Type records, numbered from a first index on. -/
structure TypeTable where
  first : UInt32
  records : Array Record
deriving Repr, DecidableEq

namespace TypeTable

def headerSize : Nat := 56

def get? (t : TypeTable) (index : UInt32) : Option Record :=
  if t.first ≤ index then t.records[(index - t.first).toNat]? else none

/-- The header says where the records start and how many bytes they take. -/
def parse (data : Bytes) : Except Fault TypeTable :=
  match data.u32At? 4, data.u32At? 8, data.u32At? 12, data.u32At? 16 with
  | some start, some first, some last, some size =>
    if start.toNat < headerSize ∨ last < first then .error .typeHeader
    else
      match data.slice? start.toNat size.toNat with
      | none => .error .largeTypes
      | some records =>
        match Record.list records 0 with
        | (rs, true) => .ok ⟨first, rs.toArray⟩
        | (rs, false) => .error (.shortType (first.toNat + rs.length))
  | _, _, _, _ => .error .typeHeader

end TypeTable

/-- The width of a number that is stored behind its own kind; small numbers are their kind. -/
def numericWidth? (kind : UInt16) : Option Nat :=
  if kind < 0x8000 then some 0
  else if kind = 0x8000 then some 1
  else if kind = 0x8001 ∨ kind = 0x8002 then some 2
  else if kind = 0x8003 ∨ kind = 0x8004 then some 4
  else if kind = 0x8009 ∨ kind = 0x800a then some 8
  else none

/-- Where the bytes after a number start. -/
def numericSize? (data : Bytes) (pos : Nat) : Option Nat := do
  let kind ← data.u16At? pos
  let width ← numericWidth? kind
  if pos + 2 + width ≤ data.size then some (2 + width) else none

/-- The bytes after a number. -/
def skipNumeric? (data : Bytes) : Option Bytes := (numericSize? data 0).map data.drop

/-- The name of a class, structure, interface or union follows its size, the name of an enumeration does not. -/
def Record.typeName? (r : Record) : Option Text :=
  let nameAt? : Option Nat :=
    if r.kind = 0x1504 ∨ r.kind = 0x1505 ∨ r.kind = 0x1519 then (numericSize? r.data 16).map (16 + ·)
    else if r.kind = 0x1506 then (numericSize? r.data 8).map (8 + ·)
    else if r.kind = 0x1507 then some 12
    else none
  nameAt?.bind r.data.cstringAt?

def Record.stringId? (r : Record) : Option Text := if r.kind = 0x1605 then r.data.cstringAt? 4 else none

/-- The names of inlined functions are spread over two tables, of which either may be missing. -/
structure FunctionNames where
  ids : Option TypeTable
  types : Option TypeTable
deriving Repr, DecidableEq

namespace FunctionNames

def className? (n : FunctionNames) (index : UInt32) : Option Text := do
  let r ← (← n.types).get? index
  r.typeName?

def stringId? (n : FunctionNames) (index : UInt32) : Option Text := do
  let r ← (← n.ids).get? index
  r.stringId?

/-- The scope of a function, a namespace or a class, stands before its name where it can be read. -/
def nameOf? (n : FunctionNames) (index : UInt32) : Option Text := do
  let r ← (← n.ids).get? index
  let scope ← r.data.u32At? 0
  let name ← r.data.cstringAt? 8
  let qualifier? ←
    if r.kind = 0x1601 then some (if scope = 0 then none else n.stringId? scope)
    else if r.kind = 0x1602 then some (n.className? scope)
    else none
  match qualifier? with
  | some (b :: q) => some (b :: q ++ "::" ++ name)
  | _ => some name

end FunctionNames

end CodeAtlas.Database
