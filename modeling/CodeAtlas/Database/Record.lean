import CodeAtlas.Bytes

namespace CodeAtlas.Database

/-- Types and symbols are stored alike: a length, a kind and what belongs to the kind. -/
structure Record where
  kind : UInt16
  data : Bytes
deriving Repr, DecidableEq

namespace Record

/-- The bytes of the length and the kind; the length counts all but its own two bytes. -/
def headSize : Nat := 4

/-- The record at a position, if it is whole. -/
def readAt? (data : Bytes) (pos : Nat) : Option Record := do
  let length ← data.u16At? pos
  if length < 2 then none
  else
    let kind ← data.u16At? (pos + 2)
    let body ← data.slice? (pos + headSize) (length.toNat - 2)
    some ⟨kind, body⟩

def size (r : Record) : Nat := headSize + r.data.size

/-- The whole records from a position on, and whether nothing but the end of the data follows them. Fewer bytes than
a record starts with do not count. -/
def list (data : Bytes) (pos : Nat) : List Record × Bool :=
  if data.size < pos + headSize then ([], true)
  else
    match readAt? data pos with
    | none => ([], false)
    | some r =>
      let (rs, whole) := list data (pos + r.size)
      (r :: rs, whole)
termination_by data.size + 1 - pos
decreasing_by
  simp only [size, headSize] at *
  omega

end Record

end CodeAtlas.Database
