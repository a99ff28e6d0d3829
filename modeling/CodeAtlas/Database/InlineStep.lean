import CodeAtlas.Bytes

namespace CodeAtlas.Database

/-- The steps of the program by which an inlined function describes where its code lies and what lines it is from. -/
inductive InlineOp
  | codeOffset
  | codeOffsetBase
  | advance
  | codeLength
  | file
  | lineOffset
  | lineEndDelta
  | rangeKind
  | columnStart
  | columnEndDelta
  | advanceAndLine
  | lengthAndAdvance
  | columnEnd
deriving Repr, DecidableEq

namespace InlineOp

/-- The steps in the order of their numbers, which start at one. -/
def all : List InlineOp :=
  [codeOffset, codeOffsetBase, advance, codeLength, file, lineOffset, lineEndDelta, rangeKind, columnStart,
    columnEndDelta, advanceAndLine, lengthAndAdvance, columnEnd]

def ofNumber? : Nat → Option InlineOp
  | 0 => none
  | n + 1 => all[n]?

def number (op : InlineOp) : Nat := all.idxOf op + 1

end InlineOp

/-- A step and its operands; the second one is zero unless the step has two. -/
structure InlineStep where
  op : InlineOp
  first : UInt32
  second : Int
deriving Repr, DecidableEq

/-- A number takes one, two or four bytes, told by the leading bits of the first one. -/
def readCompressed? : List UInt8 → Option (UInt32 × List UInt8)
  | [] => none
  | a :: rest =>
    if a &&& 0x80 == 0 then some (a.toUInt32, rest)
    else if a &&& 0xC0 == 0x80 then
      match rest with
      | b :: rest => some ((a &&& 0x3F).toUInt32 <<< 8 ||| b.toUInt32, rest)
      | _ => none
    else if a &&& 0xE0 == 0xC0 then
      match rest with
      | b :: c :: d :: rest =>
        some ((a &&& 0x1F).toUInt32 <<< 24 ||| b.toUInt32 <<< 16 ||| c.toUInt32 <<< 8 ||| d.toUInt32, rest)
      | _ => none
    else none

theorem length_lt_of_readCompressed? {bs rest : List UInt8} {n : UInt32} (h : readCompressed? bs = some (n, rest)) :
    rest.length < bs.length := by
  unfold readCompressed? at h
  split at h
  next => cases h
  next a r =>
    repeat' split at h
    all_goals cases h
    all_goals simp only [List.length_cons]
    all_goals omega

/-- The number at an offset and the offset after it. -/
def compressedAt? (data : Bytes) (offset : Nat) : Option (UInt32 × Nat) :=
  (readCompressed? (data.toList.drop offset)).map fun (n, rest) => (n, data.size - rest.length)

/-- The lowest bit is the sign. -/
def signedOperand (n : UInt32) : Int :=
  if n &&& 1 = 0 then ((n >>> 1).toNat : Int) else -((n >>> 1).toNat : Int)

namespace InlineStep

/-- Two steps have a second operand: one as a number of its own, one in the upper bits of the first. -/
def complete? (op : InlineOp) (first : UInt32) (bs : List UInt8) : Option (InlineStep × List UInt8) :=
  match op with
  | .lengthAndAdvance => (readCompressed? bs).map fun (second, bs) => (⟨op, first, second.toNat⟩, bs)
  | .advanceAndLine => some (⟨op, first &&& 0xF, signedOperand (first >>> 4)⟩, bs)
  | _ => some (⟨op, first, 0⟩, bs)

/-- One step with its operands. -/
def read? (bs : List UInt8) : Option (InlineStep × List UInt8) := do
  let (number, bs) ← readCompressed? bs
  let op ← InlineOp.ofNumber? number.toNat
  let (first, bs) ← readCompressed? bs
  complete? op first bs

theorem length_le_of_complete? {op : InlineOp} {first : UInt32} {bs rest : List UInt8} {a : InlineStep}
    (h : complete? op first bs = some (a, rest)) : rest.length ≤ bs.length := by
  unfold complete? at h
  split at h
  next =>
    obtain ⟨⟨n, r⟩, hr, he⟩ := Option.map_eq_some_iff.mp h
    have := length_lt_of_readCompressed? hr
    simp only [Prod.mk.injEq] at he
    rw [← he.2]
    omega
  all_goals
    simp only [Option.some.injEq, Prod.mk.injEq] at h
    exact Nat.le_of_eq (congrArg List.length h.2.symm)

theorem length_lt_of_read? {bs rest : List UInt8} {a : InlineStep} (h : read? bs = some (a, rest)) :
    rest.length < bs.length := by
  simp only [read?, Option.bind_eq_bind, Option.bind_eq_some_iff, Prod.exists] at h
  obtain ⟨_, r1, h1, op, _, _, r2, h2, h⟩ := h
  have l1 := length_lt_of_readCompressed? h1
  have l2 := length_lt_of_readCompressed? h2
  have l3 := length_le_of_complete? h
  omega

/-- The steps up to the end, to padding or to something malformed. -/
def list (bs : List UInt8) : List InlineStep :=
  match _h : read? bs with
  | none => []
  | some (a, rest) => a :: list rest
termination_by bs.length
decreasing_by exact length_lt_of_read? _h

end InlineStep

end CodeAtlas.Database
