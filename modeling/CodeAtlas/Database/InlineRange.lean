import CodeAtlas.Database.InlineStep

namespace CodeAtlas.Database

/-- Code of an inlined function, relative to the start of the function around it, that comes from one line. A range
without a length runs to the next one. -/
structure InlineRange where
  offset : UInt32
  length : Option UInt32
  line : UInt32
  file : UInt32
deriving Repr, DecidableEq

namespace InlineRange

/-- Where the program of an inlined function stands, and the ranges so far, latest first. -/
structure State where
  offset : UInt32
  base : UInt32
  line : UInt32
  file : UInt32
  ranges : List InlineRange
deriving Repr, DecidableEq

/-- A line number moves by a signed amount, modulo 2^32. -/
def moveLine (line : UInt32) (delta : Int) : UInt32 := UInt32.ofInt (line.toNat + delta)

/-- Gives the latest range a length unless it has one. -/
def setLength (length : UInt32) : List InlineRange → List InlineRange
  | [] => []
  | r :: rs => (if r.length.isNone then { r with length := some length } else r) :: rs

/-- A range that is still open ends where the next one starts, if that is behind its own start. -/
def closeAt (stop : UInt32) : List InlineRange → List InlineRange
  | [] => []
  | r :: rs =>
    (if r.length.isNone ∧ r.offset < stop then { r with length := some (stop - r.offset) } else r) :: rs

namespace State

/-- Opens a range at the current place. -/
def begin (s : State) (length : Option UInt32) : State :=
  let start := s.base + s.offset
  { s with ranges := ⟨start, length, s.line, s.file⟩ :: closeAt start s.ranges }

def step (s : State) (a : InlineStep) : State :=
  match a.op with
  | .codeOffset => { s with offset := a.first }
  | .codeOffsetBase => { s with base := a.first }
  | .advance => { s with offset := s.offset + a.first }.begin none
  | .codeLength => { s with offset := s.offset + a.first, ranges := setLength a.first s.ranges }
  | .file => { s with file := a.first }
  | .lineOffset => { s with line := moveLine s.line (signedOperand a.first) }
  | .advanceAndLine =>
    { s with offset := s.offset + a.first, line := moveLine s.line a.second }.begin none
  | .lengthAndAdvance => { s with offset := s.offset + UInt32.ofInt a.second }.begin (some a.first)
  | _ => s

end State

/-- Runs the steps from the line and the file where the function is defined. -/
def list (steps : List InlineStep) (line file : UInt32) : List InlineRange :=
  (steps.foldl State.step ⟨0, 0, line, file, []⟩).ranges.reverse

end InlineRange

end CodeAtlas.Database
