import CodeAtlas.Bytes

namespace CodeAtlas

/-- One function of an inline stack, with the path as the compiler recorded it. -/
structure RecordedFrame where
  function : Option Text
  file : Option Text
  line : Option UInt32
deriving Repr, DecidableEq

/-- A function and the inline stack at an address in it: innermost function first, the function itself last. -/
structure FunctionFrames where
  start : UInt32
  stop : Option UInt32
  frames : List RecordedFrame
deriving Repr, DecidableEq

structure FunctionEntry where
  start : UInt32
  stop : Option UInt32
  name : Option Text
deriving Repr, DecidableEq

/-- Functions and the inline stacks in them. -/
structure FrameSource where
  functions : List FunctionEntry
  frames? : UInt32 → Option FunctionFrames

/-- The frames say more than the name of a single function. -/
def FunctionFrames.hasDebugInfo (f : FunctionFrames) : Bool :=
  match f.frames with
  | [] => false
  | [frame] => frame.file.isSome || frame.line.isSome
  | _ => true

end CodeAtlas
