import CodeAtlas.Text

namespace CodeAtlas.Text.Utf8

/-- A scalar value is a code point that is no surrogate. -/
def isScalar (n : Nat) : Bool := n < 0xD800 || (0xDFFF < n && n ≤ 0x10FFFF)

def isTail (b : UInt8) : Bool := b &&& 0xC0 == 0x80

/-- The payload of a leading byte followed by the payloads of its tail bytes, six bits each. -/
def point (lead : UInt8) (tail : List UInt8) : Nat :=
  tail.foldl (fun n b => n * 64 + (b &&& 0x3F).toNat) lead.toNat

/-- A sequence is accepted in its shortest form only, and only for a scalar value. -/
def isSequence (lead : UInt8) (tail : List UInt8) (least : Nat) : Bool :=
  tail.all isTail && least ≤ point lead tail && isScalar (point lead tail)

/-- Strict UTF-8: no overlong forms, no surrogates, nothing above U+10FFFF. -/
def isValid : Text → Bool
  | [] => true
  | a :: r =>
    if a < 0x80 then isValid r
    else if a &&& 0xE0 == 0xC0 then
      match r with
      | b :: r => isSequence (a &&& 0x1F) [b] 0x80 && isValid r
      | _ => false
    else if a &&& 0xF0 == 0xE0 then
      match r with
      | b :: c :: r => isSequence (a &&& 0x0F) [b, c] 0x800 && isValid r
      | _ => false
    else if a &&& 0xF8 == 0xF0 then
      match r with
      | b :: c :: d :: r => isSequence (a &&& 0x07) [b, c, d] 0x10000 && isValid r
      | _ => false
    else false

end CodeAtlas.Text.Utf8
