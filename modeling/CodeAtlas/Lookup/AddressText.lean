import CodeAtlas.Lookup.Address
import CodeAtlas.Text.Numeral

namespace CodeAtlas

/-- How an address that is only a number is meant. -/
inductive AddressKind
  | relative
  | preferred
  | fileOffset
deriving Repr, DecidableEq

open Text

/-- The kind of that name, in letters of either case. -/
def AddressKind.ofText? (t : Text) : Option AddressKind :=
  let name := t.lower
  if name = "rva" ∨ name = "relative" then some relative
  else if name = "svma" then some preferred
  else if name = "offset" ∨ name = "fileoffset" then some fileOffset
  else none

namespace Address

def ofNumber? : AddressKind → Nat → Option Address
  | .relative, n => if n < UInt32.size then some (relative (.ofNat n)) else none
  | .preferred, n => if n < UInt64.size then some (preferred (.ofNat n)) else none
  | .fileOffset, n => if n < UInt64.size then some (fileOffset (.ofNat n)) else none

/-- A hexadecimal numeral without its marker. -/
def withoutMarker (t : Text) : Text := ((prefixed? "0x" t).or (prefixed? "0X" t)).getD t

/-- A hexadecimal numeral, with or without its marker. -/
def ofText? (kind : AddressKind) (t : Text) : Option Address := (toNat? 16 (withoutMarker t)).bind (ofNumber? kind)

end Address

end CodeAtlas
