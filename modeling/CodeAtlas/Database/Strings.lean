import CodeAtlas.Bytes
import CodeAtlas.Database.Fault

namespace CodeAtlas.Database

/-- Texts that end at a NUL and are told by where they start. -/
structure Strings where
  buffer : Bytes
deriving Repr, DecidableEq

namespace Strings

def get? (s : Strings) (offset : UInt32) : Option Text := s.buffer.cstringAt? offset.toNat

/-- A mark, a number that is not needed, a size and that many bytes. -/
def parse (data : Bytes) : Except Fault Strings :=
  match data.u32At? 0, (data.u32At? 8).bind fun size => data.slice? 12 size.toNat with
  | some 0xEFFEEFFE, some buffer => .ok ⟨buffer⟩
  | _, _ => .error .strings

end Strings

end CodeAtlas.Database
