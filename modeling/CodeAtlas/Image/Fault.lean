import CodeAtlas.Text.Numeral

namespace CodeAtlas.Image

open Text

/-- What keeps bytes from being an image. -/
inductive Fault
  | noDosMark
  | shortDosHeader
  | noImageMark (offset : Nat)
  | shortFileHeader
  | shortOptionalHeader
  | unknownMagic (magic : Nat)
  | sectionsDoNotFit (count : Nat)
deriving Repr, DecidableEq

def Fault.message : Fault → Text
  | noDosMark => "missing MZ signature"
  | shortDosHeader => "truncated DOS header"
  | noImageMark offset => "missing PE signature at offset " ++ hex0x offset
  | shortFileHeader => "truncated COFF file header"
  | shortOptionalHeader => "truncated optional header"
  | unknownMagic magic => "unknown optional header magic " ++ hex0x magic
  | sectionsDoNotFit count => "section table of " ++ decimal count ++ " sections does not fit in the file"

end CodeAtlas.Image
