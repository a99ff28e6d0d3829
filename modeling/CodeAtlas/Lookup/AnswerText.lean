import CodeAtlas.Lookup.Answer
import CodeAtlas.Text.Numeral

namespace CodeAtlas

open Text

/-- Where a frame is in the sources; a line number is given only with its file. -/
def Frame.place (f : Frame) : Text :=
  match f.file with
  | none => []
  | some file =>
    " at " ++ file.display ++ match f.line with
      | none => []
      | some n => ":" ++ decimal n.toNat

def Frame.toText (f : Frame) : Text := "  " ++ f.function.getD "??" ++ f.place ++ "\n"

def Frames.toText : Frames → Text
  | known frames => frames.flatMap Frame.toText
  | elsewhere file address => "  in " ++ file ++ " at " ++ hex0x address.toNat ++ "\n"

/-- The place of a symbol, and its size where that is known. -/
def Symbol.toText (s : Symbol) : Text :=
  s.name ++ " (" ++ hex0x s.start.toNat ++
    (match s.size with
      | none => []
      | some size => ", size " ++ hex0x size.toNat) ++ ")\n"

/-- The reply to a text that stands for an address. -/
def replyTo (input : Text) : Option Answer → Text
  | none => input ++ ": <not found>\n"
  | some a => input ++ ": " ++ a.symbol.toText ++ (a.frames.map Frames.toText).getD []

end CodeAtlas
