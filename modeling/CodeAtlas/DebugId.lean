import CodeAtlas.Text.Numeral

namespace CodeAtlas

/-- What ties an image to the file that describes it: sixteen bytes in the order in which they are printed, and a
count that tells apart the builds that share them. -/
structure DebugId where
  uuid : Vector UInt8 16
  appendix : UInt32
deriving DecidableEq

namespace DebugId

def nil : DebugId := ⟨.replicate 16 0, 0⟩

def isNil (id : DebugId) : Bool := id == nil

/-- The first three fields of a stored identifier are little-endian and turn around; the other eight bytes stay. -/
def ofGuidAge (g : Vector UInt8 16) (age : UInt32) : DebugId :=
  ⟨#v[g[3], g[2], g[1], g[0], g[5], g[4], g[7], g[6], g[8], g[9], g[10], g[11], g[12], g[13], g[14], g[15]], age⟩

/-- The next `n` hexadecimal digits, with any number of dashes before and between them, and the text after the
last. -/
def takeDigits? : Nat → Text → Option (List UInt8 × Text)
  | 0, t => some ([], t)
  | _ + 1, [] => none
  | n + 1, b :: t =>
    if b = Text.code '-' then takeDigits? (n + 1) t
    else
      match Text.digitValue? 16 b, takeDigits? n t with
      | some d, some (ds, rest) => some (UInt8.ofNat d :: ds, rest)
      | _, _ => none

/-- Two digits to a byte. -/
def packDigits (ds : List UInt8) : Vector UInt8 16 :=
  .ofFn fun i => ds.getD (2 * i) 0 * 16 + ds.getD (2 * i + 1) 0

/-- The appendix is up to eight digits, and nothing stands for zero. -/
def readAppendix? (t : Text) : Option UInt32 :=
  if t = [] then some 0
  else if 8 < t.length then none
  else (Text.toNat? 16 t).map .ofNat

/-- Reads both written forms. -/
def ofText? (t : Text) : Option DebugId :=
  match takeDigits? 32 t with
  | none => none
  | some (ds, rest) =>
    (readAppendix? ((Text.prefixed? "-" rest).getD rest)).map (⟨packDigits ds, ·⟩)

/-- The bytes in groups of four, two, two, two and six; the appendix follows unless it is zero. -/
def toText (id : DebugId) : Text :=
  let group (start stop : Nat) : Text := ((id.uuid.toList.take stop).drop start).flatMap Text.hexByte
  Text.join "-" [group 0 4, group 4 6, group 6 8, group 8 10, group 10 16] ++
    (if id.appendix = 0 then [] else Text.code '-' :: Text.hex id.appendix.toNat)

/-- Upper-case digits without dashes, and always an appendix. -/
def toPlainText (id : DebugId) : Text :=
  Text.upper (id.uuid.toList.flatMap Text.hexByte ++ Text.hex id.appendix.toNat)

end DebugId

end CodeAtlas
