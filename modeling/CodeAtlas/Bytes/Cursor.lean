import CodeAtlas.Bytes

namespace CodeAtlas

/-- A position in bytes that nobody vouches for. A step that asks for more than is left puts the position at the
end, yields zeros and marks the cursor for good, so a whole record is read first and judged once. -/
structure Cursor where
  data : Bytes
  pos : Nat
  overrun : Bool
deriving Repr, DecidableEq

namespace Cursor

def ofBytes (data : Bytes) : Cursor := ⟨data, 0, false⟩

/-- How many bytes follow the position. -/
def left (c : Cursor) : Nat := c.data.size - c.pos

def hasMore (c : Cursor) : Bool := c.pos < c.data.size

/-- The bytes that follow the position. -/
def rest (c : Cursor) : Bytes := c.data.drop c.pos

def spoil (c : Cursor) : Cursor := { c with pos := c.data.size, overrun := true }

def advance (n : Nat) (c : Cursor) : Cursor := { c with pos := c.pos + n }

/-- The next `n` bytes, all of them or none. -/
def bytes (n : Nat) (c : Cursor) : Bytes × Cursor :=
  if n ≤ c.left then (c.data.extract c.pos (c.pos + n), c.advance n) else (#[], c.spoil)

/-- The value of the next `width` bytes; it is zero where they are missing. -/
def value (width : Nat) (c : Cursor) : Nat × Cursor :=
  let (part, c) := c.bytes width
  (leValue part.toList, c)

/-- The value of the next `width` bytes, which stay unread; looking past the end leaves no mark. -/
def peek (width : Nat) (c : Cursor) : Nat := (c.value width).1

/-- The bytes before the next NUL. The NUL is passed over; without one there is no text. -/
def cstring (c : Cursor) : Text × Cursor :=
  let text := c.data.untilNul c.pos
  if c.pos + text.length < c.data.size then (text, c.advance (text.length + 1)) else ([], c.spoil)

def skip (n : Nat) (c : Cursor) : Cursor := if n ≤ c.left then c.advance n else c.spoil

/-- Moves on to the next multiple of `alignment`, counted from the first byte of the data. -/
def align (alignment : Nat) (c : Cursor) : Cursor :=
  if c.pos % alignment = 0 then c else c.skip (alignment - c.pos % alignment)

def seek (pos : Nat) (c : Cursor) : Cursor :=
  if pos ≤ c.data.size then { c with pos := pos } else c.spoil

end Cursor

/-- A reader decodes something at a cursor and moves it. -/
abbrev Reader := StateM Cursor

namespace Reader

def bytes (n : Nat) : Reader Bytes := Cursor.bytes n

def u8 : Reader UInt8 := .ofNat <$> Cursor.value 1

def u16 : Reader UInt16 := .ofNat <$> Cursor.value 2

def u32 : Reader UInt32 := .ofNat <$> Cursor.value 4

def cstring : Reader Text := Cursor.cstring

def skip (n : Nat) : Reader Unit := modify (Cursor.skip n)

def align (alignment : Nat) : Reader Unit := modify (Cursor.align alignment)

def seek (pos : Nat) : Reader Unit := modify (Cursor.seek pos)

/-- The same reader run `n` times. -/
def times (n : Nat) (r : Reader α) : Reader (List α) :=
  match n with
  | 0 => pure []
  | n + 1 => do
    let a ← r
    let as ← times n r
    pure (a :: as)

/-- What a reader finds at the start of the data, unless it needs more than there is. -/
def decode? (r : Reader α) (data : Bytes) : Option α :=
  let (a, c) := r.run (.ofBytes data)
  if c.overrun then none else some a

end Reader

end CodeAtlas
