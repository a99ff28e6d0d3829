namespace CodeAtlas

/-- Names and paths come from files that promise no encoding, so a text is its bytes. -/
abbrev Text := List UInt8

namespace Text

/-- The UTF-8 bytes of a string. -/
def ofString (s : String) : Text := s.toList.flatMap String.utf8EncodeChar

instance : Coe String Text := ⟨ofString⟩

/-- The byte of an ASCII character. -/
def code (c : Char) : UInt8 := UInt8.ofNat c.toNat

/-- Letters outside ASCII keep their bytes. -/
def lowerByte (b : UInt8) : UInt8 := if code 'A' ≤ b ∧ b ≤ code 'Z' then b + 32 else b

def upperByte (b : UInt8) : UInt8 := if code 'a' ≤ b ∧ b ≤ code 'z' then b - 32 else b

def lower (t : Text) : Text := t.map lowerByte

def upper (t : Text) : Text := t.map upperByte

def equalsIgnoreCase (s t : Text) : Bool := s.lower == t.lower

/-- The six ASCII blanks: tab, line feed, vertical tab, form feed, carriage return and space. -/
def isBlank (b : UInt8) : Bool := b == 32 || (9 ≤ b && b ≤ 13)

def isDigit (b : UInt8) : Bool := code '0' ≤ b && b ≤ code '9'

def trimRight (t : Text) : Text := (t.reverse.dropWhile isBlank).reverse

def trim (t : Text) : Text := trimRight (t.dropWhile isBlank)

/-- `prefixed? p t` is what follows `p` in `t`. -/
def prefixed? : Text → Text → Option Text
  | [], t => some t
  | _ :: _, [] => none
  | p :: ps, b :: t => if p = b then prefixed? ps t else none

theorem prefixed?_eq_some_iff {p t rest : Text} : prefixed? p t = some rest ↔ t = p ++ rest := by
  induction p generalizing t with
  | nil => simp [prefixed?, eq_comm]
  | cons a p ih =>
    cases t with
    | nil => simp [prefixed?]
    | cons b t =>
      by_cases h : a = b
      · simp [prefixed?, h, ih]
      · simp [prefixed?, h, Ne.symm h]

def startsWith (p t : Text) : Bool := (prefixed? p t).isSome

/-- Cuts at the first occurrence of `sep`, which belongs to neither side. -/
def cut? (sep : Text) : Text → Option (Text × Text)
  | [] => if sep = [] then some ([], []) else none
  | b :: t =>
    match prefixed? sep (b :: t) with
    | some rest => some ([], rest)
    | none => (cut? sep t).map fun (before, after) => (b :: before, after)

theorem eq_append_of_cut? {sep t before after : Text} (h : cut? sep t = some (before, after)) :
    t = before ++ sep ++ after := by
  induction t generalizing before after with
  | nil =>
    by_cases hs : sep = []
    · simp [cut?, hs] at h
      simp [h, hs]
    · simp [cut?, hs] at h
  | cons b t ih =>
    rw [cut?] at h
    split at h
    next rest hr =>
      simp only [Option.some.injEq, Prod.mk.injEq] at h
      simpa [← h.1, ← h.2] using prefixed?_eq_some_iff.mp hr
    next =>
      obtain ⟨⟨x, y⟩, hx, he⟩ := Option.map_eq_some_iff.mp h
      simp only [Prod.mk.injEq] at he
      simp [← he.1, ← he.2, ih hx]

/-- The text before the first `b`, or all of it. -/
def before (b : UInt8) (t : Text) : Text := t.takeWhile (· != b)

/-- The text after the last `b`, or all of it. -/
def afterLast (b : UInt8) (t : Text) : Text := (t.reverse.takeWhile (· != b)).reverse

def replace (old new : UInt8) (t : Text) : Text := t.map fun b => if b = old then new else b

/-- `join sep [x, y, z]` is `x ++ sep ++ y ++ sep ++ z`. -/
def join (sep : Text) : List Text → Text
  | [] => []
  | [t] => t
  | t :: ts => t ++ sep ++ join sep ts

end Text

end CodeAtlas
