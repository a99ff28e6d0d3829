import CodeAtlas.Text

namespace CodeAtlas.CommandLine

/-- The arguments that are still to be read. A reading starts at some argument and takes pieces one by one: a whole
argument, or the part before its first equals sign and then the part behind it. -/
structure Arguments where
  /-- The arguments from the one on at which the reading started. -/
  pass : List Text
  /-- An argument of which one part is taken, and the other part. -/
  inline : Option (Text × Text)
  rest : List Text
deriving Repr, DecidableEq

namespace Arguments

open Text

def ofList (arguments : List Text) : Arguments := ⟨arguments, none, arguments⟩

/-- All arguments that are not taken as a whole. -/
def pending (a : Arguments) : List Text := (a.inline.map (·.1)).toList ++ a.rest

/-- The number of pieces that are left, if every argument has two. -/
def size (a : Arguments) : Nat := 2 * a.rest.length + a.inline.toList.length

/-- The next piece, if there is one. -/
def next? : Arguments → Option (Text × Arguments)
  | ⟨pass, some (_, value), rest⟩ => some (value, ⟨pass, none, rest⟩)
  | ⟨_, none, []⟩ => none
  | ⟨pass, none, argument :: rest⟩ =>
    match cut? "=" argument with
    | some (name, value) => some (name, ⟨pass, some (argument, value), rest⟩)
    | none => some (argument, ⟨pass, none, rest⟩)

theorem size_next? {a b : Arguments} {piece : Text} (h : a.next? = some (piece, b)) : b.size < a.size := by
  rw [next?.eq_def] at h
  split at h
  · cases h
    simp [size]
  · cases h
  · split at h <;> cases h <;> (simp only [size, Option.toList, List.length_cons, List.length_nil]; omega)

/-- The pieces that can still be taken. -/
def pieces (a : Arguments) : List Text :=
  match _h : a.next? with
  | none => []
  | some (piece, b) => piece :: b.pieces
termination_by a.size
decreasing_by exact size_next? _h

/-- What is left after some pieces. -/
def drop : Nat → Arguments → Arguments
  | 0, a => a
  | n + 1, a =>
    match a.next? with
    | none => a
    | some (_, b) => drop n b

theorem size_drop_le (n : Nat) (a : Arguments) : (a.drop n).size ≤ a.size := by
  induction n generalizing a with
  | zero => exact Nat.le_refl _
  | succ n ih =>
    rw [drop]
    split
    · exact Nat.le_refl _
    next b h => exact Nat.le_trans (ih b) (Nat.le_of_lt (size_next? h))

/-- Starts a reading at the first argument that is not taken as a whole. -/
def begin (a : Arguments) : Arguments := { a with pass := a.pending }

/-- The arguments of the reading, with one that is taken in part and at least the one at which it started. -/
def taken (a : Arguments) : List Text := a.pass.take (max (a.pass.length - a.rest.length) 1)

/-- An argument that names no option and no command does not start with a dash, or is nothing else. -/
def isPositional (argument : Text) : Bool := !startsWith "-" argument || argument == "-"

/-- The next argument, if it is taken as a whole whatever it holds. -/
def positional? : Arguments → Option (Text × Arguments)
  | ⟨pass, none, argument :: rest⟩ => if isPositional argument then some (argument, ⟨pass, none, rest⟩) else none
  | _ => none

theorem size_positional? {a b : Arguments} {argument : Text} (h : a.positional? = some (argument, b)) :
    b.size < a.size := by
  rw [positional?.eq_def] at h
  split at h
  · split at h <;> cases h
    simp [size]
  · cases h

end Arguments

end CodeAtlas.CommandLine
