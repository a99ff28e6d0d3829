import CodeAtlas.Text.Fields

namespace CodeAtlas.Mangled

open Text

/-- What a decorated name names besides a plain function. -/
inductive Special
  | constructor
  | destructor
deriving Repr, DecidableEq

/-- A fragment that refers to an earlier one, or that opens a template, is not spelled out in the name. -/
def isPlainFragment (f : Text) : Bool :=
  match f with
  | [] => false
  | [b] => b != code '?' && !isDigit b
  | b :: _ => b != code '?'

/-- The scopes of a decorated name, innermost first, when they are all spelled out. -/
def scopes? (t : Text) : Option (List Text) := do
  let (list, _) ← cut? "@@" t
  let fs := fields (code '@') list
  if fs.all isPlainFragment then some fs else none

/-- The qualified name in a decorated one; what comes after the scopes, the type, is left out. -/
def undecorate? (name : Text) : Option Text := do
  let t ← prefixed? "?" name
  let (special, t) ←
    match prefixed? "?0" t, prefixed? "?1" t with
    | some r, _ => some (some Special.constructor, r)
    | none, some r => some (some Special.destructor, r)
    | none, none => if startsWith "?" t then none else some (none, t)
  let fs ← scopes? t
  let qualified := join "::" fs.reverse
  match special with
  | none => some qualified
  | some .constructor => some (qualified ++ "::" ++ fs.headD [])
  | some .destructor => some (qualified ++ "::~" ++ fs.headD [])

end CodeAtlas.Mangled
