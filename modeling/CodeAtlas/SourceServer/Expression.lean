import CodeAtlas.SourceServer.Index

namespace CodeAtlas

open Text

theorem Text.length_lt_of_cut? {sep t before after : Text} (hs : sep ≠ []) (h : cut? sep t = some (before, after)) :
    after.length < t.length := by
  have hl := congrArg List.length (eq_append_of_cut? h)
  have hp := List.length_pos_iff.mpr hs
  simp only [List.length_append] at hl
  omega

namespace SourceIndex

/-- The functions that an expression can call. -/
inductive Function
  | valueOf
  | withBackslashes
  | fileName
deriving Repr, DecidableEq

def Function.ofName? (name : Text) : Option Function :=
  let name := lower name
  if name = "fnvar" then some valueOf
  else if name = "fnbksl" then some withBackslashes
  else if name = "fnfile" then some fileName
  else none

/-- The parts of an expression; a call whose argument does not end has no value. -/
inductive Item
  | literal (text : Text)
  | reference (name : Text)
  | call (function : Function) (argument : Text)
  | openCall
deriving Repr, DecidableEq

/-- Percent signs enclose a name. The name of a function is a call where a parenthesis follows. -/
def Item.list (t : Text) : List Item :=
  match _h1 : cut? "%" t with
  | none => [literal t]
  | some (text, rest) =>
    match _h2 : cut? "%" rest with
    | none => [literal t]
    | some (name, rest') =>
      match Function.ofName? name, _h3 : prefixed? "(" rest' with
      | some f, some arguments =>
        match _h4 : cut? ")" arguments with
        | some (argument, rest'') => literal text :: call f argument :: Item.list rest''
        | none => [openCall]
      | _, _ => literal text :: reference name :: Item.list rest'
termination_by t.length
decreasing_by
  · have l1 := length_lt_of_cut? (by decide) _h1
    have l2 := length_lt_of_cut? (by decide) _h2
    have l3 := congrArg List.length (prefixed?_eq_some_iff.mp _h3)
    have l4 := length_lt_of_cut? (by decide) _h4
    simp only [List.length_append] at l3
    omega
  · have l1 := length_lt_of_cut? (by decide) _h1
    have l2 := length_lt_of_cut? (by decide) _h2
    omega

/-- What an expression is evaluated for: the line of a file and the directory that files are extracted to. -/
structure Context where
  fields : List Text
  base : Text
deriving Repr, DecidableEq

/-- Fields are numbered from one. -/
def fieldNumber? (name : Text) : Option Nat :=
  ((prefixed? "var" (lower name)).bind (toNatBelow? UInt32.size 10)).filter (1 ≤ ·)

/-- The value of a name: the directory, a field, which is empty past the last one, or the value of a variable's
text. -/
def resolve? (index : SourceIndex) (c : Context) (value? : Text → Option Text) (name : Text) : Option Text :=
  if lower name = "targ" then some c.base
  else
    match fieldNumber? name with
    | some n => some ((c.fields[n - 1]?).getD [])
    | none => (index.textOf? name).bind value?

def call? (resolve? : Text → Option Text) (f : Function) (argument : Text) : Option Text :=
  match f with
  | .valueOf => resolve? argument
  | .withBackslashes => some (replace (code '/') (code '\\') argument)
  | .fileName =>
    some (argument.reverse.takeWhile fun b => b ≠ code '/' ∧ b ≠ code '\\').reverse

/-- The value of an expression, if it can be found without going more than `levels` texts deep. The value of an
argument and the text of a variable are one level down, and a variable that an argument names is one further. -/
def evaluate? (index : SourceIndex) (c : Context) : (levels : Nat) → Text → Option Text
  | 0, _ => none
  | levels + 1, t =>
    let value? := evaluate? index c levels
    let deeper? := match levels with
      | 0 => fun _ => none
      | levels + 1 => evaluate? index c levels
    let itemValue? : Item → Option Text
      | .literal text => some text
      | .reference name => index.resolve? c value? name
      | .call f argument => (value? argument).bind (call? (index.resolve? c deeper?) f)
      | .openCall => none
    ((Item.list t).mapM itemValue?).map List.flatten

/-- Twenty texts may be nested in one. -/
def maxLevels : Nat := 21

/-- How a source file is meant to be got. -/
inductive Retrieval
  | download (url : Text)
  | command (command : Text) (target : Option Text)
  | other
deriving Repr, DecidableEq

/-- How to get one file, and the fields of its line. -/
structure Source where
  retrieval : Retrieval
  fields : List Text
deriving Repr, DecidableEq

def isWebAddress (t : Text) : Bool := startsWith "https://" t || startsWith "http://" t

/-- A command counts before a target, and a target only if it is a web address. A file whose command or target has no
value is not there. -/
def source? (index : SourceIndex) (path base : Text) : Option Source := do
  let fields ← index.file? path
  let value? := index.evaluate? ⟨fields, base⟩ maxLevels
  let target ←
    match index.textOf? "SRCSRVTRG" with
    | some t => (value? t).map some
    | none => some none
  let command ←
    match (index.textOf? "SRCSRVCMD").filter fun t => trim t ≠ [] with
    | some t => value? t
    | none => some []
  if command ≠ [] then some ⟨.command command target, fields⟩
  else
    match target.filter isWebAddress with
    | some url => some ⟨.download url, fields⟩
    | none => some ⟨.other, fields⟩

end SourceIndex

end CodeAtlas
