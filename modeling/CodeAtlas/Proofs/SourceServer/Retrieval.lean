import CodeAtlas.SourceServer.Permalinks
import Mathlib.Tactic.SplitIfs

namespace CodeAtlas.SourceIndex

open Text

/-- The value of the target for a file, where there is a target. -/
def target? (index : SourceIndex) (base : Text) (fields : List Text) : Option (Option Text) :=
  match index.textOf? "SRCSRVTRG" with
  | some t => (index.evaluate? ⟨fields, base⟩ maxLevels t).map some
  | none => some none

/-- The value of the command for a file, which is empty where there is no command. -/
def command? (index : SourceIndex) (base : Text) (fields : List Text) : Option Text :=
  match (index.textOf? "SRCSRVCMD").filter fun t => trim t ≠ [] with
  | some t => index.evaluate? ⟨fields, base⟩ maxLevels t
  | none => some []

/-- A command counts before a target, and a target only if it is a web address. -/
def Retrieval.of (command : Text) (target : Option Text) : Retrieval :=
  if command ≠ [] then .command command target
  else
    match target.filter isWebAddress with
    | some url => .download url
    | none => .other

variable {index : SourceIndex} {path base : Text} {source : Source}

theorem some_of (command : Text) (target : Option Text) (fields : List Text) :
    (if command ≠ [] then some ⟨.command command target, fields⟩
      else match target.filter isWebAddress with
        | some url => some ⟨.download url, fields⟩
        | none => some ⟨.other, fields⟩) = some (Source.mk (.of command target) fields) := by
  rw [Retrieval.of]
  split_ifs
  · rfl
  · cases target.filter isWebAddress <;> rfl

theorem source?_eq (index : SourceIndex) (path base : Text) : index.source? path base =
    (index.file? path).bind fun fields => (index.target? base fields).bind fun target =>
      (index.command? base fields).map fun command => ⟨.of command target, fields⟩ := by
  rw [source?]
  refine congrArg _ (funext fun fields => ?_)
  rw [target?, command?]
  cases index.textOf? "SRCSRVTRG" with
  | none =>
    cases (index.textOf? "SRCSRVCMD").filter fun t => trim t ≠ [] with
    | none => exact some_of [] none fields
    | some c =>
      dsimp only
      cases index.evaluate? ⟨fields, base⟩ maxLevels c with
      | none => rfl
      | some command => exact some_of command none fields
  | some t =>
    dsimp only
    cases index.evaluate? ⟨fields, base⟩ maxLevels t with
    | none => rfl
    | some target =>
      cases (index.textOf? "SRCSRVCMD").filter fun t => trim t ≠ [] with
      | none => exact some_of [] (some target) fields
      | some c =>
        dsimp only
        cases index.evaluate? ⟨fields, base⟩ maxLevels c with
        | none => rfl
        | some command => exact some_of command (some target) fields

end CodeAtlas.SourceIndex
