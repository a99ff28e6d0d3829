import CodeAtlas.CommandLine.Arguments
import CodeAtlas.CommandLine.Fault

namespace CodeAtlas.CommandLine

/-- How an option is called, and what it is for. A name that it does not have is empty. -/
structure Synopsis where
  short : Text
  long : Text
  info : Text
  isFlag : Bool
deriving Repr, DecidableEq

namespace Synopsis

def names (s : Synopsis) : List Text := [s.short, s.long].filter (· ≠ [])

end Synopsis

/-- Reads the pieces that follow a name, and says how many of them it takes. -/
abbrev Reading (α : Type) := List Text → α × Nat

namespace Reading

/-- The next piece is the value. -/
def value (read : Text → Except Fault α) : Reading (Except Fault α)
  | [] => (.error .missingValue, 0)
  | piece :: _ => (read piece, 1)

/-- The name alone says it all. -/
def flag (a : α) : Reading (Except Fault α) := fun _ => (.ok a, 0)

/-- All that follows. -/
def all (f : List Text → α) : Reading α := fun pieces => (f pieces, pieces.length)

end Reading

/-- An option changes settings of the type `σ`. -/
structure Choice (σ : Type) where
  synopsis : Synopsis
  read : Reading (Except Fault (σ → σ))

/-- What a command does as soon as it is met. -/
inductive Effect (σ : Type)
  | proceed (change : σ → σ)
  /-- Ends the program, successfully, with a last output. -/
  | leave (output : Text)

structure Command (σ : Type) where
  synopsis : Synopsis
  run : Reading (Effect σ)

/-- An environment variable changes settings like an option. A value that cannot be read changes nothing. -/
structure Variable (σ : Type) where
  synopsis : Synopsis
  read : Text → Option (σ → σ)

/-- All that a command line may hold, and the settings without it. -/
structure Registry (σ : Type) where
  usage : Text
  defaults : σ
  options : List (Choice σ)
  commands : List (Command σ)
  environment : List (Variable σ)

/-- What a command line says. -/
structure Parsed (σ : Type) where
  settings : σ
  positionals : List Text
  complaints : List Complaint

namespace Parsed

def addPositional (p : Parsed σ) (argument : Text) : Parsed σ :=
  { p with positionals := p.positionals ++ [argument] }

def complain (p : Parsed σ) (fault : Fault) (inputs : List Text) : Parsed σ :=
  { p with complaints := p.complaints ++ [⟨fault, inputs⟩] }

def change (p : Parsed σ) (f : σ → σ) : Parsed σ := { p with settings := f p.settings }

end Parsed

namespace Registry

def option? (r : Registry σ) (name : Text) : Option (Choice σ) := r.options.find? (·.synopsis.names.contains name)

def command? (r : Registry σ) (name : Text) : Option (Command σ) := r.commands.find? (·.synopsis.names.contains name)

/-- What a name does that was just taken from the arguments, and the arguments after it. A command may end the
program with an output. -/
def perform (r : Registry σ) (name : Text) (a : Arguments) (p : Parsed σ) : Except Text (Parsed σ × Arguments) :=
  match r.option? name with
  | some option =>
    let (result, n) := option.read a.pieces
    let b := a.drop n
    match result with
    | .ok change => .ok (p.change change, b)
    | .error fault => .ok (p.complain fault b.taken, b)
  | none =>
    match r.command? name with
    | some command =>
      let (effect, n) := command.run a.pieces
      match effect with
      | .proceed change => .ok (p.change change, a.drop n)
      | .leave output => .error output
    | none => .ok (p.complain .unrecognized a.taken, a)

theorem size_perform_le {r : Registry σ} {name : Text} {a b : Arguments} {p q : Parsed σ}
    (h : r.perform name a p = .ok (q, b)) : b.size ≤ a.size := by
  simp only [perform] at h
  split at h
  · split at h <;> cases h <;> exact a.size_drop_le _
  · split at h
    · split at h <;> cases h
      exact a.size_drop_le _
    · cases h
      exact Nat.le_refl _

/-- Reads all arguments. A part of an argument that is left over is the next name. -/
def readAll (r : Registry σ) (a : Arguments) (p : Parsed σ) : Except Text (Parsed σ) :=
  match _ha : a.positional? with
  | some (argument, b) => r.readAll b (p.addPositional argument)
  | none =>
    match _hn : a.begin.next? with
    | none => .ok p
    | some (name, b) =>
      match _hp : r.perform name b p with
      | .error output => .error output
      | .ok (q, c) => r.readAll c q
termination_by a.size
decreasing_by
  · exact Arguments.size_positional? _ha
  · exact Nat.lt_of_le_of_lt (size_perform_le _hp) (Arguments.size_next? (a := a.begin) _hn)

/-- The variables that are set count after the arguments. -/
def readEnvironment (r : Registry σ) (value? : Text → Option Text) (settings : σ) : σ :=
  r.environment.foldl (fun s v => ((value? v.synopsis.long).bind v.read).elim s (· s)) settings

/-- What a command line says, without the name of the program, and what the environment adds to it. -/
def parse (r : Registry σ) (value? : Text → Option Text) (arguments : List Text) : Except Text (Parsed σ) :=
  (r.readAll (.ofList arguments) ⟨r.defaults, [], []⟩).map fun p =>
    { p with settings := r.readEnvironment value? p.settings }

end Registry

end CodeAtlas.CommandLine
