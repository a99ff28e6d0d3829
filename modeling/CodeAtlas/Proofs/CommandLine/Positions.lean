import CodeAtlas.Proofs.CommandLine.Rounds
import CodeAtlas.Proofs.Text.Pieces

namespace CodeAtlas.CommandLine

open Text

/-- Some of the arguments behind the name of the program, in their order, that do not start with a dash or are nothing
else. -/
def Operands (v ps : List Text) : Prop :=
  ps.Sublist v.tail ∧ ∀ argument ∈ ps, ofString "-" <+: argument → argument = ofString "-"

/-- One argument or several in a row, from the one at `k` on. -/
def IsSlice (v : List Text) (k : Nat) (inputs : List Text) : Prop := inputs ≠ [] ∧ inputs <+: v.drop k

/-- A place in a vector of arguments, the first of which is the name of the program. -/
structure Position where
  /-- The argument that is next, or of which one part is taken. -/
  index : Nat
  /-- Where the other part of it begins. -/
  inside : Option Nat
  /-- The argument at which the pass began. -/
  pass : Nat
deriving Repr, DecidableEq

namespace Position

def start : Position := ⟨1, none, 0⟩

/-- The next argument, if it is taken as a whole whatever it holds. -/
def positional? (v : List Text) (i : Position) : Option (Text × Position) :=
  match v[i.index]?, i.inside with
  | some argument, none =>
    if Arguments.isPositional argument then some (argument, ⟨i.index + 1, none, i.index⟩) else none
  | _, _ => none

/-- A pass begins at an argument, also where one part of that is taken. -/
def begin (i : Position) : Position := { i with pass := i.index }

/-- The next piece. The argument is left behind with its last piece only. -/
def next? (v : List Text) (i : Position) : Option (Text × Position) :=
  match v[i.index]?, i.inside with
  | none, _ => none
  | some argument, some n => some (argument.drop n, ⟨i.index + 1, none, i.pass⟩)
  | some argument, none =>
    match argument.idxOf? (code '=') with
    | some n => some (argument.take n, ⟨i.index, some (n + 1), i.pass⟩)
    | none => some (argument, ⟨i.index + 1, none, i.pass⟩)

/-- What is left after some pieces. -/
def after (v : List Text) : Nat → Position → Position
  | 0, i => i
  | n + 1, i =>
    match i.next? v with
    | none => i
    | some (_, j) => after v n j

/-- The first argument of which nothing is taken. -/
def stop (i : Position) : Nat := if i.inside.isSome then i.index + 1 else i.index

/-- The arguments of the pass, at least one, but none behind the end of the vector. -/
def inputs (v : List Text) (i : Position) : List Text :=
  (v.drop i.pass).take (min (max (i.stop - i.pass) 1) (v.length - i.pass))

/-- No fewer than the pieces that are left: two for each argument, and one where the first is taken in part. -/
def size (v : List Text) (i : Position) : Nat := 2 * (v.length - i.index) - i.inside.toList.length

variable {v ps taken : List Text} {i j : Position} {name piece argument : Text}

theorem next?_cases (h : i.next? v = some (piece, j)) : i.index < v.length ∧
    ((∃ n, i.inside = some n ∧ j = ⟨i.index + 1, none, i.pass⟩) ∨
      (i.inside = none ∧ ∃ n, j = ⟨i.index, some n, i.pass⟩) ∨
      (i.inside = none ∧ j = ⟨i.index + 1, none, i.pass⟩)) := by
  unfold next? at h
  split at h
  next => cases h
  next hargument hinside =>
    cases h
    obtain ⟨hlt, -⟩ := List.getElem?_eq_some_iff.mp hargument
    exact ⟨hlt, .inl ⟨_, hinside, rfl⟩⟩
  next hargument hinside =>
    obtain ⟨hlt, -⟩ := List.getElem?_eq_some_iff.mp hargument
    split at h
    next n _ =>
      cases h
      exact ⟨hlt, .inr (.inl ⟨hinside, n + 1, rfl⟩)⟩
    next =>
      cases h
      exact ⟨hlt, .inr (.inr ⟨hinside, rfl⟩)⟩

theorem next?_eq_none_iff : i.next? v = none ↔ v.length ≤ i.index := by
  rw [← List.getElem?_eq_none_iff]
  unfold next?
  split
  next hargument => simp [hargument]
  next hargument _ => simp [hargument]
  next hargument _ =>
    rw [hargument]
    split <;> simp

theorem positional?_cases (h : i.positional? v = some (argument, j)) :
    i.inside = none ∧ i.index < v.length ∧ v[i.index]? = some argument ∧ Arguments.isPositional argument = true ∧
      j = ⟨i.index + 1, none, i.index⟩ := by
  unfold positional? at h
  split at h
  next hargument hinside =>
    obtain ⟨hlt, -⟩ := List.getElem?_eq_some_iff.mp hargument
    split at h
    next hpositional =>
      cases h
      exact ⟨hinside, hlt, hargument, hpositional, rfl⟩
    next => cases h
  next => cases h

theorem size_next? (h : i.next? v = some (piece, j)) : j.size v < i.size v := by
  obtain ⟨hlt, ⟨n, hinside, rfl⟩ | ⟨hinside, n, rfl⟩ | ⟨hinside, rfl⟩⟩ := next?_cases h
  all_goals
    simp only [size, hinside, Option.toList_some, Option.toList_none, List.length_cons, List.length_nil]
    omega

theorem size_positional? (h : i.positional? v = some (argument, j)) : j.size v < i.size v := by
  obtain ⟨hinside, hlt, -, -, rfl⟩ := positional?_cases h
  simp only [size, hinside, Option.toList_none, List.length_nil]
  omega

/-- What every piece keeps is kept by any number of them. -/
theorem after_induction {P : Position → Prop} (h : ∀ i j piece, i.next? v = some (piece, j) → P i → P j) (n : Nat)
    (hi : P i) : P (i.after v n) := by
  induction n generalizing i with
  | zero => exact hi
  | succ n ih =>
    unfold after
    split
    next => exact hi
    next piece j hnext => exact ih (h i j piece hnext hi)

theorem size_after_le (n : Nat) (i : Position) : (i.after v n).size v ≤ i.size v := by
  refine after_induction (P := fun j => j.size v ≤ i.size v) ?_ n (Nat.le_refl _)
  intro j k piece hnext hle
  exact Nat.le_trans (Nat.le_of_lt (size_next? hnext)) hle

/-- The pieces that can still be taken. -/
def pieces (v : List Text) (i : Position) : List Text :=
  match _h : i.next? v with
  | none => []
  | some (piece, j) => piece :: j.pieces v
termination_by i.size v
decreasing_by exact size_next? _h

/-- What is still to be read from a place. -/
def arguments (v : List Text) (i : Position) : Arguments where
  pass := v.drop i.pass
  inline := i.inside.bind fun n => v[i.index]?.map fun argument => (argument, argument.drop n)
  rest := v.drop i.stop

theorem drop_stop_eq_nil (h : v[i.index]? = none) : v.drop i.stop = [] := by
  have hlength := List.getElem?_eq_none_iff.mp h
  have hstop : i.index ≤ i.stop := by
    unfold stop
    split <;> omega
  exact List.drop_eq_nil_of_le (Nat.le_trans hlength hstop)

theorem drop_index_eq_cons (h : v[i.index]? = some argument) :
    v.drop i.index = argument :: v.drop (i.index + 1) := by
  obtain ⟨hlt, hget⟩ := List.getElem?_eq_some_iff.mp h
  rw [List.drop_eq_getElem_cons hlt, hget]

theorem next?_arguments (v : List Text) (i : Position) :
    (i.arguments v).next? = (i.next? v).map (Prod.map id (arguments v)) := by
  cases hargument : v[i.index]? with
  | none =>
    have hrest := drop_stop_eq_nil hargument
    cases hinside : i.inside <;> simp [arguments, next?, Arguments.next?, hargument, hinside, hrest]
  | some argument =>
    cases hinside : i.inside with
    | some n => simp [arguments, next?, Arguments.next?, stop, hargument, hinside]
    | none =>
      have hcut : cut? "=" argument = _ := cut?_singleton_eq_map (code '=') argument
      have hrest := drop_index_eq_cons hargument
      cases hfind : argument.idxOf? (code '=') <;>
        simp [arguments, next?, Arguments.next?, stop, hargument, hinside, hrest, hcut, hfind]

theorem begin_arguments (v : List Text) (i : Position) : (i.arguments v).begin = i.begin.arguments v := by
  have hpending : (i.arguments v).pending = v.drop i.index := by
    cases hinside : i.inside with
    | none => simp [arguments, Arguments.pending, stop, hinside]
    | some n =>
      cases hargument : v[i.index]? with
      | none =>
        have hlength := List.getElem?_eq_none_iff.mp hargument
        have hindex : v.drop i.index = [] := List.drop_eq_nil_of_le hlength
        simp [arguments, Arguments.pending, hargument, hinside, drop_stop_eq_nil hargument, hindex]
      | some argument =>
        simp [arguments, Arguments.pending, stop, hargument, hinside, drop_index_eq_cons hargument]
  rw [Arguments.begin, hpending]
  rfl

/-- The arguments of the pass stay as they were, which is of no account: the next pass begins with its own. -/
theorem positional?_arguments (v : List Text) (i : Position) : (i.arguments v).positional? =
    (i.positional? v).map fun (argument, j) => (argument, { j.arguments v with pass := v.drop i.pass }) := by
  cases hargument : v[i.index]? with
  | none =>
    have hrest := drop_stop_eq_nil hargument
    cases hinside : i.inside <;> simp [arguments, positional?, Arguments.positional?, hargument, hinside, hrest]
  | some argument =>
    cases hinside : i.inside with
    | some n => simp [arguments, positional?, Arguments.positional?, hargument, hinside]
    | none =>
      have hrest := drop_index_eq_cons hargument
      by_cases hpositional : Arguments.isPositional argument = true <;>
        simp [arguments, positional?, Arguments.positional?, stop, hargument, hinside, hrest, hpositional]

theorem taken_arguments (v : List Text) (i : Position) : (i.arguments v).taken = i.inputs v := by
  simp only [arguments, Arguments.taken, inputs, List.length_drop]
  rw [List.take_eq_take_iff, List.length_drop]
  omega

theorem pieces_arguments (v : List Text) (i : Position) : (i.arguments v).pieces = i.pieces v := by
  fun_induction pieces v i with
  | case1 i h =>
    have hnext : (i.arguments v).next? = none := by rw [next?_arguments, h, Option.map_none]
    exact Arguments.pieces_of_next?_eq_none hnext
  | case2 i piece j h ih =>
    have hnext : (i.arguments v).next? = some (piece, j.arguments v) := by rw [next?_arguments, h]; rfl
    rw [Arguments.pieces_of_next? hnext, ih]

theorem drop_arguments (v : List Text) (n : Nat) (i : Position) :
    (i.arguments v).drop n = (i.after v n).arguments v := by
  induction n generalizing i with
  | zero => rfl
  | succ n ih =>
    rw [Arguments.drop, next?_arguments, after]
    cases i.next? v with
    | none => rfl
    | some next => exact ih next.2

/-- One turn of a loop over the vector, and what is taken as a whole in it. Behind a name any number of pieces is taken:
what options and commands do with them is left open. -/
inductive Turn (v : List Text) : Position → List Text → Position → Prop
  | positional {i j : Position} {argument : Text} (h : i.positional? v = some (argument, j)) : Turn v i [argument] j
  | named {i j : Position} {name : Text} (h : i.positional? v = none) (hname : i.begin.next? v = some (name, j))
      (n : Nat) : Turn v i [] (j.after v n)

/-- A place where a loop comes to that begins behind the name of the program, and what it takes as a whole until then. -/
inductive Reached (v : List Text) : List Text → Position → Prop
  | start : Reached v [] .start
  | turn {ps taken : List Text} {i j : Position} (h : Reached v ps i) (hturn : Turn v i taken j) :
      Reached v (ps ++ taken) j

/-- A loop comes to the argument `k` and begins a pass there. -/
def StartsPass (v : List Text) (k : Nat) : Prop :=
  ∃ ps i, Reached v ps i ∧ i.positional? v = none ∧ i.index = k

theorem size_turn (h : Turn v i taken j) : j.size v < i.size v := by
  cases h with
  | positional h => exact size_positional? h
  | named _ hname n => exact Nat.lt_of_le_of_lt (size_after_le n _) (size_next? (i := i.begin) hname)

theorem wellFounded_turn (v : List Text) : WellFounded fun j i => ∃ taken, Turn v i taken j := by
  apply Subrelation.wf
  · intro j i h
    obtain ⟨taken, hturn⟩ := h
    exact size_turn hturn
  · exact InvImage.wf (size v) Nat.lt_wfRel.wf

theorem pass_next? (h : i.next? v = some (piece, j)) : j.pass = i.pass := by
  obtain ⟨-, ⟨n, -, rfl⟩ | ⟨-, n, rfl⟩ | ⟨-, rfl⟩⟩ := next?_cases h <;> rfl

theorem index_le_next? (h : i.next? v = some (piece, j)) : i.index ≤ j.index := by
  obtain ⟨-, ⟨n, -, rfl⟩ | ⟨-, n, rfl⟩ | ⟨-, rfl⟩⟩ := next?_cases h <;> simp

theorem index_le_turn (h : Turn v i taken j) : i.index ≤ j.index := by
  cases h with
  | positional h =>
    obtain ⟨-, -, -, -, rfl⟩ := positional?_cases h
    exact Nat.le_succ _
  | named _ hname n =>
    refine after_induction (P := fun j => i.index ≤ j.index) ?_ n (index_le_next? (i := i.begin) hname)
    intro j k piece hnext hle
    exact Nat.le_trans hle (index_le_next? hnext)

theorem index_pos_of_reached (h : Reached v ps i) : 0 < i.index := by
  induction h with
  | start => exact Nat.one_pos
  | turn _ hturn ih => exact Nat.lt_of_lt_of_le ih (index_le_turn hturn)

/-- What is taken as a whole is found among the arguments that are behind the loop. -/
theorem sublist_of_reached (h : Reached v ps i) : ps.Sublist ((v.take i.index).drop 1) := by
  induction h with
  | start => exact List.nil_sublist _
  | @turn ps taken i j h hturn ih =>
    cases hturn with
    | positional h' =>
      obtain ⟨-, hlt, hargument, -, rfl⟩ := positional?_cases h'
      have hpos := index_pos_of_reached h
      have hlength : 1 ≤ (v.take i.index).length := by
        rw [List.length_take]
        omega
      rw [List.take_add_one, hargument, List.drop_append_of_le_length hlength]
      exact ih.append (List.Sublist.refl _)
    | named h' hname n =>
      have hle := index_le_turn (.named h' hname n)
      rw [List.append_nil]
      exact ih.trans ((List.take_sublist_take_left hle).drop 1)

theorem isPositional_of_reached (h : Reached v ps i) : ∀ argument ∈ ps, Arguments.isPositional argument = true := by
  induction h with
  | start => simp
  | turn _ hturn ih =>
    cases hturn with
    | positional h =>
      obtain ⟨-, -, -, hpositional, -⟩ := positional?_cases h
      intro argument hmem
      rcases List.mem_append.mp hmem with hmem | hmem
      · exact ih argument hmem
      · rwa [List.mem_singleton.mp hmem]
    | named => simpa using ih

/-- No argument is looked into that does not exist. -/
def Valid (v : List Text) (i : Position) : Prop := i.inside.isSome → i.index < v.length

theorem valid_next? (h : i.next? v = some (piece, j)) : Valid v j := by
  obtain ⟨hlt, ⟨n, -, rfl⟩ | ⟨-, n, rfl⟩ | ⟨-, rfl⟩⟩ := next?_cases h <;> simp [Valid, hlt]

theorem valid_of_reached (h : Reached v ps i) : Valid v i := by
  cases h with
  | start => simp [Valid, start]
  | turn _ hturn =>
    cases hturn with
    | positional h =>
      obtain ⟨-, -, -, -, rfl⟩ := positional?_cases h
      simp [Valid]
    | named _ hname n => exact after_induction (fun _ _ _ h _ => valid_next? h) n (valid_next? hname)

theorem operands_of_reached (h : Reached v ps i) : Operands v ps := by
  have hsublist := sublist_of_reached h
  rw [List.drop_take, List.drop_one] at hsublist
  refine ⟨hsublist.trans (List.take_sublist _ _), ?_⟩
  intro argument hargument hdash
  have hpositional := isPositional_of_reached h argument hargument
  simpa [Arguments.isPositional, startsWith_iff.mpr hdash] using hpositional

/-- However many pieces are taken in a pass, its arguments are a slice from the one at which it began. -/
theorem isSlice_inputs_after (hname : i.begin.next? v = some (name, j)) (n : Nat) :
    IsSlice v i.index ((j.after v n).inputs v) := by
  have hpass : (j.after v n).pass = i.index :=
    after_induction (P := fun j => j.pass = i.index) (fun _ _ _ h hp => (pass_next? h).trans hp) n (pass_next? hname)
  obtain ⟨hlt, -⟩ := next?_cases hname
  rw [inputs, hpass]
  refine ⟨List.ne_nil_of_length_pos ?_, List.take_prefix _ _⟩
  have hindex : i.index < v.length := hlt
  rw [List.length_take, List.length_drop]
  omega

end Position

end CodeAtlas.CommandLine
