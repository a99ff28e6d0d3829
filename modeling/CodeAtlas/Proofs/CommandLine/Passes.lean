import CodeAtlas.CommandLine.Settings
import CodeAtlas.Proofs.CommandLine.Positions
import CodeAtlas.Proofs.Outcome
import Mathlib.Computability.StateTransition

namespace CodeAtlas.CommandLine

open Text StateTransition

namespace Command

/-- Never ends the program. -/
def Returns (c : Command σ) : Prop := ∀ pieces, ∃ change, (c.run pieces).1 = .proceed change

end Command

namespace Registry

variable {r : Registry σ} {v : List Text} {i j : Position} {p q : Parsed σ} {name : Text}
  {s s' : Except Text (Parsed σ × Position)}

/-- What a name does that was just taken at a place, and the place after it. -/
def performAt (r : Registry σ) (v : List Text) (name : Text) (i : Position) (p : Parsed σ) :
    Except Text (Parsed σ × Position) :=
  match r.option? name with
  | some option =>
    let (result, n) := option.read (i.pieces v)
    let j := i.after v n
    match result with
    | .ok change => .ok (p.change change, j)
    | .error fault => .ok (p.complain fault (j.inputs v), j)
  | none =>
    match r.command? name with
    | some command =>
      let (effect, n) := command.run (i.pieces v)
      match effect with
      | .proceed change => .ok (p.change change, i.after v n)
      | .leave output => .error output
    | none => .ok (p.complain .unrecognized (i.inputs v), i)

/-- One turn of the loop over a vector. There is none at its end, and none once a command has ended the program. -/
def turn? (r : Registry σ) (v : List Text) :
    Except Text (Parsed σ × Position) → Option (Except Text (Parsed σ × Position))
  | .error _ => none
  | .ok (p, i) =>
    match i.positional? v with
    | some (argument, j) => some (.ok (p.addPositional argument, j))
    | none => (i.begin.next? v).map fun (name, j) => r.performAt v name j p

def loopStart (r : Registry σ) : Except Text (Parsed σ × Position) := .ok (⟨r.defaults, [], []⟩, .start)

/-- What the arguments that are left add to a state of the loop. -/
def outcome (r : Registry σ) (v : List Text) : Except Text (Parsed σ × Position) → Except Text (Parsed σ)
  | .error output => .error output
  | .ok (p, i) => r.readAll (i.arguments v) p

theorem perform_arguments (r : Registry σ) (v : List Text) (name : Text) (i : Position) (p : Parsed σ) :
    r.perform name (i.arguments v) p = (r.performAt v name i p).map (Prod.map id (Position.arguments v)) := by
  simp only [perform, performAt, Position.pieces_arguments, Position.drop_arguments, Position.taken_arguments]
  cases r.option? name with
  | some option =>
    dsimp only
    cases (option.read (i.pieces v)).1 <;> rfl
  | none =>
    dsimp only
    cases r.command? name with
    | some command =>
      dsimp only
      cases (command.run (i.pieces v)).1 <;> rfl
    | none => rfl

/-- The arguments of a pass are of no account once it is over: the next pass begins with its own. -/
theorem readAll_pass (r : Registry σ) (a : Arguments) (p : Parsed σ) (pass : List Text) :
    r.readAll { a with pass } p = r.readAll a p := by
  induction hn : a.size using Nat.strongRecOn generalizing a p with
  | ind n ih =>
    obtain rfl := hn
    rw [readAll_eq, readAll_eq r a, Arguments.positional?_pass]
    cases ha : a.positional? with
    | none => rfl
    | some next => exact ih _ (Arguments.size_positional? ha) next.2 _ rfl

/-- The loop goes on as long as there is an argument that is not left behind. -/
theorem turn?_eq_none_iff : r.turn? v (.ok (p, i)) = none ↔ v.length ≤ i.index := by
  rw [turn?]
  split
  next argument j hi =>
    obtain ⟨-, hlt, -⟩ := Position.positional?_cases hi
    exact iff_of_false (by simp) (by omega)
  next => exact Option.map_eq_none_iff.trans (Position.next?_eq_none_iff (i := i.begin))

theorem outcome_turn? (h : r.turn? v s = some s') : r.outcome v s = r.outcome v s' := by
  cases s with
  | error output => cases h
  | ok state =>
    obtain ⟨p, i⟩ := state
    rw [turn?] at h
    have hpositional := i.positional?_arguments v
    split at h
    next argument j hi =>
      cases h
      rw [hi] at hpositional
      simp only [outcome]
      rw [readAll_of_round (.positional hpositional)]
      exact r.readAll_pass _ _ _
    next hi =>
      rw [hi] at hpositional
      obtain ⟨⟨name, j⟩, hname, hperform⟩ := Option.map_eq_some_iff.mp h
      have hnext : (i.arguments v).begin.next? = some (name, j.arguments v) := by
        rw [Position.begin_arguments, Position.next?_arguments, hname]
        rfl
      have harguments := r.perform_arguments v name j p
      rw [show r.performAt v name j p = s' from hperform] at harguments
      cases s' with
      | error output => exact readAll_of_error hpositional hnext harguments
      | ok state => exact readAll_of_round (.named hpositional hnext harguments)

theorem outcome_of_end (h : r.turn? v s = none) : r.outcome v s = s.map Prod.fst := by
  cases s with
  | error output => rfl
  | ok state =>
    obtain ⟨p, i⟩ := state
    rw [turn?] at h
    split at h
    next => cases h
    next hi =>
      have hpositional := i.positional?_arguments v
      rw [hi] at hpositional
      have hnext : (i.arguments v).begin.next? = none := by
        rw [Position.begin_arguments, Position.next?_arguments, Option.map_eq_none_iff.mp h]
        rfl
      exact readAll_of_end hpositional hnext

theorem outcome_of_reaches (h : Reaches (r.turn? v) s s') : r.outcome v s = r.outcome v s' := by
  induction h with
  | refl => rfl
  | tail _ hturn ih => rw [ih, outcome_turn? hturn]

/-- A name is answered with a change or with a complaint that changes nothing, and behind it some pieces are taken. -/
theorem performAt_cases (h : r.performAt v name i p = .ok (q, j)) : ∃ n, j = i.after v n ∧
    ((∃ change, q = p.change change) ∨ ∃ fault, q = p.complain fault (j.inputs v)) := by
  simp only [performAt] at h
  split at h
  next option _ =>
    split at h
    next change _ =>
      cases h
      exact ⟨_, rfl, .inl ⟨change, rfl⟩⟩
    next fault _ =>
      cases h
      exact ⟨_, rfl, .inr ⟨fault, rfl⟩⟩
  next =>
    split at h
    next command _ =>
      split at h
      next change _ =>
        cases h
        exact ⟨_, rfl, .inl ⟨change, rfl⟩⟩
      next => cases h
    next =>
      cases h
      exact ⟨0, rfl, .inr ⟨_, rfl⟩⟩

/-- What one turn adds to what the arguments say: an argument as it stands, a change, or a complaint. -/
inductive Adds (v : List Text) (i : Position) (p : Parsed σ) : List Text → Parsed σ → Prop
  | positional (argument : Text) : Adds v i p [argument] (p.addPositional argument)
  | change (f : σ → σ) : Adds v i p [] (p.change f)
  | complaint (fault : Fault) (inputs : List Text) (hpass : i.positional? v = none)
      (hinputs : IsSlice v i.index inputs) : Adds v i p [] (p.complain fault inputs)

theorem adds_of_turn? (h : r.turn? v (.ok (p, i)) = some (.ok (q, j))) :
    ∃ taken, Position.Turn v i taken j ∧ Adds v i p taken q := by
  rw [turn?] at h
  split at h
  next argument k hi =>
    cases h
    exact ⟨[argument], .positional hi, .positional argument⟩
  next hi =>
    obtain ⟨⟨name, k⟩, hname, hperform⟩ := Option.map_eq_some_iff.mp h
    obtain ⟨n, rfl, ⟨change, rfl⟩ | ⟨fault, rfl⟩⟩ := performAt_cases hperform
    · exact ⟨[], .named hi hname n, .change change⟩
    · exact ⟨[], .named hi hname n, .complaint fault _ hi (Position.isSlice_inputs_after hname n)⟩

/-- How far the loop has to go at most. -/
def left (v : List Text) : Except Text (Parsed σ × Position) → Nat
  | .error _ => 0
  | .ok (_, i) => i.size v + 1

theorem left_turn? (h : r.turn? v s = some s') : left v s' < left v s := by
  cases s with
  | error output => cases h
  | ok state =>
    obtain ⟨p, i⟩ := state
    cases s' with
    | error output => exact Nat.succ_pos _
    | ok state =>
      obtain ⟨q, j⟩ := state
      obtain ⟨taken, hturn, -⟩ := adds_of_turn? h
      exact Nat.succ_lt_succ (Position.size_turn hturn)

theorem dom_eval_turn? (r : Registry σ) (v : List Text) (s : Except Text (Parsed σ × Position)) :
    (eval (r.turn? v) s).Dom := by
  induction hn : left v s using Nat.strongRecOn generalizing s with
  | ind n ih =>
    obtain rfl := hn
    cases hturn : r.turn? v s with
    | none => exact Part.dom_iff_mem.mpr ⟨s, mem_eval.mpr ⟨.refl, hturn⟩⟩
    | some s' =>
      rw [reaches_eval (.single hturn)]
      exact ih _ (left_turn? hturn) s' rfl

theorem map_eval_turn? (r : Registry σ) (v : List Text) (s : Except Text (Parsed σ × Position)) :
    (eval (r.turn? v) s).map (Except.map Prod.fst) = .some (r.outcome v s) := by
  obtain ⟨s', hs'⟩ := Part.dom_iff_mem.mp (r.dom_eval_turn? v s)
  obtain ⟨hreaches, hend⟩ := mem_eval.mp hs'
  rw [outcome_of_reaches hreaches, outcome_of_end hend]
  exact Part.eq_some_iff.mpr (Part.mem_map _ hs')

/-- What holds wherever the loop comes to: what was taken as a whole, and where the arguments of complaints come from. -/
structure Traced (v : List Text) (p : Parsed σ) (i : Position) : Prop where
  reached : Position.Reached v p.positionals i
  complaint : ∀ c ∈ p.complaints, ∃ k, Position.StartsPass v k ∧ IsSlice v k c.inputs

theorem Traced.turn {taken : List Text} (h : Traced v p i) (hturn : Position.Turn v i taken j)
    (hadds : Adds v i p taken q) : Traced v q j := by
  have hreached := h.reached.turn hturn
  cases hadds with
  | positional argument => exact ⟨hreached, h.complaint⟩
  | change f =>
    rw [List.append_nil] at hreached
    exact ⟨hreached, h.complaint⟩
  | complaint fault inputs hpass hinputs =>
    rw [List.append_nil] at hreached
    refine ⟨hreached, ?_⟩
    intro c hc
    rcases List.mem_append.mp hc with hc | hc
    · exact h.complaint c hc
    · obtain rfl := List.mem_singleton.mp hc
      exact ⟨i.index, ⟨_, i, h.reached, hpass, rfl⟩, hinputs⟩

theorem traced_of_reaches (h : Reaches (r.turn? v) r.loopStart (.ok (p, i))) : Traced v p i := by
  generalize hs : Except.ok (p, i) = s at h
  induction h generalizing p i with
  | refl =>
    cases hs
    exact ⟨.start, by simp⟩
  | @tail before _ _ hturn ih =>
    subst hs
    cases before with
    | error output => cases hturn
    | ok state =>
      obtain ⟨taken, hturn', hadds⟩ := adds_of_turn? hturn
      exact (ih rfl).turn hturn' hadds

theorem outcome_loopStart (r : Registry σ) (v : List Text) :
    r.outcome v r.loopStart = r.readAll (.ofList v.tail) ⟨r.defaults, [], []⟩ := by
  have hpass := r.readAll_pass (Position.start.arguments v) ⟨r.defaults, [], []⟩ v.tail
  rw [← List.drop_one] at hpass ⊢
  exact hpass.symm

theorem traced_of_readAll (h : r.readAll (.ofList v.tail) ⟨r.defaults, [], []⟩ = .ok p) : ∃ i, Traced v p i := by
  have hmap := r.map_eval_turn? v r.loopStart
  rw [outcome_loopStart, h] at hmap
  obtain ⟨s, hs, hp⟩ := (Part.mem_map_iff _).mp (Part.eq_some_iff.mp hmap)
  obtain ⟨hreaches, -⟩ := mem_eval.mp hs
  cases s with
  | error output => cases hp
  | ok state =>
    cases hp
    exact ⟨state.2, traced_of_reaches hreaches⟩

theorem exists_perform (h : ∀ command ∈ r.commands, command.Returns) (name : Text) (a : Arguments) (p : Parsed σ) :
    ∃ q b, r.perform name a p = .ok (q, b) := by
  simp only [perform]
  split
  next option _ =>
    split
    next => exact ⟨_, _, rfl⟩
    next => exact ⟨_, _, rfl⟩
  next =>
    split
    next command hcommand =>
      obtain ⟨change, hchange⟩ := h command (List.mem_of_find?_eq_some hcommand) a.pieces
      rw [hchange]
      exact ⟨_, _, rfl⟩
    next => exact ⟨_, _, rfl⟩

theorem exists_readAll (h : ∀ command ∈ r.commands, command.Returns) (a : Arguments) (p : Parsed σ) :
    ∃ q, r.readAll a p = .ok q := by
  fun_induction readAll r a p with
  | case1 a p argument b ha ih => exact ih
  | case2 a p ha hnext => exact ⟨p, rfl⟩
  | case3 a p ha name b hnext output hperform =>
    obtain ⟨q, c, hok⟩ := exists_perform h name b p
    rw [hperform] at hok
    cases hok
  | case4 a p ha name b hnext q c hperform ih => exact ih

/-- An option whose value cannot be read costs its pieces and leaves all settings alone. -/
theorem turn?_of_error {option : Choice σ} {fault : Fault} (hi : i.positional? v = none)
    (hname : i.begin.next? v = some (name, j)) (hoption : r.option? name = some option)
    (hread : (option.read (j.pieces v)).1 = .error fault) (p : Parsed σ) :
    ∃ n, r.turn? v (.ok (p, i)) = some (.ok (p.complain fault ((j.after v n).inputs v), j.after v n)) := by
  refine ⟨(option.read (j.pieces v)).2, ?_⟩
  rw [turn?, hi]
  simp only [hname, Option.map_some, performAt, hoption, hread]

/-- How a vector of arguments is read. The loop over it ends, and so does every loop over it, whatever is done with the
pieces behind a name. What is taken as a whole are operands. The arguments that are shown of a pass, at any time in it,
are a slice that begins where the pass began. An option whose value cannot be read leaves the settings as they are. -/
structure ReadsVector (r : Registry σ) (v : List Text) : Prop where
  wellFounded : WellFounded fun j i => ∃ taken, Position.Turn v i taken j
  loop : (eval (r.turn? v) r.loopStart).map (Except.map Prod.fst) =
    .some (r.readAll (.ofList v.tail) ⟨r.defaults, [], []⟩)
  returns : (∀ command ∈ r.commands, command.Returns) → ∀ value?, ∃ p, r.parse value? v.tail = .ok p
  turn?_eq_none_iff : ∀ (p : Parsed σ) (i : Position), r.turn? v (.ok (p, i)) = none ↔ v.length ≤ i.index
  turn : ∀ (p q : Parsed σ) (i j : Position), r.turn? v (.ok (p, i)) = some (.ok (q, j)) →
    ∃ taken, Position.Turn v i taken j ∧ Adds v i p taken q
  valid : ∀ ps i, Position.Reached v ps i → i.Valid v
  operands : ∀ ps i, Position.Reached v ps i → Operands v ps
  slices : ∀ ps i name j, Position.Reached v ps i → i.positional? v = none → i.begin.next? v = some (name, j) →
    ∀ n, IsSlice v i.index ((j.after v n).inputs v)
  keeps : ∀ (p : Parsed σ) (i : Position) name j option fault, i.positional? v = none →
    i.begin.next? v = some (name, j) → r.option? name = some option →
      (option.read (j.pieces v)).1 = .error fault → ∃ q k inputs, r.turn? v (.ok (p, i)) = some (.ok (q, k)) ∧
        q.settings = p.settings ∧ q.complaints = p.complaints ++ [⟨fault, inputs⟩]
  result : ∀ value? p, r.parse value? v.tail = .ok p →
    Operands v p.positionals ∧ ∀ c ∈ p.complaints, ∃ k, Position.StartsPass v k ∧ IsSlice v k c.inputs

theorem readsVector (r : Registry σ) (v : List Text) : r.ReadsVector v where
  wellFounded := Position.wellFounded_turn v
  loop := by rw [map_eval_turn?, outcome_loopStart]
  returns h value? := by
    obtain ⟨p, hp⟩ := exists_readAll h (.ofList v.tail) ⟨r.defaults, [], []⟩
    exact ⟨_, map_eq_ok_iff.mpr ⟨p, hp, rfl⟩⟩
  turn?_eq_none_iff _ _ := turn?_eq_none_iff
  turn _ _ _ _ h := adds_of_turn? h
  valid _ _ h := Position.valid_of_reached h
  operands _ _ h := Position.operands_of_reached h
  slices _ _ _ _ _ _ hname n := Position.isSlice_inputs_after hname n
  keeps p i name j option fault hi hname hoption hread := by
    obtain ⟨n, hturn⟩ := turn?_of_error hi hname hoption hread p
    exact ⟨_, _, _, hturn, rfl, rfl⟩
  result value? p h := by
    obtain ⟨q, hq, rfl⟩ := map_eq_ok_iff.mp h
    obtain ⟨i, htraced⟩ := traced_of_readAll hq
    exact ⟨Position.operands_of_reached htraced.reached, htraced.complaint⟩

end Registry

/-- The part behind the equals sign that nobody takes is read as a name, and the argument is shown once more. -/
example : ((Settings.registry fun _ => false).readAll (.ofList ["-k", "x=y", "-", "a=b"]) ⟨.defaults, [], []⟩).map
    (fun p => (p.settings.kind, p.positionals, p.complaints)) =
      .ok (.relative, ["-", "a=b"], [⟨.invalidFormat, ["-k", "x=y"]⟩, ⟨.unrecognized, ["x=y"]⟩]) := by
  decide +kernel

end CodeAtlas.CommandLine
