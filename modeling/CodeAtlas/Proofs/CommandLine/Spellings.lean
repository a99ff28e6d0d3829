import CodeAtlas.CommandLine.Settings
import CodeAtlas.Proofs.CommandLine.Rounds
import CodeAtlas.Proofs.Text.Pieces
import Mathlib.Data.List.Basic

namespace CodeAtlas.CommandLine

open Text

namespace Arguments

variable {argument name value : Text} {pass rest : List Text} {a b : Arguments}

theorem cut?_of_not_mem (h : code '=' ∉ argument) : cut? "=" argument = none := cut?_singleton_eq_none h

theorem cut?_inline (h : code '=' ∉ name) : cut? "=" (name ++ "=" ++ value) = some (name, value) :=
  cut?_singleton_eq_some_iff.mpr ⟨List.append_assoc name _ value, h⟩

theorem next?_of_not_mem (h : code '=' ∉ argument) :
    (⟨pass, none, argument :: rest⟩ : Arguments).next? = some (argument, ⟨pass, none, rest⟩) := by
  rw [next?, cut?_of_not_mem h]

theorem next?_inline (h : code '=' ∉ name) : (⟨pass, none, (name ++ "=" ++ value) :: rest⟩ : Arguments).next? =
    some (name, ⟨pass, some (name ++ "=" ++ value, value), rest⟩) := by
  rw [next?, cut?_inline h]

/-- A name stays a name where a value is appended. -/
theorem isPositional_inline (h : isPositional name = false) : isPositional (name ++ "=" ++ value) = false := by
  obtain ⟨hdash, -⟩ : startsWith "-" name = true ∧ name ≠ "-" := by simpa [isPositional] using h
  have hstart : ofString "-" <+: name := startsWith_iff.mp hdash
  have hstarts : startsWith "-" (name ++ "=" ++ value) = true :=
    startsWith_iff.mpr ((hstart.trans (List.prefix_append name "=")).trans (List.prefix_append _ value))
  have hne : name ++ "=" ++ value ≠ "-" := fun heq => by
    have hlength := congrArg List.length heq
    have hshort := hstart.length_le
    have hequals : ("=" : Text).length = 1 := rfl
    simp only [List.length_append, hequals] at hlength
    omega
  rw [isPositional, hstarts, Bool.not_true, Bool.false_or, beq_eq_false_iff_ne]
  exact hne

theorem positional?_eq_none (h : isPositional argument = false) :
    (⟨pass, none, argument :: rest⟩ : Arguments).positional? = none := by
  rw [positional?, if_neg (by simp [h])]

/-- What a reading has taken is what is missing at its end. -/
theorem taken_of_append {inline : Option (Text × Text)} {taken : List Text} (h : pass = taken ++ rest)
    (hne : taken ≠ []) : (⟨pass, inline, rest⟩ : Arguments).taken = taken := by
  obtain rfl := h
  have hlength := List.length_pos_iff.mpr hne
  have hmax : max ((taken ++ rest).length - rest.length) 1 = taken.length := by
    rw [List.length_append]
    omega
  rw [Arguments.taken, hmax, List.take_left]

theorem drop_one (h : a.next? = some (value, b)) : a.drop 1 = b := by
  rw [drop, h]
  rfl

end Arguments

/-- What an option that takes one value makes of it. -/
def Parsed.take (p : Parsed σ) (result : Except Fault (σ → σ)) (inputs : List Text) : Parsed σ :=
  match result with
  | .ok change => p.change change
  | .error fault => p.complain fault inputs

theorem Parsed.said_take {p q : Parsed σ} (h : p.said = q.said) (result : Except Fault (σ → σ))
    (inputs inputs' : List Text) : (p.take result inputs).said = (q.take result inputs').said := by
  cases result with
  | ok change => exact said_change h change
  | error fault => exact said_complain h fault inputs inputs'

namespace Registry

variable {r : Registry σ} {n : Text} {option : Choice σ} {read : Text → Except Fault (σ → σ)} {a b : Arguments}
  {p : Parsed σ} {v : Text}

theorem perform_value (hoption : r.option? n = some option) (hread : option.read = .value read)
    (hnext : a.next? = some (v, b)) : r.perform n a p = .ok (p.take (read v) b.taken, b) := by
  have hvalue : option.read a.pieces = (read v, 1) := by
    rw [hread, Arguments.pieces_of_next? hnext]
    rfl
  simp only [perform, hoption, hvalue, Arguments.drop_one hnext]
  cases read v <;> rfl

/-- An option that takes one value, called by one of its names. A value without an equals sign may stand alone or
behind the name; one with an equals sign is taken whole only behind the name. Alone it is cut: the option has the part
before the sign, and the part behind it is the next name. -/
structure TakesValue (r : Registry σ) (n : Text) (read : Text → Except Fault (σ → σ)) : Prop where
  same : ∀ before v after pass p, code '=' ∉ v →
    r.Arrives (.ofList (before ++ n :: v :: after)) ⟨r.defaults, [], []⟩ ⟨pass, none, n :: v :: after⟩ p →
    ∀ value?, (r.parse value? (before ++ n :: v :: after)).map Parsed.said =
      (r.parse value? (before ++ (n ++ "=" ++ v) :: after)).map Parsed.said
  inline : ∀ pass v after p, r.readAll ⟨pass, none, (n ++ "=" ++ v) :: after⟩ p =
    r.readAll ⟨(n ++ "=" ++ v) :: after, none, after⟩ (p.take (read v) [n ++ "=" ++ v])
  alone : ∀ pass v after p, code '=' ∉ v → r.readAll ⟨pass, none, n :: v :: after⟩ p =
    r.readAll ⟨n :: v :: after, none, after⟩ (p.take (read v) [n, v])
  cut : ∀ pass x y after p, code '=' ∉ x → r.readAll ⟨pass, none, n :: (x ++ "=" ++ y) :: after⟩ p =
    match r.perform y ⟨(x ++ "=" ++ y) :: after, none, after⟩ (p.take (read x) [n, x ++ "=" ++ y]) with
    | .error output => .error output
    | .ok (q, b) => r.readAll b q

/-- The environment changes settings in the same way. -/
theorem map_said_parse {args args' : List Text} (value? : Text → Option Text)
    (h : (r.readAll (.ofList args) ⟨r.defaults, [], []⟩).map Parsed.said =
      (r.readAll (.ofList args') ⟨r.defaults, [], []⟩).map Parsed.said) :
    (r.parse value? args).map Parsed.said = (r.parse value? args').map Parsed.said := by
  have hmap : ∀ result : Except Text (Parsed σ),
      (result.map fun p => { p with settings := r.readEnvironment value? p.settings }).map Parsed.said =
        (result.map Parsed.said).map fun said => (r.readEnvironment value? said.1, said.2) := fun result => by
    cases result <;> rfl
  rw [parse, parse, hmap, hmap, h]

section TakesValue

variable {x y : Text} {pass after : List Text}

theorem readAll_inline (hoption : r.option? n = some option) (hread : option.read = .value read)
    (hname : code '=' ∉ n) (hdash : Arguments.isPositional n = false) :
    r.readAll ⟨pass, none, (n ++ "=" ++ v) :: after⟩ p =
      r.readAll ⟨(n ++ "=" ++ v) :: after, none, after⟩ (p.take (read v) [n ++ "=" ++ v]) := by
  have hperform := perform_value (p := p) hoption hread
    (a := ⟨(n ++ "=" ++ v) :: after, some (n ++ "=" ++ v, v), after⟩) (b := ⟨_, none, after⟩) rfl
  have htaken : (⟨(n ++ "=" ++ v) :: after, none, after⟩ : Arguments).taken = [n ++ "=" ++ v] :=
    Arguments.taken_of_append (by rfl) (List.cons_ne_nil _ _)
  rw [htaken] at hperform
  exact readAll_of_round (.named (Arguments.positional?_eq_none (Arguments.isPositional_inline hdash))
    (Arguments.next?_inline hname) hperform)

theorem readAll_alone (hoption : r.option? n = some option) (hread : option.read = .value read)
    (hname : code '=' ∉ n) (hdash : Arguments.isPositional n = false) (hv : code '=' ∉ v) :
    r.readAll ⟨pass, none, n :: v :: after⟩ p =
      r.readAll ⟨n :: v :: after, none, after⟩ (p.take (read v) [n, v]) := by
  have hnext : (⟨n :: v :: after, none, v :: after⟩ : Arguments).next? = some (v, ⟨n :: v :: after, none, after⟩) :=
    Arguments.next?_of_not_mem hv
  have hperform := perform_value (p := p) hoption hread hnext
  have htaken : (⟨n :: v :: after, none, after⟩ : Arguments).taken = [n, v] :=
    Arguments.taken_of_append (by rfl) (List.cons_ne_nil _ _)
  rw [htaken] at hperform
  exact readAll_of_round (.named (Arguments.positional?_eq_none hdash) (Arguments.next?_of_not_mem hname) hperform)

theorem readAll_cut (hoption : r.option? n = some option) (hread : option.read = .value read)
    (hname : code '=' ∉ n) (hdash : Arguments.isPositional n = false) (hx : code '=' ∉ x) :
    r.readAll ⟨pass, none, n :: (x ++ "=" ++ y) :: after⟩ p =
      match r.perform y ⟨(x ++ "=" ++ y) :: after, none, after⟩ (p.take (read x) [n, x ++ "=" ++ y]) with
      | .error output => .error output
      | .ok (q, b) => r.readAll b q := by
  have hnext : (⟨n :: (x ++ "=" ++ y) :: after, none, (x ++ "=" ++ y) :: after⟩ : Arguments).next? =
      some (x, ⟨n :: (x ++ "=" ++ y) :: after, some (x ++ "=" ++ y, y), after⟩) := Arguments.next?_inline hx
  have hperform := perform_value (p := p) hoption hread hnext
  have htaken : (⟨n :: (x ++ "=" ++ y) :: after, some (x ++ "=" ++ y, y), after⟩ : Arguments).taken =
      [n, x ++ "=" ++ y] := Arguments.taken_of_append (by rfl) (List.cons_ne_nil _ _)
  rw [htaken] at hperform
  rw [readAll_of_round (.named (Arguments.positional?_eq_none hdash) (Arguments.next?_of_not_mem hname) hperform),
    readAll_eq]
  rfl

theorem takesValue (hoption : r.option? n = some option) (hread : option.read = .value read)
    (hname : code '=' ∉ n) (hdash : Arguments.isPositional n = false) : r.TakesValue n read where
  same before v after pass p hv harrives value? := by
    have hparts : (n :: v :: after).flatMap Arguments.parts =
        ((n ++ "=" ++ v) :: after).flatMap Arguments.parts := by
      simp only [List.flatMap_cons, Arguments.parts, Arguments.cut?_of_not_mem hname, Arguments.cut?_of_not_mem hv,
        Arguments.cut?_inline hname, List.cons_append, List.nil_append]
    obtain ⟨b, q, harrives', halike, hsaid⟩ := arrives_alike hparts (by simp)
      (Arguments.alike_append _ (before ++ (n ++ "=" ++ v) :: after) before) rfl harrives (Nat.le_refl _)
    obtain ⟨pass', rfl⟩ := halike.eq_of_rest_eq
    apply map_said_parse
    calc (r.readAll (.ofList (before ++ n :: v :: after)) ⟨r.defaults, [], []⟩).map Parsed.said
      _ = (r.readAll ⟨n :: v :: after, none, after⟩ (p.take (read v) [n, v])).map Parsed.said := by
        rw [readAll_of_arrives harrives, readAll_alone hoption hread hname hdash hv]
      _ = (r.readAll ⟨(n ++ "=" ++ v) :: after, none, after⟩ (q.take (read v) [n ++ "=" ++ v])).map Parsed.said :=
        said_readAll (Arguments.alike_of_rest_eq _ _ after) (Parsed.said_take hsaid (read v) _ _)
      _ = (r.readAll (.ofList (before ++ (n ++ "=" ++ v) :: after)) ⟨r.defaults, [], []⟩).map Parsed.said := by
        rw [← readAll_inline hoption hread hname hdash, ← readAll_of_arrives harrives']
        rfl
  inline pass v after p := readAll_inline hoption hread hname hdash
  alone pass v after p hv := readAll_alone hoption hread hname hdash hv
  cut pass x y after p hx := readAll_cut hoption hread hname hdash hx

end TakesValue

end Registry

namespace Settings

theorem takesValue_registry :
    (registry fun _ => false).TakesValue "-s" (fun t => .ok fun s => { s with symbolDirectories := searchPath t }) ∧
    let said (args : List Text) := ((registry fun _ => false).parse (fun _ => none) args).map Parsed.said
    said ["x", "-s", "--list", "y"] = said ["x", "-s=--list", "y"] := by
  have h : (registry fun _ => false).TakesValue "-s"
      fun t => .ok fun s => { s with symbolDirectories := searchPath t } :=
    Registry.takesValue rfl rfl (by decide) (by decide)
  have harrives : (registry fun _ => false).Arrives (.ofList ["x", "-s", "--list", "y"]) ⟨defaults, [], []⟩
      ⟨["x", "-s", "--list", "y"], none, ["-s", "--list", "y"]⟩ ⟨defaults, ["x"], []⟩ :=
    .next (.positional rfl) (.here _ _)
  exact ⟨h, h.same ["x"] "--list" ["y"] _ _ (by decide) harrives fun _ => none⟩

/-- A directory with an equals sign in its name is cut where it stands alone. -/
theorem cut_symbolDirectory :
    ((registry fun _ => false).parse (fun _ => none) ["-s", "a=b"]).map Parsed.said =
        .ok (⟨["a"], none, .relative, false, []⟩, [], [.unrecognized]) ∧
      ((registry fun _ => false).parse (fun _ => none) ["-s=a=b"]).map Parsed.said =
        .ok (⟨["a=b"], none, .relative, false, []⟩, [], []) := by
  decide +kernel

end Settings

end CodeAtlas.CommandLine
