import CodeAtlas.CommandLine.Registry

namespace CodeAtlas.CommandLine

namespace Arguments

variable {a b : Arguments} {piece argument : Text}

/-- The pieces of an argument that is not taken as a whole. -/
def parts (argument : Text) : List Text :=
  match Text.cut? "=" argument with
  | some (name, value) => [name, value]
  | none => [argument]

theorem pieces_of_next?_eq_none (h : a.next? = none) : a.pieces = [] := by
  rw [pieces]
  split
  next => rfl
  next h' =>
    rw [h] at h'
    cases h'

theorem pieces_of_next? (h : a.next? = some (piece, b)) : a.pieces = piece :: b.pieces := by
  rw [pieces]
  split
  next h' =>
    rw [h] at h'
    cases h'
  next h' =>
    rw [h] at h'
    cases h'
    rfl

theorem pieces_eq (a : Arguments) : a.pieces = (a.inline.map (·.2)).toList ++ a.rest.flatMap parts := by
  fun_induction pieces a with
  | case1 a h =>
    obtain ⟨pass, inline, rest⟩ := a
    cases inline with
    | some part => cases h
    | none =>
      cases rest with
      | nil => rfl
      | cons argument rest =>
        rw [next?] at h
        split at h <;> cases h
  | case2 a piece b h ih =>
    obtain ⟨pass, inline, rest⟩ := a
    cases inline with
    | some part =>
      cases h
      rw [ih]
      rfl
    | none =>
      cases rest with
      | nil => cases h
      | cons argument rest =>
        rw [next?] at h
        rw [ih, List.flatMap_cons, parts]
        generalize Text.cut? "=" argument = cut at h ⊢
        cases cut with
        | none =>
          cases h
          rfl
        | some part =>
          cases h
          rfl

theorem positional?_pass (a : Arguments) (pass : List Text) : ({ a with pass } : Arguments).positional? =
    a.positional?.map fun (argument, b) => (argument, { b with pass }) := by
  obtain ⟨pass', inline, rest⟩ := a
  cases inline with
  | some part => rfl
  | none =>
    cases rest with
    | nil => rfl
    | cons argument rest =>
      simp only [positional?]
      split <;> rfl

theorem length_rest_next? (h : a.next? = some (piece, b)) : b.rest.length ≤ a.rest.length := by
  rw [next?.eq_def] at h
  split at h
  · cases h
    exact Nat.le_refl _
  · cases h
  · split at h <;> cases h <;> exact Nat.le_succ _

theorem length_rest_drop (n : Nat) (a : Arguments) : (a.drop n).rest.length ≤ a.rest.length := by
  induction n generalizing a with
  | zero => exact Nat.le_refl _
  | succ n ih =>
    rw [drop]
    split
    next => exact Nat.le_refl _
    next b h => exact Nat.le_trans (ih b) (length_rest_next? h)

theorem length_rest_positional? (h : a.positional? = some (argument, b)) : b.rest.length ≤ a.rest.length := by
  rw [positional?.eq_def] at h
  split at h
  · split at h <;> cases h
    exact Nat.le_succ _
  · cases h

/-- What is left is alike, but where it ends in `s` here it ends in `t` there. -/
inductive Alike (s t : List Text) : Arguments → Arguments → Prop
  | inline (pass pass' : List Text) (argument argument' value : Text) (xs : List Text) :
      Alike s t ⟨pass, some (argument, value), xs ++ s⟩ ⟨pass', some (argument', value), xs ++ t⟩
  | whole (pass pass' : List Text) (x : Text) (xs : List Text) :
      Alike s t ⟨pass, none, x :: (xs ++ s)⟩ ⟨pass', none, x :: (xs ++ t)⟩
  | reached (pass pass' : List Text) : Alike s t ⟨pass, none, s⟩ ⟨pass', none, t⟩

variable {s t : List Text}

theorem alike_append (pass pass' xs : List Text) : Alike s t ⟨pass, none, xs ++ s⟩ ⟨pass', none, xs ++ t⟩ := by
  cases xs with
  | nil => exact .reached pass pass'
  | cons x xs => exact .whole pass pass' x xs

theorem alike_of_rest_eq (pass pass' rest : List Text) : Alike [] [] ⟨pass, none, rest⟩ ⟨pass', none, rest⟩ := by
  have h := alike_append (s := []) (t := []) pass pass' rest
  rwa [List.append_nil] at h

namespace Alike

theorem begin (h : Alike s t a b) : Alike s t a.begin b.begin := by
  cases h with
  | inline => exact .inline _ _ _ _ _ _
  | whole => exact .whole _ _ _ _
  | reached => exact .reached _ _

theorem pieces_eq (h : Alike s t a b) (hst : s.flatMap parts = t.flatMap parts) : a.pieces = b.pieces := by
  rw [Arguments.pieces_eq, Arguments.pieces_eq]
  cases h with
  | inline => simp [hst]
  | whole => simp [hst]
  | reached => simp [hst]

/-- The end is not touched, so the piece is the same. -/
theorem next? {a' : Arguments} (h : Alike s t a b) (ha : a.next? = some (piece, a'))
    (hlength : s.length ≤ a'.rest.length) : ∃ b', b.next? = some (piece, b') ∧ Alike s t a' b' := by
  cases h with
  | inline pass pass' argument argument' value xs =>
    cases ha
    exact ⟨_, rfl, alike_append pass pass' xs⟩
  | whole pass pass' x xs =>
    rw [Arguments.next?] at ha ⊢
    split at ha
    next name value _ =>
      cases ha
      exact ⟨_, rfl, .inline pass pass' x x value xs⟩
    next =>
      cases ha
      exact ⟨_, rfl, alike_append pass pass' xs⟩
  | reached pass pass' =>
    cases s with
    | nil => cases ha
    | cons x s =>
      rw [Arguments.next?] at ha
      split at ha <;> cases ha <;> exact absurd hlength (Nat.not_succ_le_self _)

/-- With the end all that is left, it is all that is left there. -/
theorem eq_of_rest_eq {pass : List Text} (h : Alike s t ⟨pass, none, s⟩ b) : ∃ pass', b = ⟨pass', none, t⟩ := by
  generalize ha : (⟨pass, none, s⟩ : Arguments) = a at h
  cases h with
  | inline => cases ha
  | whole _ _ x xs =>
    have hlength := congrArg (fun a => a.rest.length) ha
    simp only [List.length_cons, List.length_append] at hlength
    omega
  | reached _ pass' => exact ⟨pass', rfl⟩

theorem next?_eq_none (h : Alike s t a b) (hst : s = [] → t = []) (ha : a.next? = none) : b.next? = none := by
  cases h with
  | inline => cases ha
  | whole =>
    rw [Arguments.next?] at ha
    split at ha <;> cases ha
  | reached pass pass' =>
    cases s with
    | nil =>
      rw [hst rfl]
      rfl
    | cons x s =>
      rw [Arguments.next?] at ha
      split at ha <;> cases ha

theorem drop (h : Alike s t a b) (hst : s = [] → t = []) {n : Nat} (hlength : s.length ≤ (a.drop n).rest.length) :
    Alike s t (a.drop n) (b.drop n) := by
  induction n generalizing a b with
  | zero => exact h
  | succ n ih =>
    cases ha : a.next? with
    | none =>
      simp only [Arguments.drop, ha, h.next?_eq_none hst ha]
      exact h
    | some next =>
      obtain ⟨piece, a'⟩ := next
      simp only [Arguments.drop, ha] at hlength ⊢
      obtain ⟨b', hb, hrest⟩ := h.next? ha (Nat.le_trans hlength (length_rest_drop n a'))
      rw [hb]
      exact ih hrest hlength

theorem positional? {a' : Arguments} (h : Alike s t a b) (ha : a.positional? = some (argument, a'))
    (hlength : s.length ≤ a'.rest.length) : ∃ b', b.positional? = some (argument, b') ∧ Alike s t a' b' := by
  cases h with
  | inline => cases ha
  | whole pass pass' x xs =>
    rw [Arguments.positional?] at ha ⊢
    split at ha
    next hx =>
      cases ha
      rw [if_pos hx]
      exact ⟨_, rfl, alike_append pass pass' xs⟩
    next => cases ha
  | reached pass pass' =>
    cases s with
    | nil => cases ha
    | cons x s =>
      rw [Arguments.positional?] at ha
      split at ha <;> cases ha
      exact absurd hlength (Nat.not_succ_le_self _)

/-- Where a name is taken without touching the end, no positional argument is there either. -/
theorem positional?_eq_none {a' : Arguments} (h : Alike s t a b) (ha : a.positional? = none)
    (hnext : a.begin.next? = some (piece, a')) (hlength : s.length ≤ a'.rest.length) : b.positional? = none := by
  cases h with
  | inline => rfl
  | whole pass pass' x xs =>
    rw [Arguments.positional?] at ha ⊢
    split at ha
    next => cases ha
    next hx => rw [if_neg hx]
  | reached pass pass' =>
    cases s with
    | nil => cases hnext
    | cons x s =>
      rw [Arguments.begin, Arguments.next?] at hnext
      split at hnext <;> cases hnext <;> exact absurd hlength (Nat.not_succ_le_self _)

end Alike

end Arguments

namespace Parsed

variable {σ : Type} {p q : Parsed σ}

/-- What a command line says, but not which arguments show what is wrong with it. -/
def said (p : Parsed σ) : σ × List Text × List Fault := (p.settings, p.positionals, p.complaints.map (·.fault))

theorem said_addPositional (h : p.said = q.said) (argument : Text) :
    (p.addPositional argument).said = (q.addPositional argument).said := by
  obtain ⟨hsettings, hpositionals, hfaults⟩ := by simpa only [said, Prod.mk.injEq] using h
  simp only [said, addPositional, hsettings, hpositionals, hfaults]

theorem said_change (h : p.said = q.said) (f : σ → σ) : (p.change f).said = (q.change f).said := by
  obtain ⟨hsettings, hpositionals, hfaults⟩ := by simpa only [said, Prod.mk.injEq] using h
  simp only [said, change, hsettings, hpositionals, hfaults]

theorem said_complain (h : p.said = q.said) (fault : Fault) (inputs inputs' : List Text) :
    (p.complain fault inputs).said = (q.complain fault inputs').said := by
  obtain ⟨hsettings, hpositionals, hfaults⟩ := by simpa only [said, Prod.mk.injEq] using h
  simp only [said, complain, hsettings, hpositionals, List.map_append, hfaults, List.map_cons, List.map_nil]

end Parsed

namespace Registry

variable {σ : Type} {r : Registry σ} {a b c : Arguments} {p q : Parsed σ}

/-- One argument that stands for itself is read, or one name with what belongs to it. -/
inductive Round (r : Registry σ) : Arguments → Parsed σ → Arguments → Parsed σ → Prop
  | positional {a b : Arguments} {p : Parsed σ} {argument : Text} (h : a.positional? = some (argument, b)) :
      Round r a p b (p.addPositional argument)
  | named {a b c : Arguments} {p q : Parsed σ} {name : Text} (ha : a.positional? = none)
      (hname : a.begin.next? = some (name, b)) (h : r.perform name b p = .ok (q, c)) : Round r a p c q

inductive Arrives (r : Registry σ) : Arguments → Parsed σ → Arguments → Parsed σ → Prop
  | here (a : Arguments) (p : Parsed σ) : Arrives r a p a p
  | next {a b c : Arguments} {p q s : Parsed σ} (h : Round r a p b q) (hrest : Arrives r b q c s) : Arrives r a p c s

theorem readAll_eq (r : Registry σ) (a : Arguments) (p : Parsed σ) : r.readAll a p =
    match a.positional? with
    | some (argument, b) => r.readAll b (p.addPositional argument)
    | none =>
      match a.begin.next? with
      | none => .ok p
      | some (name, b) =>
        match r.perform name b p with
        | .error output => .error output
        | .ok (q, c) => r.readAll c q := by
  rw [readAll]
  split
  next h => rw [h]
  next h =>
    rw [h]
    dsimp only
    split
    next hnext => rw [hnext]
    next hnext =>
      rw [hnext]
      dsimp only
      split <;> rename_i hperform <;> rw [hperform]

theorem readAll_of_round (h : r.Round a p b q) : r.readAll a p = r.readAll b q := by
  cases h with
  | positional h => rw [readAll_eq, h]
  | named ha hname h =>
    rw [readAll_eq, ha, hname]
    dsimp only
    rw [h]

theorem readAll_of_arrives (h : r.Arrives a p b q) : r.readAll a p = r.readAll b q := by
  induction h with
  | here => rfl
  | next h _ ih => rw [readAll_of_round h, ih]

theorem readAll_of_end (ha : a.positional? = none) (hnext : a.begin.next? = none) : r.readAll a p = .ok p := by
  rw [readAll_eq, ha, hnext]

theorem readAll_of_error {name output : Text} (ha : a.positional? = none) (hname : a.begin.next? = some (name, b))
    (h : r.perform name b p = .error output) : r.readAll a p = .error output := by
  rw [readAll_eq, ha, hname]
  dsimp only
  rw [h]

theorem length_rest_perform {name : Text} (h : r.perform name a p = .ok (q, b)) : b.rest.length ≤ a.rest.length := by
  simp only [perform] at h
  split at h
  · split at h <;> cases h <;> exact Arguments.length_rest_drop _ a
  · split at h
    · split at h <;> cases h
      exact Arguments.length_rest_drop _ a
    · cases h
      exact Nat.le_refl _

theorem length_rest_round (h : r.Round a p b q) : b.rest.length ≤ a.rest.length := by
  cases h with
  | positional h => exact Arguments.length_rest_positional? h
  | named _ hname h => exact Nat.le_trans (length_rest_perform h) (Arguments.length_rest_next? (a := a.begin) hname)

theorem length_rest_arrives (h : r.Arrives a p b q) : b.rest.length ≤ a.rest.length := by
  induction h with
  | here => exact Nat.le_refl _
  | next h _ ih => exact Nat.le_trans ih (length_rest_round h)

section Alike

open Arguments

variable {s t : List Text} {a' b' : Arguments} {p' q' : Parsed σ} {name : Text}

/-- The pieces are the same, so they are read in the same way. -/
theorem perform_alike (hparts : s.flatMap parts = t.flatMap parts) (hst : s = [] → t = []) (hab : Alike s t a b)
    (hpq : p.said = q.said) (h : r.perform name a p = .ok (p', a')) (hlength : s.length ≤ a'.rest.length) :
    ∃ b' q', r.perform name b q = .ok (q', b') ∧ Alike s t a' b' ∧ p'.said = q'.said := by
  simp only [perform] at h ⊢
  rw [← hab.pieces_eq hparts]
  split at h
  next option _ =>
    split at h
    next change _ =>
      cases h
      exact ⟨_, _, rfl, hab.drop hst hlength, Parsed.said_change hpq change⟩
    next fault _ =>
      cases h
      exact ⟨_, _, rfl, hab.drop hst hlength, Parsed.said_complain hpq fault _ _⟩
  next =>
    split at h
    next command _ =>
      split at h
      next change _ =>
        cases h
        exact ⟨_, _, rfl, hab.drop hst hlength, Parsed.said_change hpq change⟩
      next => cases h
    next =>
      cases h
      exact ⟨_, _, rfl, hab, Parsed.said_complain hpq _ _ _⟩

theorem perform_alike_error (hparts : s.flatMap parts = t.flatMap parts) (hab : Alike s t a b) {output : Text}
    (h : r.perform name a p = .error output) : r.perform name b q = .error output := by
  simp only [perform] at h ⊢
  rw [← hab.pieces_eq hparts]
  split at h
  next => split at h <;> cases h
  next =>
    split at h
    next =>
      split at h
      next => cases h
      next =>
        cases h
        rfl
    next => cases h

theorem round_alike (hparts : s.flatMap parts = t.flatMap parts) (hst : s = [] → t = []) (hab : Alike s t a b)
    (hpq : p.said = q.said) (h : r.Round a p a' p') (hlength : s.length ≤ a'.rest.length) :
    ∃ b' q', r.Round b q b' q' ∧ Alike s t a' b' ∧ p'.said = q'.said := by
  cases h with
  | positional h =>
    obtain ⟨b', hb, hrest⟩ := hab.positional? h hlength
    exact ⟨b', _, .positional hb, hrest, Parsed.said_addPositional hpq _⟩
  | named ha hname h =>
    have hlength' := Nat.le_trans hlength (length_rest_perform h)
    obtain ⟨c, hc, hac⟩ := hab.begin.next? hname hlength'
    obtain ⟨b', q', hb, hrest, hsaid⟩ := perform_alike hparts hst hac hpq h hlength
    exact ⟨b', q', .named (hab.positional?_eq_none ha hname hlength') hc hb, hrest, hsaid⟩

theorem arrives_alike (hparts : s.flatMap parts = t.flatMap parts) (hst : s = [] → t = []) (hab : Alike s t a b)
    (hpq : p.said = q.said) (h : r.Arrives a p a' p') (hlength : s.length ≤ a'.rest.length) :
    ∃ b' q', r.Arrives b q b' q' ∧ Alike s t a' b' ∧ p'.said = q'.said := by
  induction h generalizing b q with
  | here a p => exact ⟨b, q, .here b q, hab, hpq⟩
  | next h hrest ih =>
    obtain ⟨c, u, hround, hac, hpu⟩ := round_alike hparts hst hab hpq h
      (Nat.le_trans hlength (length_rest_arrives hrest))
    obtain ⟨b', q', harrives, hab', hsaid⟩ := ih hac hpu hlength
    exact ⟨b', q', .next hround harrives, hab', hsaid⟩

/-- Where a reading started only shows in what is said to be wrong. -/
theorem said_readAll (hab : Alike [] [] a b) (hpq : p.said = q.said) :
    (r.readAll a p).map Parsed.said = (r.readAll b q).map Parsed.said := by
  fun_induction readAll r a p generalizing b q with
  | case1 a p argument a' ha ih =>
    obtain ⟨b', hb, hrest⟩ := hab.positional? ha (Nat.zero_le _)
    rw [readAll_of_round (.positional hb), ih hrest (Parsed.said_addPositional hpq argument)]
  | case2 a p ha hnext =>
    have hb : b.positional? = none := by
      cases hab with
      | inline => rfl
      | whole =>
        rw [begin, Arguments.next?] at hnext
        split at hnext <;> cases hnext
      | reached => rfl
    rw [readAll_of_end hb (hab.begin.next?_eq_none id hnext), Except.map, Except.map, hpq]
  | case3 a p ha name a' hname output h =>
    obtain ⟨b', hb, hrest⟩ := hab.begin.next? hname (Nat.zero_le _)
    rw [readAll_of_error (hab.positional?_eq_none ha hname (Nat.zero_le _)) hb (perform_alike_error rfl hrest h)]
  | case4 a p ha name a' hname p' c h ih =>
    obtain ⟨b', q', hround, hrest, hsaid⟩ := round_alike rfl id hab hpq (.named ha hname h) (Nat.zero_le _)
    rw [readAll_of_round hround, ih hrest hsaid]

end Alike

end Registry

end CodeAtlas.CommandLine
