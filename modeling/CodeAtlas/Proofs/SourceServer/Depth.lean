import CodeAtlas.Proofs.SourceServer.Composition

namespace CodeAtlas.SourceIndex

open Text

/-- The value of an expression so many texts down in others. -/
def valueAt? (index : SourceIndex) (c : Context) (depth : Nat) (t : Text) : Option Text :=
  index.evaluate? c (maxLevels - depth) t

/-- Neither the directory nor a field has this name. -/
structure IsVariable (name : Text) : Prop where
  noDirectory : lower name ≠ "targ"
  noField : ∀ n, ¬IsField name n

/-- To have a value an expression needs that of a variable: it names it, or an argument in it does so or needs it, or
the value of an argument is its name, or the text of another variable that it needs does. -/
inductive Needs (index : SourceIndex) (c : Context) : Text → Text → Prop
  | reference {t name : Text} (hitem : .reference name ∈ Item.list t) (hname : IsVariable name) : Needs index c t name
  | argument {t argument name : Text} {f : Function} (hitem : .call f argument ∈ Item.list t)
      (hargument : Needs index c argument name) : Needs index c t name
  | valueOf {t argument name : Text} {depth : Nat} (hitem : .call .valueOf argument ∈ Item.list t)
      (hvalue : index.valueAt? c depth argument = some name) (hname : IsVariable name) : Needs index c t name
  | definition {t name text inner : Text} (hneeds : Needs index c t name) (htext : index.textOf? name = some text)
      (hinner : Needs index c text inner) : Needs index c t inner

/-- An expression needs a variable whose text needs the variable itself, in whatever case. -/
def Cyclic (index : SourceIndex) (c : Context) (t : Text) : Prop :=
  ∃ name text again, Needs index c t name ∧ index.textOf? name = some text ∧ Needs index c text again ∧
    lower again = lower name

/-- One evaluation begins another, deeper down: of the text of a variable, of an argument, or of the text of the
variable that an argument gives the name of. -/
inductive Begins (index : SourceIndex) (c : Context) : Nat × Text → Nat × Text → Prop
  | reference {depth : Nat} {t name text : Text} (hdepth : depth < maxLevels)
      (hitem : .reference name ∈ Item.list t) (htext : index.textOf? name = some text) :
      Begins index c (depth + 1, text) (depth, t)
  | argument {depth : Nat} {t argument : Text} {f : Function} (hdepth : depth < maxLevels)
      (hitem : .call f argument ∈ Item.list t) : Begins index c (depth + 1, argument) (depth, t)
  | valueOf {depth : Nat} {t argument name text : Text} (hdepth : depth < maxLevels)
      (hitem : .call .valueOf argument ∈ Item.list t) (hvalue : index.valueAt? c (depth + 1) argument = some name)
      (htext : index.textOf? name = some text) : Begins index c (depth + 2, text) (depth, t)

/-- Evaluation ends, and its limit takes values away but changes none. What depends on itself has no value anyway, so
that a file whose target or command does so is not there. -/
structure OnlyLimits (index : SourceIndex) : Prop where
  ends : ∀ c, WellFounded (Begins index c)
  /-- A value is made of nothing but the values that the evaluations it begins have. -/
  covers : ∀ c {depth t} {other : Nat → Text → Option Text}, depth < maxLevels →
    (∀ p, Begins index c p (depth, t) → other p.1 p.2 = index.valueAt? c p.1 p.2) →
    concat? (index.itemValue? c (other (depth + 1)) (other (depth + 2))) (Item.list t) = index.valueAt? c depth t
  kept : ∀ c {depth depth' t value}, depth' ≤ depth → index.valueAt? c depth t = some value →
    index.valueAt? c depth' t = some value
  cyclic : ∀ c {t}, Cyclic index c t → ∀ depth, index.valueAt? c depth t = none
  absent : ∀ {path base fields t}, index.file? path = some fields → Cyclic index ⟨fields, base⟩ t →
    index.textOf? "SRCSRVTRG" = some t ∨ index.textOf? "SRCSRVCMD" = some t ∧ trim t ≠ [] →
    index.source? path base = none

variable {index : SourceIndex} {c : Context} {depth levels levels' : Nat} {t name again text value path base : Text}
  {fields : List Text} {item : Item} {value? value?' deeper? deeper?' : Text → Option Text}

theorem resolve?_of_isVariable (h : IsVariable name) :
    index.resolve? c value? name = (index.textOf? name).bind value? := by
  have hnumber : fieldNumber? name = none :=
    Option.eq_none_iff_forall_ne_some.mpr fun n heq => h.noField n (fieldNumber?_eq_some_iff.mp heq)
  rw [resolve?, if_neg h.noDirectory, hnumber]

theorem resolve?_mono (hvalue : ∀ t v, value? t = some v → value?' t = some v)
    (h : index.resolve? c value? name = some value) : index.resolve? c value?' name = some value := by
  rw [resolve?] at h ⊢
  split_ifs at h ⊢ with hd
  · exact h
  · cases hn : fieldNumber? name with
    | some n =>
      rw [hn] at h
      exact h
    | none =>
      rw [hn] at h
      obtain ⟨text, htext, hv⟩ := Option.bind_eq_some_iff.mp h
      exact Option.bind_eq_some_iff.mpr ⟨text, htext, hvalue text value hv⟩

theorem itemValue?_mono (hvalue : ∀ t v, value? t = some v → value?' t = some v)
    (hdeeper : ∀ t v, deeper? t = some v → deeper?' t = some v)
    (h : index.itemValue? c value? deeper? item = some value) :
    index.itemValue? c value?' deeper?' item = some value := by
  cases item with
  | literal text => exact h
  | openCall => exact h
  | reference name => exact resolve?_mono hvalue h
  | call f argument =>
    obtain ⟨v, hv, hcall⟩ := Option.bind_eq_some_iff.mp h
    refine Option.bind_eq_some_iff.mpr ⟨v, hvalue argument v hv, ?_⟩
    cases f with
    | valueOf => exact resolve?_mono hdeeper hcall
    | withBackslashes => exact hcall
    | fileName => exact hcall

theorem concat?_mono {α : Type} {f g : α → Option Text} {xs : List α} (hfg : ∀ x v, f x = some v → g x = some v)
    (h : concat? f xs = some value) : concat? g xs = some value := by
  obtain ⟨values, hvalues, hflatten⟩ := concat?_eq_some_iff.mp h
  exact concat?_eq_some_iff.mpr ⟨values, hvalues.imp hfg, hflatten⟩

/-- More levels keep every value. -/
theorem evaluate?_mono (hle : levels ≤ levels') (h : index.evaluate? c levels t = some value) :
    index.evaluate? c levels' t = some value := by
  induction levels using Nat.strongRecOn generalizing levels' t value with
  | _ levels ih =>
    cases levels with
    | zero => cases h
    | succ levels =>
      obtain ⟨levels', rfl⟩ : ∃ n, levels' = n + 1 := ⟨levels' - 1, by omega⟩
      rw [evaluate?_succ] at h ⊢
      refine concat?_mono (fun item v => itemValue?_mono ?_ ?_) h
      · exact fun t v hv => ih levels (by omega) (by omega) hv
      · exact fun t v hv => ih (levels - 1) (by omega) (by omega) hv

/-- An expression with a value gives one to the text of each variable that it needs, with fewer levels. -/
theorem exists_value_of_needs (hneeds : Needs index c t name) (h : index.evaluate? c levels t = some value) :
    ∃ levels' < levels, ∃ text v, index.textOf? name = some text ∧ index.evaluate? c levels' text = some v := by
  induction hneeds generalizing levels value with
  | reference hitem hname =>
    cases levels with
    | zero => cases h
    | succ levels =>
      obtain ⟨v, hv, -⟩ := infix_of_evaluate? hitem h
      rw [itemValue?, resolve?_of_isVariable hname] at hv
      obtain ⟨text, htext, hv⟩ := Option.bind_eq_some_iff.mp hv
      exact ⟨levels, by omega, text, v, htext, hv⟩
  | argument hitem hargument ih =>
    cases levels with
    | zero => cases h
    | succ levels =>
      obtain ⟨v, hv, -⟩ := infix_of_evaluate? hitem h
      obtain ⟨w, hw, -⟩ := Option.bind_eq_some_iff.mp hv
      obtain ⟨levels', hlt, hvalue⟩ := ih hw
      exact ⟨levels', by omega, hvalue⟩
  | @valueOf t argument name depth hitem hvalue hname =>
    cases levels with
    | zero => cases h
    | succ levels =>
      obtain ⟨v, hv, -⟩ := infix_of_evaluate? hitem h
      obtain ⟨w, hw, hcall⟩ := Option.bind_eq_some_iff.mp hv
      -- The argument has one value at most, at whatever depth.
      have hsame : w = name := by
        have hw' := evaluate?_mono (Nat.le_max_left levels (maxLevels - depth)) hw
        have hvalue' := evaluate?_mono (Nat.le_max_right levels (maxLevels - depth)) hvalue
        exact Option.some.inj (hw'.symm.trans hvalue')
      rw [call?, hsame, resolve?_of_isVariable hname] at hcall
      obtain ⟨text, htext, hv⟩ := Option.bind_eq_some_iff.mp hcall
      exact ⟨levels - 1, by omega, text, v, htext, hv⟩
  | definition hneeds htext hinner ih ihinner =>
    obtain ⟨levels', hlt, text, v, htext', hv⟩ := ih h
    cases htext.symm.trans htext'
    obtain ⟨levels'', hlt', hvalue⟩ := ihinner hv
    exact ⟨levels'', by omega, hvalue⟩

/-- The text of a variable that needs the variable has no value: it would take one with ever fewer levels. -/
theorem evaluate?_eq_none_of_needs_self (htext : index.textOf? name = some text) (hneeds : Needs index c text again)
    (hsame : lower again = lower name) : index.evaluate? c levels text = none := by
  have hagain : index.textOf? again = some text := by
    rw [textOf?, upper_eq_upper_iff.mpr hsame]
    exact htext
  induction levels using Nat.strongRecOn with
  | _ levels ih =>
    refine Option.eq_none_iff_forall_ne_some.mpr fun value h => ?_
    obtain ⟨levels', hlt, text', v, htext', hv⟩ := exists_value_of_needs hneeds h
    cases hagain.symm.trans htext'
    rw [ih levels' hlt] at hv
    cases hv

theorem evaluate?_eq_none_of_cyclic (h : Cyclic index c t) : index.evaluate? c levels t = none := by
  obtain ⟨name, text, again, hneeds, htext, hagain, hsame⟩ := h
  refine Option.eq_none_iff_forall_ne_some.mpr fun value hvalue => ?_
  obtain ⟨levels', -, text', v, htext', hv⟩ := exists_value_of_needs hneeds hvalue
  cases htext.symm.trans htext'
  rw [evaluate?_eq_none_of_needs_self htext hagain hsame] at hv
  cases hv

theorem valueAt?_eq (hdepth : depth < maxLevels) : index.valueAt? c depth t =
    concat? (index.itemValue? c (index.valueAt? c (depth + 1)) (index.valueAt? c (depth + 2))) (Item.list t) := by
  have hlevels : maxLevels - depth = maxLevels - (depth + 1) + 1 := by omega
  rw [valueAt?, hlevels, evaluate?_succ]
  rfl

theorem resolve?_congr (h : ∀ text, index.textOf? name = some text → value? text = value?' text) :
    index.resolve? c value? name = index.resolve? c value?' name := by
  rw [resolve?, resolve?, Option.bind_congr h]

theorem itemValue?_eq_of_begins {other : Nat → Text → Option Text} (hdepth : depth < maxLevels)
    (hitem : item ∈ Item.list t)
    (h : ∀ p, Begins index c p (depth, t) → other p.1 p.2 = index.valueAt? c p.1 p.2) :
    index.itemValue? c (other (depth + 1)) (other (depth + 2)) item =
      index.itemValue? c (index.valueAt? c (depth + 1)) (index.valueAt? c (depth + 2)) item := by
  cases item with
  | literal text => rfl
  | openCall => rfl
  | reference name => exact resolve?_congr fun text htext => h _ (.reference hdepth hitem htext)
  | call f argument =>
    have hargument : other (depth + 1) argument = index.valueAt? c (depth + 1) argument :=
      h _ (.argument hdepth hitem)
    rw [itemValue?, itemValue?, hargument]
    refine Option.bind_congr fun name hname => ?_
    cases f with
    | valueOf => exact resolve?_congr fun text htext => h _ (.valueOf hdepth hitem hname htext)
    | withBackslashes => rfl
    | fileName => rfl

theorem wellFounded_begins (index : SourceIndex) (c : Context) : WellFounded (Begins index c) := by
  refine Subrelation.wf (r := InvImage (· < ·) fun p : Nat × Text => maxLevels - p.1) ?_
    (InvImage.wf _ wellFounded_lt)
  intro p q h
  cases h with
  | reference hdepth => exact Nat.sub_lt_sub_left hdepth (by omega)
  | argument hdepth => exact Nat.sub_lt_sub_left hdepth (by omega)
  | valueOf hdepth => exact Nat.sub_lt_sub_left hdepth (by omega)

theorem source?_eq_none_of_cyclic (hfile : index.file? path = some fields) (hcyclic : Cyclic index ⟨fields, base⟩ t)
    (h : index.textOf? "SRCSRVTRG" = some t ∨ index.textOf? "SRCSRVCMD" = some t ∧ trim t ≠ []) :
    index.source? path base = none := by
  have hvalue : index.evaluate? ⟨fields, base⟩ maxLevels t = none := evaluate?_eq_none_of_cyclic hcyclic
  rw [source?_eq, hfile, Option.bind_some]
  rcases h with htarget | ⟨hcommand, hblank⟩
  · have hnone : index.target? base fields = none := by
      rw [target?, htarget]
      dsimp only
      rw [hvalue, Option.map_none]
    rw [hnone, Option.bind_none]
  · have hnone : index.command? base fields = none := by
      rw [command?, hcommand, Option.filter_some, if_pos (by simpa using hblank)]
      exact hvalue
    rw [hnone]
    cases index.target? base fields <;> rfl

theorem onlyLimits (index : SourceIndex) : OnlyLimits index where
  ends := wellFounded_begins index
  covers _ _ _ _ hdepth h := by
    rw [valueAt?_eq hdepth]
    exact congrArg _ (mapM_congr fun item hitem => itemValue?_eq_of_begins hdepth hitem h)
  kept _ _ _ _ _ hle h := evaluate?_mono (Nat.sub_le_sub_left hle maxLevels) h
  cyclic _ _ h _ := evaluate?_eq_none_of_cyclic h
  absent := source?_eq_none_of_cyclic

example : (SourceIndex.mk [] [("SRCSRVTRG", "http://h/%a%"), ("A", "%fnvar%(%b%)"), ("B", "a")] [["c.c"]]).source? "c.c" []
    = none := by decide +kernel

end CodeAtlas.SourceIndex
