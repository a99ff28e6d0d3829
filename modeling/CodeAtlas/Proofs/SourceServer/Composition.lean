import CodeAtlas.Proofs.SourceServer.Directory
import CodeAtlas.Proofs.Text.Numeral
import CodeAtlas.Proofs.Text.Pieces
import Mathlib.Data.List.Basic
import Mathlib.Data.List.Forall2
import Mathlib.Data.List.TakeWhile

namespace CodeAtlas.SourceIndex

open Text

def Function.name : Function → Text
  | valueOf => "fnvar"
  | withBackslashes => "fnbksl"
  | fileName => "fnfile"

/-- A text without percent signs, or the name of no function between two of them. -/
inductive Plain
  | literal (text : Text) (noPercent : code '%' ∉ text)
  | reference (name : Text) (noPercent : code '%' ∉ name) (noFunction : ∀ f : Function, lower name ≠ f.name)

def Plain.print : Plain → Text
  | literal text _ => text
  | reference name _ _ => code '%' :: (name ++ [code '%'])

/-- A part of an expression. The name of a function is written in any case, and an argument ends where the first
parenthesis is closed. -/
inductive Part
  | plain (p : Plain)
  | call (f : Function) (written : Text) (argument : List Plain) (sameName : lower written = f.name)
      (noParenthesis : code ')' ∉ argument.flatMap Plain.print)

def Part.print : Part → Text
  | plain p => p.print
  | call _ written argument _ _ =>
    code '%' :: (written ++ code '%' :: code '(' :: (argument.flatMap Plain.print ++ [code ')']))

/-- The name of a field is `var`, in any case, and its number in decimal digits. -/
structure IsField (name : Text) (n : Nat) : Prop where
  pos : 1 ≤ n
  lt : n < 2 ^ 32
  digits : ∃ ds : List (Fin 10), ds ≠ [] ∧ lower name = "var" ++ ds.map (lowerDigit ·.val) ∧
    Nat.ofDigits 10 (ds.map Fin.val).reverse = n

/-- What stands behind the last separator of a path, or all of it where there is none. -/
def IsFileName (path file : Text) : Prop :=
  (∀ b ∈ file, b ≠ code '/' ∧ b ≠ code '\\') ∧
    (file = path ∨ ∃ front sep, (sep = code '/' ∨ sep = code '\\') ∧ path = front ++ sep :: file)

/-- The value of a name in a text that has so many levels below it: the directory, a field, which is empty past the last
one, or else the value one level down of the text of the variable with that name in any case. -/
inductive NameHas (index : SourceIndex) (c : Context) (levels : Nat) (name : Text) : Text → Prop
  | directory (h : lower name = "targ") : NameHas index c levels name c.base
  | field {n : Nat} (h : IsField name n) : NameHas index c levels name ((c.fields[n - 1]?).getD [])
  | variable {known text value : Text} (noDirectory : lower name ≠ "targ") (noField : ∀ n, ¬IsField name n)
      (sameName : lower known = lower name) (htext : index.textOf? known = some text)
      (hvalue : index.evaluate? c levels text = some value) : NameHas index c levels name value

def Concatenates {α : Type} (has : α → Text → Prop) (parts : List α) (value : Text) : Prop :=
  ∃ values, List.Forall₂ has parts values ∧ values.flatten = value

inductive Plain.Has (index : SourceIndex) (c : Context) (levels : Nat) : Plain → Text → Prop
  | literal {text : Text} {h} : Has index c levels (.literal text h) text
  | reference {name value : Text} {h hf} (hname : NameHas index c levels name value) :
      Has index c levels (.reference name h hf) value

/-- The value of a part. An argument has its value one level down, and so has the name that it may give. -/
inductive Part.Has (index : SourceIndex) (c : Context) : Nat → Part → Text → Prop
  | plain {levels : Nat} {p : Plain} {value : Text} (h : p.Has index c levels value) :
      Has index c levels (.plain p) value
  | valueOf {levels : Nat} {written name value : Text} {argument : List Plain} {hw hp}
      (hargument : Concatenates (Plain.Has index c levels) argument name)
      (hname : NameHas index c levels name value) :
      Has index c (levels + 1) (.call .valueOf written argument hw hp) value
  | withBackslashes {levels : Nat} {written path : Text} {argument : List Plain} {hw hp}
      (hargument : Concatenates (Plain.Has index c levels) argument path) :
      Has index c (levels + 1) (.call .withBackslashes written argument hw hp)
        (path.map fun b => if b = code '/' then code '\\' else b)
  | fileName {levels : Nat} {written path file : Text} {argument : List Plain} {hw hp}
      (hargument : Concatenates (Plain.Has index c levels) argument path) (hfile : IsFileName path file) :
      Has index c (levels + 1) (.call .fileName written argument hw hp) file

/-- At every depth the value of an expression is made of the values of its parts, and there is none exactly if a part
has none. -/
structure Composes (index : SourceIndex) (c : Context) : Prop where
  value_iff : ∀ levels (parts : List Part) value,
    index.evaluate? c (levels + 1) (parts.flatMap Part.print) = some value ↔
      Concatenates (Part.Has index c levels) parts value
  none_iff : ∀ levels (parts : List Part), index.evaluate? c (levels + 1) (parts.flatMap Part.print) = none ↔
    ∃ p ∈ parts, ∀ value, ¬Part.Has index c levels p value

variable {index : SourceIndex} {c : Context} {levels n : Nat} {text name written argument rest value path file : Text}
  {f : Function} {value? deeper? : Text → Option Text}

theorem ofName?_eq_some_iff_name : Function.ofName? name = some f ↔ lower name = f.name := by
  unfold Function.ofName?
  dsimp only
  generalize lower name = name
  split_ifs with hvalue hbackslashes hfile
  · rw [hvalue]
    cases f <;> decide
  · rw [hbackslashes]
    cases f <;> decide
  · rw [hfile]
    cases f <;> decide
  · cases f <;> simp [Function.name, *]

theorem list_of_notMem (h : code '%' ∉ text) : Item.list text = [.literal text] := by
  have hnone : cut? "%" text = none := cut?_singleton_eq_none h
  rw [Item.list]
  split
  next => rfl
  next heq => cases hnone.symm.trans heq

/-- What follows a text and a name between percent signs decides whether a function is called. -/
theorem list_name (htext : code '%' ∉ text) (hname : code '%' ∉ name) :
    Item.list (text ++ code '%' :: (name ++ code '%' :: rest)) =
      match Function.ofName? name, prefixed? "(" rest with
      | some f, some arguments =>
        match cut? ")" arguments with
        | some (argument, rest) => .literal text :: .call f argument :: Item.list rest
        | none => [.openCall]
      | _, _ => .literal text :: .reference name :: Item.list rest := by
  have hopen : cut? "%" (text ++ code '%' :: (name ++ code '%' :: rest)) = some (text, name ++ code '%' :: rest) :=
    cut?_singleton_eq_some_iff.mpr ⟨rfl, htext⟩
  have hclose : cut? "%" (name ++ code '%' :: rest) = some (name, rest) :=
    cut?_singleton_eq_some_iff.mpr ⟨rfl, hname⟩
  rw [Item.list]
  split
  next heq => cases hopen.symm.trans heq
  next heq =>
    cases hopen.symm.trans heq
    split
    next heq => cases hclose.symm.trans heq
    next heq =>
      cases hclose.symm.trans heq
      split
      next hf hstart =>
        rw [hf, hstart]
        dsimp only
        split
        next hend => rw [hend]
        next hend => rw [hend]
      next hnot =>
        split
        next hf hstart => exact (hnot _ _ hf hstart).elim
        next => rfl

theorem list_reference (htext : code '%' ∉ text) (hname : code '%' ∉ name) (hf : Function.ofName? name = none) :
    Item.list (text ++ code '%' :: (name ++ code '%' :: rest)) =
      .literal text :: .reference name :: Item.list rest := by
  rw [list_name htext hname, hf]

theorem list_call (htext : code '%' ∉ text) (hname : code '%' ∉ written) (hf : Function.ofName? written = some f)
    (hargument : code ')' ∉ argument) :
    Item.list (text ++ code '%' :: (written ++ code '%' :: code '(' :: (argument ++ code ')' :: rest))) =
      .literal text :: .call f argument :: Item.list rest := by
  have hstart : prefixed? "(" (code '(' :: (argument ++ code ')' :: rest)) = some (argument ++ code ')' :: rest) :=
    prefixed?_eq_some_iff.mpr rfl
  have hend : cut? ")" (argument ++ code ')' :: rest) = some (argument, rest) :=
    cut?_singleton_eq_some_iff.mpr ⟨rfl, hargument⟩
  rw [list_name htext hname, hf, hstart]
  dsimp only
  rw [hend]

theorem percent_notMem_written (h : lower written = f.name) : code '%' ∉ written := by
  intro hmem
  have hlower : lowerByte (code '%') ∈ lower written := List.mem_map_of_mem hmem
  rw [h] at hlower
  revert hlower
  cases f <;> decide

def Plain.item : Plain → Item
  | literal text _ => .literal text
  | reference name _ _ => .reference name

def Part.item : Part → Item
  | plain p => p.item
  | call f _ argument _ _ => .call f (argument.flatMap Plain.print)

/-- A part that is no literal is read back as it was written, behind the text in front of it. -/
theorem list_append_print (p : Part) (h : code '%' ∉ text) : (∃ t ht, p = .plain (.literal t ht)) ∨
    Item.list (text ++ (p.print ++ rest)) = .literal text :: p.item :: Item.list rest := by
  match p with
  | .plain (.literal t ht) => exact .inl ⟨t, ht, rfl⟩
  | .plain (.reference name hname hf) =>
    have hnone : Function.ofName? name = none :=
      Option.eq_none_iff_forall_ne_some.mpr fun f heq => hf f (ofName?_eq_some_iff_name.mp heq)
    refine .inr ?_
    rw [Part.print, Plain.print, List.cons_append, List.append_assoc, List.singleton_append]
    exact list_reference h hname hnone
  | .call f written argument hw hp =>
    refine .inr ?_
    simp only [Part.print, Part.item, List.cons_append, List.append_assoc, List.nil_append]
    exact list_call h (percent_notMem_written hw) (ofName?_eq_some_iff_name.mpr hw) hp

/-- The values of several parts one after the other, if all of them have one. -/
def concat? {α : Type} (value? : α → Option Text) (xs : List α) : Option Text := (xs.mapM value?).map List.flatten

section Concat

variable {α : Type} {valueOf? : α → Option Text} {xs : List α}

theorem concat?_nil : concat? valueOf? [] = some [] := rfl

theorem concat?_cons (x : α) (xs : List α) :
    concat? valueOf? (x :: xs) = (valueOf? x).bind fun v => (concat? valueOf? xs).map (v ++ ·) := by
  rw [concat?, List.mapM_cons]
  cases valueOf? x with
  | none => rfl
  | some v =>
    rw [concat?]
    cases xs.mapM valueOf? with
    | none => rfl
    | some vs => rfl

theorem concat?_eq_some_iff :
    concat? valueOf? xs = some value ↔ Concatenates (fun x v => valueOf? x = some v) xs value := by
  induction xs generalizing value with
  | nil =>
    constructor
    · rintro ⟨⟩
      exact ⟨[], .nil, rfl⟩
    · rintro ⟨values, hvalues, rfl⟩
      cases hvalues
      rfl
  | cons x xs ih =>
    simp only [concat?_cons, Option.bind_eq_some_iff, Option.map_eq_some_iff, ih]
    constructor
    · rintro ⟨v, hv, rest, ⟨values, hvalues, rfl⟩, rfl⟩
      exact ⟨v :: values, .cons hv hvalues, rfl⟩
    · rintro ⟨values, hvalues, rfl⟩
      cases hvalues with
      | cons hv hrest => exact ⟨_, hv, _, ⟨_, hrest, rfl⟩, rfl⟩

theorem concat?_eq_none_iff : concat? valueOf? xs = none ↔ ∃ x ∈ xs, valueOf? x = none := by
  induction xs with
  | nil => simp [concat?_nil]
  | cons x xs ih =>
    rw [concat?_cons, List.exists_mem_cons_iff, ← ih]
    cases valueOf? x with
    | none => simp
    | some v => simp

end Concat

/-- What is read back of printed parts has their values. -/
theorem concat?_list (parts : List Part) (h : code '%' ∉ text) :
    concat? (index.itemValue? c value? deeper?) (Item.list (text ++ parts.flatMap Part.print)) =
      (concat? (fun p : Part => index.itemValue? c value? deeper? p.item) parts).map (text ++ ·) := by
  induction parts generalizing text with
  | nil =>
    rw [List.flatMap_nil, List.append_nil, list_of_notMem h, concat?_cons, concat?_nil, concat?_nil]
    rfl
  | cons p parts ih =>
    rw [List.flatMap_cons, concat?_cons]
    -- Texts that follow each other are read as one item, so a literal goes to the text in front of the other parts.
    rcases list_append_print p h with ⟨t, ht, rfl⟩ | hlist
    · have hboth : code '%' ∉ text ++ t := by
        rw [List.mem_append]
        exact fun hmem => hmem.elim h ht
      have hjoined := ih hboth
      rw [List.append_assoc] at hjoined
      rw [Part.print, Plain.print, hjoined]
      simp [Part.item, Plain.item, itemValue?, Function.comp_def]
    · have hrest := ih (List.not_mem_nil (a := code '%'))
      rw [List.nil_append] at hrest
      rw [hlist, concat?_cons, concat?_cons, hrest]
      simp [itemValue?, Function.comp_def, Option.map_bind]

theorem evaluate?_print (parts : List Part) : index.evaluate? c (levels + 1) (parts.flatMap Part.print) =
    concat? (fun p : Part => index.itemValue? c (index.evaluate? c levels) (index.evaluate? c (levels - 1)) p.item)
      parts := by
  have hempty : code '%' ∉ ([] : Text) := List.not_mem_nil
  rw [evaluate?_succ]
  refine (concat?_list parts hempty).trans ?_
  simp only [List.nil_append, Option.map_id']

theorem fieldNumber?_eq_some_iff : fieldNumber? name = some n ↔ IsField name n := by
  simp only [fieldNumber?, toNatBelow?, Option.filter_eq_some_iff, Option.bind_eq_some_iff, prefixed?_eq_some_iff,
    areDigits_decimal.toNat?_eq_some_iff, decide_eq_true_eq]
  constructor
  · rintro ⟨⟨digits, hname, ⟨ds, hne, rfl, hvalue⟩, hlt⟩, hpos⟩
    exact ⟨hpos, hlt, ds, hne, hname, hvalue⟩
  · rintro ⟨hpos, hlt, ds, hne, hname, hvalue⟩
    exact ⟨⟨_, hname, ⟨ds, hne, rfl, hvalue⟩, hlt⟩, hpos⟩

theorem IsField.ne_directory (h : IsField name n) : lower name ≠ ofString "targ" := by
  obtain ⟨ds, -, hname, -⟩ := h.digits
  intro heq
  have hfirst : some (code 'v') = some (code 't') := congrArg List.head? (hname.symm.trans heq)
  exact absurd hfirst (by decide)

theorem resolve?_eq_some_iff :
    index.resolve? c (index.evaluate? c levels) name = some value ↔ NameHas index c levels name value := by
  rw [resolve?]
  constructor
  · intro h
    split_ifs at h with hd
    · cases h
      exact .directory hd
    · cases hn : fieldNumber? name with
      | some n =>
        rw [hn] at h
        cases h
        exact .field (fieldNumber?_eq_some_iff.mp hn)
      | none =>
        rw [hn] at h
        obtain ⟨text, htext, hvalue⟩ := Option.bind_eq_some_iff.mp h
        refine .variable hd (fun n hfield => ?_) rfl htext hvalue
        rw [fieldNumber?_eq_some_iff.mpr hfield] at hn
        cases hn
  · rintro (hd | hfield | ⟨hd, hnone, hcase, htext, hvalue⟩)
    · rw [if_pos hd]
    · rw [if_neg hfield.ne_directory, fieldNumber?_eq_some_iff.mpr hfield]
    · have hnumber : fieldNumber? name = none :=
        Option.eq_none_iff_forall_ne_some.mpr fun n heq => hnone n (fieldNumber?_eq_some_iff.mp heq)
      rw [textOf?, upper_eq_upper_iff.mpr hcase, ← textOf?] at htext
      rw [if_neg hd, hnumber]
      exact Option.bind_eq_some_iff.mpr ⟨_, htext, hvalue⟩

theorem Plain.itemValue?_eq_some_iff {p : Plain} :
    index.itemValue? c (index.evaluate? c levels) deeper? p.item = some value ↔ p.Has index c levels value := by
  cases p with
  | literal text h =>
    constructor
    · rintro ⟨⟩
      exact .literal
    · rintro ⟨⟩
      rfl
  | reference name h hf =>
    refine resolve?_eq_some_iff.trans ⟨.reference, fun hp => ?_⟩
    cases hp with
    | reference hname => exact hname

theorem evaluate?_argument_eq_some_iff {argument : List Plain} :
    index.evaluate? c (levels + 1) (argument.flatMap Plain.print) = some value ↔
      Concatenates (Plain.Has index c levels) argument value := by
  have hprint : argument.flatMap Plain.print = (argument.map Part.plain).flatMap Part.print :=
    (List.flatMap_map Part.plain Part.print argument).symm
  rw [hprint, evaluate?_print, concat?_eq_some_iff]
  simp only [Concatenates, List.forall₂_map_left_iff, Part.item, Plain.itemValue?_eq_some_iff]

theorem reverse_takeWhile_reverse_eq_iff {p : UInt8 → Bool} : (path.reverse.takeWhile p).reverse = file ↔
    (∀ b ∈ file, p b = true) ∧ (file = path ∨ ∃ front sep, p sep = false ∧ path = front ++ sep :: file) := by
  constructor
  · rintro rfl
    refine ⟨fun b hb => List.mem_takeWhile_imp (List.mem_reverse.mp hb), ?_⟩
    have hsplit := List.takeWhile_append_dropWhile (p := p) (l := path.reverse)
    have hnot := List.head?_dropWhile_not p path.reverse
    cases hdrop : path.reverse.dropWhile p with
    | nil =>
      rw [hdrop, List.append_nil] at hsplit
      exact .inl (by rw [hsplit, List.reverse_reverse])
    | cons sep front =>
      rw [hdrop] at hsplit hnot
      refine .inr ⟨front.reverse, sep, hnot, List.reverse_injective ?_⟩
      rw [List.reverse_append, List.reverse_cons, List.reverse_reverse, List.reverse_reverse, List.append_assoc,
        List.singleton_append, hsplit]
  · rintro ⟨hfile, rfl | ⟨front, sep, hsep, rfl⟩⟩
    · rw [List.takeWhile_eq_self_iff.mpr fun b hb => hfile b (List.mem_reverse.mp hb), List.reverse_reverse]
    · rw [List.reverse_append, List.reverse_cons, List.append_assoc, List.singleton_append,
        List.takeWhile_append_of_pos fun b hb => hfile b (List.mem_reverse.mp hb),
        List.takeWhile_cons_of_neg (by rw [hsep]; exact Bool.false_ne_true), List.append_nil, List.reverse_reverse]

theorem fileName_eq_iff : (path.reverse.takeWhile fun b => b ≠ code '/' ∧ b ≠ code '\\').reverse = file ↔
    IsFileName path file := by
  rw [reverse_takeWhile_reverse_eq_iff, IsFileName]
  simp only [decide_eq_true_eq, decide_eq_false_iff_not, not_and_or, not_not]

theorem call?_eq_some_iff : call? (index.resolve? c (index.evaluate? c levels)) f path = some value ↔
    match f with
    | .valueOf => NameHas index c levels path value
    | .withBackslashes => (path.map fun b => if b = code '/' then code '\\' else b) = value
    | .fileName => IsFileName path value := by
  cases f with
  | valueOf => exact resolve?_eq_some_iff
  | withBackslashes => exact Option.some_inj
  | fileName => exact Option.some_inj.trans fileName_eq_iff

theorem Part.itemValue?_eq_some_iff {p : Part} :
    index.itemValue? c (index.evaluate? c levels) (index.evaluate? c (levels - 1)) p.item = some value ↔
      p.Has index c levels value := by
  cases p with
  | plain p =>
    refine Plain.itemValue?_eq_some_iff.trans ⟨.plain, ?_⟩
    rintro ⟨hp⟩
    exact hp
  | call f written argument hw hp =>
    cases levels with
    -- On the last level there is none below for the argument.
    | zero =>
      constructor
      · rintro ⟨⟩
      · rintro ⟨⟩
    | succ levels =>
      rw [Part.item, itemValue?, Nat.add_sub_cancel]
      simp only [Option.bind_eq_some_iff, evaluate?_argument_eq_some_iff, call?_eq_some_iff]
      constructor
      · rintro ⟨argued, hargument, hcall⟩
        cases f with
        | valueOf => exact .valueOf hargument hcall
        | withBackslashes =>
          cases hcall
          exact .withBackslashes hargument
        | fileName => exact .fileName hargument hcall
      · intro h
        cases h with
        | valueOf hargument hname => exact ⟨_, hargument, hname⟩
        | withBackslashes hargument => exact ⟨_, hargument, rfl⟩
        | fileName hargument hfile => exact ⟨_, hargument, hfile⟩

theorem composes (index : SourceIndex) (c : Context) : Composes index c where
  value_iff levels parts value := by
    rw [evaluate?_print, concat?_eq_some_iff]
    simp only [Part.itemValue?_eq_some_iff]
  none_iff levels parts := by
    rw [evaluate?_print, concat?_eq_none_iff]
    simp only [Option.eq_none_iff_forall_ne_some, ne_eq, Part.itemValue?_eq_some_iff]

example : (SourceIndex.mk [] [("TREE", "%targ%/%var2%")] []).evaluate? ⟨["a/b.c", "e"], "d"⟩ maxLevels
    "%FnFile%(%var1%) in %fnvar%(tree)" = some "b.c in d/e" := by decide +kernel

end CodeAtlas.SourceIndex
