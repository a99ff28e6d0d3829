import CodeAtlas.Proofs.Text.Pieces
import CodeAtlas.SourceServer.Index
import Mathlib.Logic.Basic
import Mathlib.Tactic.SplitIfs

namespace CodeAtlas.SourceIndex

open Text

/-- The name of a section as a heading gives it. -/
def Heading.name : Heading → Text
  | ini => "ini"
  | definitions => "variables"
  | files => "source files"
  | close => "end"

/-- The line starts as headings do. -/
def Marked (line : Text) : Prop := ofString "SRCSRV:" <+: line

/-- A heading is the mark and the name of a section, in any case and between blanks, which a dash may end. -/
def Heads (line : Text) (h : Heading) : Prop :=
  ∃ title, line = "SRCSRV:" ++ title ∧ lower (trim (before (code '-') title)) = h.name

/-- The lines of a text before its first NUL, each without one return at its end, and none of them empty. -/
def textLines (data : Text) : List Text :=
  (((before 0 data).splitOn (code '\n')).map fun line =>
    if line.getLast? = some (code '\r') then line.dropLast else line).filter (· ≠ [])

theorem lines_eq_textLines (data : Text) : lines data = textLines data := by
  rw [lines, textLines, words, fields_eq_splitOn, List.filter_map, List.filter_map, List.filter_filter]
  refine congrArg _ (List.filter_congr fun line _ => ?_)
  cases line with
  | nil => rfl
  | cons b line => exact Bool.and_true _

variable {line title : Text} {h : Heading}

theorem ofName?_eq_some_iff :
    Heading.ofName? title = some h ↔ lower (trim (before (code '-') title)) = h.name := by
  unfold Heading.ofName?
  dsimp only
  generalize lower (trim (before (code '-') title)) = name
  split_ifs with hini hvariables hfiles hend
  · rw [hini]
    cases h <;> decide
  · rw [hvariables]
    cases h <;> decide
  · rw [hfiles]
    cases h <;> decide
  · rw [hend]
    cases h <;> decide
  · cases h <;> simp [Heading.name, *]

theorem ofText_eq_content_iff : Line.ofText line = .content ↔ ¬ Marked line := by
  unfold Line.ofText Marked
  cases hmark : prefixed? "SRCSRV:" line with
  | none =>
    refine iff_of_true rfl fun ⟨title, heq⟩ => ?_
    rw [prefixed?_eq_some_iff.mpr heq.symm] at hmark
    cases hmark
  | some title =>
    exact iff_of_false nofun (not_not_intro ⟨title, (prefixed?_eq_some_iff.mp hmark).symm⟩)

theorem ofText_eq_heading_iff : Line.ofText line = .heading (some h) ↔ Heads line h := by
  unfold Line.ofText Heads
  constructor
  · intro heq
    split at heq
    next title hmark =>
      exact ⟨title, prefixed?_eq_some_iff.mp hmark, ofName?_eq_some_iff.mp (Line.heading.inj heq)⟩
    next => cases heq
  · rintro ⟨title, heq, hname⟩
    rw [prefixed?_eq_some_iff.mpr heq]
    dsimp only
    rw [ofName?_eq_some_iff.mpr hname]

theorem Heads.marked (hline : Heads line h) : Marked line := by
  obtain ⟨title, rfl, -⟩ := hline
  exact List.prefix_append _ title

theorem Heading.name_inj {h h' : Heading} : h.name = h'.name ↔ h = h' := by
  cases h <;> cases h' <;> decide

theorem heads_iff : Heads line h ↔ Marked line ∧
    lower (trim (before (code '-') (line.drop (ofString "SRCSRV:").length))) = h.name := by
  constructor
  · rintro ⟨title, rfl, hname⟩
    exact ⟨List.prefix_append _ _, by rwa [List.drop_left]⟩
  · rintro ⟨⟨title, rfl⟩, hname⟩
    exact ⟨title, rfl, by rwa [List.drop_left] at hname⟩

instance : DecidablePred Marked := fun line => inferInstanceAs (Decidable (ofString "SRCSRV:" <+: line))

instance : Decidable (Heads line h) := decidable_of_iff _ heads_iff.symm

/-- A line heads one section at most. -/
theorem Heads.unique {h' : Heading} (hline : Heads line h) (hline' : Heads line h') : h = h' :=
  Heading.name_inj.mp ((heads_iff.mp hline).2.symm.trans (heads_iff.mp hline').2)

/-- The lines before the first closing heading that follows an ini heading. -/
def untilClosed (opened : Bool) : List Text → List Text
  | [] => []
  | line :: rest =>
    if opened ∧ Heads line .close then [] else line :: untilClosed (opened || Heads line .ini) rest

/-- The lines that are read. -/
def body (data : Text) : List Text := untilClosed false (textLines data)

/-- The section that a line heads. -/
def headed? (line : Text) : Option Heading := [.ini, .definitions, .files, .close].find? (Heads line ·)

/-- The heading that the lines after these stand below. -/
def heading? (lines : List Text) : Option Heading := (lines.filterMap headed?).getLast?

/-- The lines of the sections with one heading, in the order in which they stand. -/
def below (h : Heading) (lines : List Text) : List Text :=
  (lines.zipIdx.filter fun p => ¬ Marked p.1 ∧ heading? (lines.take p.2) = some h).map Prod.fst

variable {ls rest : List Text}

theorem heads_of_headed? (hfound : headed? line = some h) : Heads line h := by
  have hheads := List.find?_some hfound
  exact of_decide_eq_true hheads

theorem headed?_eq_some_iff : headed? line = some h ↔ Heads line h := by
  refine ⟨heads_of_headed?, fun hline => ?_⟩
  cases hfound : headed? line with
  | none =>
    have hmem : h ∈ [Heading.ini, .definitions, .files, .close] := by cases h <;> decide
    exact absurd (decide_eq_true hline) (List.find?_eq_none.mp hfound h hmem)
  | some h' => exact congrArg some ((heads_of_headed? hfound).unique hline)

theorem headed?_eq_none_of_not_marked (hline : ¬ Marked line) : headed? line = none :=
  List.find?_eq_none.mpr fun _ _ hheads => hline (of_decide_eq_true hheads).marked

theorem heading?_concat_of_heads (hline : Heads line h) : heading? (ls ++ [line]) = some h := by
  rw [heading?, List.filterMap_append, List.filterMap_cons_some (headed?_eq_some_iff.mpr hline), List.filterMap_nil,
    List.getLast?_concat]

theorem heading?_concat_of_not_marked (hline : ¬ Marked line) : heading? (ls ++ [line]) = heading? ls := by
  rw [heading?, List.filterMap_append, List.filterMap_cons_none (headed?_eq_none_of_not_marked hline),
    List.filterMap_nil, List.append_nil, heading?]

theorem below_concat (h : Heading) (ls : List Text) (line : Text) :
    below h (ls ++ [line]) = below h ls ++ if ¬ Marked line ∧ heading? ls = some h then [line] else [] := by
  have hold : ls.zipIdx.filter (fun p => ¬ Marked p.1 ∧ heading? ((ls ++ [line]).take p.2) = some h) =
      ls.zipIdx.filter fun p => ¬ Marked p.1 ∧ heading? (ls.take p.2) = some h := by
    refine List.filter_congr fun p hp => ?_
    have hlt := List.snd_lt_add_of_mem_zipIdx hp
    rw [List.take_append_of_le_length (by omega)]
  rw [below, List.zipIdx_append, List.filter_append, List.map_append, hold, Nat.zero_add]
  change below h ls ++ _ = _
  refine congrArg _ ?_
  have htake : (ls ++ [line]).take ls.length = ls := List.take_left
  by_cases hnew : ¬ Marked line ∧ heading? ls = some h
  · rw [if_pos hnew, List.zipIdx_singleton, List.filter_cons_of_pos]
    · rfl
    · simpa [htake] using hnew
  · rw [if_neg hnew, List.zipIdx_singleton, List.filter_cons_of_neg]
    · rfl
    · simpa [htake] using hnew

end CodeAtlas.SourceIndex
