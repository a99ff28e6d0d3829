import CodeAtlas.Proofs.SourceServer.Headings
import CodeAtlas.Proofs.SourceServer.Retrieval
import Mathlib.Data.List.Basic
import Mathlib.Data.List.Induction

namespace CodeAtlas.SourceIndex

open Text SourceServer

/-- What the variables of these lines are, the latest first. -/
def variableTable (ls : List Text) : List (Text × Text) := ls.foldl (fun known line => addVariable line known) []

/-- The index holds what the lines of each section say. -/
structure Stores (ls : List Text) (index : SourceIndex) : Prop where
  ini_eq : index.ini = variableTable (below .ini ls)
  definitions_eq : index.definitions = variableTable (below .definitions ls)
  files_eq : index.files = (below .files ls).map (fields (code '*'))

theorem stores_empty : Stores [] empty := ⟨rfl, rfl, rfl⟩

variable {ls rest : List Text} {line : Text} {h : Heading} {index index' : SourceIndex}

theorem variableTable_concat (ls : List Text) (line : Text) :
    variableTable (ls ++ [line]) = addVariable line (variableTable ls) := by
  rw [variableTable, List.foldl_append]
  rfl

theorem Stores.heading (hstores : Stores ls index) (hline : Marked line) : Stores (ls ++ [line]) index := by
  have hsame : ∀ h, below h (ls ++ [line]) = below h ls := by
    intro h
    rw [below_concat, if_neg (fun hnew => hnew.1 hline), List.append_nil]
  constructor
  · rw [hsame]
    exact hstores.ini_eq
  · rw [hsame]
    exact hstores.definitions_eq
  · rw [hsame]
    exact hstores.files_eq

/-- A line is added to the section that it stands in, and to no other. -/
theorem Stores.content (hstores : Stores ls index) (hheading : heading? ls = some h) (hline : ¬ Marked line) :
    Stores (ls ++ [line]) (addLine h line index) := by
  have hin : below h (ls ++ [line]) = below h ls ++ [line] := by
    rw [below_concat, if_pos ⟨hline, hheading⟩]
  have hout : ∀ other, other ≠ h → below other (ls ++ [line]) = below other ls := by
    intro other hne
    rw [below_concat, if_neg, List.append_nil]
    rintro ⟨-, hother⟩
    exact hne (Option.some.inj (hother.symm.trans hheading))
  obtain ⟨hini, hdefinitions, hfiles⟩ := hstores
  cases h with
  | ini =>
    refine ⟨?_, ?_, ?_⟩
    · rw [hin, variableTable_concat, addLine, hini]
    · rw [hout _ (by decide), addLine, hdefinitions]
    · rw [hout _ (by decide), addLine, hfiles]
  | definitions =>
    refine ⟨?_, ?_, ?_⟩
    · rw [hout _ (by decide), addLine, hini]
    · rw [hin, variableTable_concat, addLine, hdefinitions]
    · rw [hout _ (by decide), addLine, hfiles]
  | files =>
    refine ⟨?_, ?_, ?_⟩
    · rw [hout _ (by decide), addLine, hini]
    · rw [hout _ (by decide), addLine, hdefinitions]
    · rw [hin, addLine, hfiles, List.map_append, List.map_singleton]
  | close =>
    refine ⟨?_, ?_, ?_⟩
    · rw [hout _ (by decide), addLine, hini]
    · rw [hout _ (by decide), addLine, hdefinitions]
    · rw [hout _ (by decide), addLine, hfiles]

/-- The run of the lines below a heading: it ends well if all headings are known, and then all is stored that was
read. -/
theorem stores_addLines (hstores : Stores ls index) (hheading : heading? ls = some h)
    (hrun : addLines h rest index = .ok index') : Stores (ls ++ untilClosed true rest) index' := by
  induction rest generalizing ls h index with
  | nil =>
    cases hrun
    rw [untilClosed, List.append_nil]
    exact hstores
  | cons line rest ih =>
    rw [addLines] at hrun
    cases hline : Line.ofText line with
    | content =>
      rw [hline] at hrun
      have hcontent : ¬ Marked line := ofText_eq_content_iff.mp hline
      have hopen : untilClosed true (line :: rest) = line :: untilClosed true rest := by
        rw [untilClosed, if_neg fun hclose => hcontent hclose.2.marked, Bool.true_or]
      rw [hopen, List.append_cons]
      exact ih (hstores.content hheading hcontent) ((heading?_concat_of_not_marked hcontent).trans hheading) hrun
    | heading next =>
      rw [hline] at hrun
      match next, hline with
      | none, hline => cases hrun
      | some next, hline =>
        have hheads : Heads line next := ofText_eq_heading_iff.mp hline
        cases next with
        | close =>
          cases hrun
          rw [untilClosed, if_pos ⟨rfl, hheads⟩, List.append_nil]
          exact hstores
        | _ =>
          have hopen : untilClosed true (line :: rest) = line :: untilClosed true rest := by
            rw [untilClosed, if_neg fun hclose => absurd (hheads.unique hclose.2) (by decide), Bool.true_or]
          rw [hopen, List.append_cons]
          exact ih (hstores.heading hheads.marked) (heading?_concat_of_heads hheads) hrun

/-- The lines below a heading are read if every heading among them is known. -/
theorem addLines_ok_iff : (∃ index', addLines h rest index = .ok index') ↔
    ∀ line ∈ untilClosed true rest, Marked line → ∃ h, Heads line h := by
  induction rest generalizing h index with
  | nil => exact iff_of_true ⟨index, rfl⟩ nofun
  | cons line rest ih =>
    rw [addLines]
    cases hline : Line.ofText line with
    | content =>
      have hcontent : ¬ Marked line := ofText_eq_content_iff.mp hline
      rw [untilClosed, if_neg fun hclose => hcontent hclose.2.marked, Bool.true_or, List.forall_mem_cons]
      dsimp only
      rw [ih]
      exact (and_iff_right fun hmarked => absurd hmarked hcontent).symm
    | heading next =>
      match next, hline with
      | none, hline =>
        have hunknown : ∀ h, ¬ Heads line h := fun h hheads => by
          have heq := hline.symm.trans (ofText_eq_heading_iff.mpr hheads)
          cases heq
        have hmarked : Marked line := by
          by_contra hcontent
          have heq := hline.symm.trans (ofText_eq_content_iff.mpr hcontent)
          cases heq
        rw [untilClosed, if_neg fun hclose => hunknown .close hclose.2]
        refine iff_of_false nofun fun hall => ?_
        obtain ⟨h, hheads⟩ := hall line List.mem_cons_self hmarked
        exact hunknown h hheads
      | some next, hline =>
        have hheads : Heads line next := ofText_eq_heading_iff.mp hline
        cases next with
        | close =>
          rw [untilClosed, if_pos ⟨rfl, hheads⟩]
          exact iff_of_true ⟨index, rfl⟩ nofun
        | _ =>
          rw [untilClosed, if_neg fun hclose => absurd (hheads.unique hclose.2) (by decide), Bool.true_or,
            List.forall_mem_cons]
          dsimp only
          rw [ih]
          exact (and_iff_right fun _ => ⟨_, hheads⟩).symm

/-- The line gives a value to a name: they stand before and after its first equals sign, the name in any case. -/
def Defines (line name value : Text) : Prop :=
  ∃ spelling, line = spelling ++ code '=' :: value ∧ code '=' ∉ spelling ∧ lower spelling = lower name

/-- The last of the lines that give a value to the name gives it this one. -/
def LastDefines (ls : List Text) (name value : Text) : Prop :=
  ∃ earlier line later, ls = earlier ++ line :: later ∧ Defines line name value ∧
    ∀ l ∈ later, ∀ other, ¬ Defines l name other

/-- The line is about the path: it stands before the first star, in any case. -/
def Names (line path : Text) : Prop := lower (before (code '*') line) = lower path

/-- The first of the lines about the path has these fields. -/
def FirstNames (ls : List Text) (path : Text) (fields : List Text) : Prop :=
  ∃ earlier line later, ls = earlier ++ line :: later ∧ Names line path ∧ (∀ l ∈ earlier, ¬ Names l path) ∧
    fields = line.splitOn (code '*')

variable {name value path : Text}

theorem Defines.unique {value' : Text} (hd : Defines line name value) (hd' : Defines line name value') :
    value = value' := by
  obtain ⟨x, hx, hxe, -⟩ := hd
  obtain ⟨y, hy, hye, -⟩ := hd'
  have heq := (cut?_singleton_eq_some_iff.mpr ⟨hx, hxe⟩).symm.trans (cut?_singleton_eq_some_iff.mpr ⟨hy, hye⟩)
  cases heq
  rfl

theorem lookup_addVariable_of_defines (hd : Defines line name value) (known : List (Text × Text)) :
    (addVariable line known).lookup (upper name) = some value := by
  obtain ⟨spelling, hline, hequals, hcase⟩ := hd
  have hcut : cut? "=" line = some (spelling, value) := cut?_singleton_eq_some_iff.mpr ⟨hline, hequals⟩
  rw [addVariable, hcut, List.lookup_cons, upper_eq_upper_iff.mpr hcase, beq_self_eq_true]

theorem lookup_addVariable_of_not_defines (hd : ∀ value, ¬ Defines line name value) (known : List (Text × Text)) :
    (addVariable line known).lookup (upper name) = known.lookup (upper name) := by
  rw [addVariable]
  cases hcut : cut? "=" line with
  | none => rfl
  | some p =>
    obtain ⟨hline, hequals⟩ := cut?_singleton_eq_some_iff.mp hcut
    have hne : upper name ≠ upper p.1 := fun heq => hd p.2 ⟨p.1, hline, hequals, upper_eq_upper_iff.mp heq.symm⟩
    rw [List.lookup_cons, beq_false_of_ne hne]

theorem lastDefines_concat : LastDefines (ls ++ [line]) name value ↔
    Defines line name value ∨ (∀ other, ¬ Defines line name other) ∧ LastDefines ls name value := by
  constructor
  · rintro ⟨earlier, line', later, heq, hd, hlater⟩
    rcases List.eq_nil_or_concat' later with rfl | ⟨later, last, rfl⟩
    · obtain ⟨-, hlast⟩ := List.append_inj' heq rfl
      cases hlast
      exact Or.inl hd
    · rw [← List.cons_append, ← List.append_assoc] at heq
      obtain ⟨hinit, hlast⟩ := List.append_inj' heq rfl
      cases hlast
      refine Or.inr ⟨hlater line (List.mem_append_right _ List.mem_cons_self), ?_⟩
      exact ⟨earlier, line', later, hinit, hd, fun l hl => hlater l (List.mem_append_left _ hl)⟩
  · rintro (hd | ⟨hnone, earlier, line', later, rfl, hd, hlater⟩)
    · exact ⟨ls, line, [], rfl, hd, nofun⟩
    · refine ⟨earlier, line', later ++ [line], by simp, hd, fun l hl => ?_⟩
      rcases List.mem_append.mp hl with hl | hl
      · exact hlater l hl
      · rw [List.mem_singleton.mp hl]
        exact hnone

theorem lookup_variableTable_eq_some_iff :
    (variableTable ls).lookup (upper name) = some value ↔ LastDefines ls name value := by
  induction ls using List.reverseRecOn with
  | nil =>
    refine iff_of_false nofun ?_
    rintro ⟨earlier, line, later, heq, -⟩
    exact absurd heq (by simp)
  | append_singleton ls line ih =>
    rw [variableTable_concat, lastDefines_concat]
    by_cases hd : ∃ value, Defines line name value
    · obtain ⟨value', hd⟩ := hd
      rw [lookup_addVariable_of_defines hd, Option.some.injEq, or_iff_left fun hnone => hnone.1 value' hd]
      constructor
      · rintro rfl
        exact hd
      · exact hd.unique
    · have hnone : ∀ value, ¬ Defines line name value := fun value hvalue => hd ⟨value, hvalue⟩
      rw [lookup_addVariable_of_not_defines hnone, ih, or_iff_right (hnone value), and_iff_right hnone]

theorem Stores.file?_eq_some_iff (hstores : Stores ls index) {fs : List Text} :
    index.file? path = some fs ↔ FirstNames (below .files ls) path fs := by
  have hnames : ∀ line, equalsIgnoreCase ((fields (code '*') line).headD []) path = true ↔ Names line path := by
    intro line
    rw [headD_fields, equalsIgnoreCase, beq_iff_eq]
    rfl
  rw [file?, hstores.files_eq, List.find?_map, Option.map_eq_some_iff]
  simp only [List.find?_eq_some_iff_append, Function.comp_apply, hnames, Bool.not_eq_true', Bool.eq_false_iff, ne_eq]
  constructor
  · rintro ⟨line, ⟨hline, earlier, later, heq, hearlier⟩, rfl⟩
    exact ⟨earlier, line, later, heq, hline, hearlier, fields_eq_splitOn _ _⟩
  · rintro ⟨earlier, line, later, heq, hline, hearlier, rfl⟩
    exact ⟨line, ⟨hline, earlier, later, heq, hearlier⟩, fields_eq_splitOn _ _⟩

/-- What an index says of variables and files is what the lines of its sections say. -/
structure SaysAsWritten (ls : List Text) (index : SourceIndex) : Prop where
  ini : ∀ name value, index.iniTextOf? name = some value ↔ LastDefines (below .ini ls) name value
  definitions : ∀ name value, index.textOf? name = some value ↔ LastDefines (below .definitions ls) name value
  count : index.files.length = (below .files ls).length
  files : ∀ path fields, index.file? path = some fields ↔ FirstNames (below .files ls) path fields
  /-- How a file is got is told by its fields alone. -/
  source_eq : ∀ path base, index.source? path base =
    (index.file? path).bind fun fields => (index.target? base fields).bind fun target =>
      (index.command? base fields).map fun command => ⟨.of command target, fields⟩
  source_congr : ∀ path path' base, lower path = lower path' → index.source? path base = index.source? path' base

theorem file?_congr {path' : Text} (hcase : lower path = lower path') : index.file? path = index.file? path' := by
  simp only [file?, equalsIgnoreCase, hcase]

theorem Stores.saysAsWritten (hstores : Stores ls index) : SaysAsWritten ls index where
  ini name value := by
    rw [iniTextOf?, hstores.ini_eq]
    exact lookup_variableTable_eq_some_iff
  definitions name value := by
    rw [textOf?, hstores.definitions_eq]
    exact lookup_variableTable_eq_some_iff
  count := by rw [hstores.files_eq, List.length_map]
  files path fields := hstores.file?_eq_some_iff
  source_eq := index.source?_eq
  source_congr path path' base hcase := by rw [source?_eq, source?_eq, file?_congr hcase]

/-- A text is an index if its first line heads the ini section and all its headings are known, up to the one that
closes it. -/
structure ReadsSections (data : Text) : Prop where
  accepted : (∃ index, parse data = .ok index) ↔ ∃ first rest, body data = first :: rest ∧ Heads first .ini ∧
    ∀ line ∈ body data, Marked line → ∃ h, Heads line h
  saysAsWritten : ∀ index, parse data = .ok index → SaysAsWritten (body data) index

theorem parse_eq_addLines {data : Text} (hlines : textLines data = line :: rest) (hline : Heads line .ini) :
    parse data = addLines .ini rest empty ∧ body data = line :: untilClosed true rest := by
  constructor
  · rw [parse, lines_eq_textLines, hlines]
    dsimp only
    rw [ofText_eq_heading_iff.mpr hline]
  · rw [body, hlines, untilClosed, if_neg (fun hclose => absurd hclose.1 (by decide)), decide_eq_true hline,
      Bool.or_true]

/-- An index starts with the heading of its ini section. -/
theorem exists_of_parse {data : Text} (hparse : parse data = .ok index) :
    ∃ line rest, textLines data = line :: rest ∧ Heads line .ini := by
  rw [parse, lines_eq_textLines] at hparse
  cases hlines : textLines data with
  | nil =>
    rw [hlines] at hparse
    cases hparse
  | cons line rest =>
    rw [hlines] at hparse
    refine ⟨line, rest, rfl, ofText_eq_heading_iff.mp ?_⟩
    dsimp only at hparse
    split at hparse
    next => cases hparse
    next => cases hparse
    next heq => exact heq
    next => cases hparse

/-- The first line is read whatever it is. -/
theorem exists_of_body {data : Text} {first : Text} (hbody : body data = first :: rest) :
    ∃ rest', textLines data = first :: rest' := by
  rw [body] at hbody
  cases hlines : textLines data with
  | nil =>
    rw [hlines] at hbody
    cases hbody
  | cons line rest' =>
    rw [hlines, untilClosed, if_neg (fun hclose => absurd hclose.1 (by decide))] at hbody
    exact ⟨rest', by rw [(List.cons.inj hbody).1]⟩

theorem readsSections (data : Text) : ReadsSections data where
  accepted := by
    constructor
    · rintro ⟨index, hparse⟩
      obtain ⟨line, rest, hlines, hline⟩ := exists_of_parse hparse
      obtain ⟨hadd, hbody⟩ := parse_eq_addLines hlines hline
      refine ⟨line, _, hbody, hline, ?_⟩
      rw [hbody, List.forall_mem_cons]
      exact ⟨fun _ => ⟨_, hline⟩, addLines_ok_iff.mp ⟨index, hadd ▸ hparse⟩⟩
    · rintro ⟨first, rest, hbody, hfirst, hknown⟩
      obtain ⟨rest', hlines⟩ := exists_of_body hbody
      obtain ⟨hadd, hbody'⟩ := parse_eq_addLines hlines hfirst
      rw [hbody', List.forall_mem_cons] at hknown
      rw [hadd]
      exact addLines_ok_iff.mpr hknown.2
  saysAsWritten index hparse := by
    obtain ⟨line, rest, hlines, hline⟩ := exists_of_parse hparse
    obtain ⟨hadd, hbody⟩ := parse_eq_addLines hlines hline
    rw [hadd] at hparse
    rw [hbody]
    have hstart : Stores ([] ++ [line]) empty := stores_empty.heading hline.marked
    have hheading : heading? ([] ++ [line]) = some .ini := heading?_concat_of_heads hline
    exact (stores_addLines hstart hheading hparse).saysAsWritten

end CodeAtlas.SourceIndex
