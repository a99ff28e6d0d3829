import CodeAtlas.Proofs.SourceServer.Retrieval

namespace CodeAtlas.SourceIndex

open Text

/-- The command is one of the two that are known, as they are written, and its file is served by Gitiles. -/
structure Allowed (index : SourceIndex) (fields : List Text) (permalink : Permalink) : Prop where
  command : index.textOf? "SRCSRVCMD" = some (ofString "%SRC_EXTRACT_CMD%")
  extraction : index.textOf? "SRC_EXTRACT_CMD" = some gitilesCommand ∨
    index.textOf? "SRC_EXTRACT_CMD" = some namedGitilesCommand
  decoder : fields[4]? = some (ofString "base64.b64decode")
  address : ∃ address, fields[3]? = some address ∧ Permalink.ofGitiles? address = some permalink

/-- A file with a command has a permalink only if the command is known, and then it is told by the fourth field of
its line; any other file has that of its target. -/
structure TrustsKnownCommands (index : SourceIndex) (path : Text) : Prop where
  command : ∀ command target fields, index.source? path noDirectory = some ⟨.command command target, fields⟩ →
    index.file? path = some fields ∧
      ∀ permalink, index.permalink? path = some permalink ↔ Allowed index fields permalink
  /-- Nothing but the line of the file shows: under other variables a command gives the same permalink, if any. -/
  confined : ∀ (other : SourceIndex) command target fields command' target' permalink permalink',
    index.source? path noDirectory = some ⟨.command command target, fields⟩ →
    other.source? path noDirectory = some ⟨.command command' target', fields⟩ →
    index.permalink? path = some permalink → other.permalink? path = some permalink' → permalink = permalink'
  target : ∀ retrieval fields, index.source? path noDirectory = some ⟨retrieval, fields⟩ →
    (∀ command target, retrieval ≠ .command command target) →
    index.file? path = some fields ∧ index.permalink? path =
      (((index.textOf? "SRCSRVTRG").bind (index.evaluate? ⟨fields, noDirectory⟩ maxLevels)).filter isWebAddress).bind
        Permalink.ofUrl?
  absent : index.source? path noDirectory = none → index.permalink? path = none

variable {index : SourceIndex} {path base command : Text} {target : Option Text} {fields : List Text}
  {retrieval : Retrieval} {permalink : Permalink}

theorem usesGitiles_iff : index.usesGitiles = true ↔
    index.textOf? "SRCSRVCMD" = some (ofString "%SRC_EXTRACT_CMD%") ∧
    (index.textOf? "SRC_EXTRACT_CMD" = some gitilesCommand ∨
      index.textOf? "SRC_EXTRACT_CMD" = some namedGitilesCommand) := by
  rw [usesGitiles, Bool.and_eq_true, beq_iff_eq]
  cases index.textOf? "SRC_EXTRACT_CMD" with
  | none => simp
  | some t => simp

theorem gitilesPermalink?_eq_some_iff : gitilesPermalink? fields = some permalink ↔
    fields[4]? = some (ofString "base64.b64decode") ∧
      ∃ address, fields[3]? = some address ∧ Permalink.ofGitiles? address = some permalink := by
  unfold gitilesPermalink?
  split
  next _ _ _ address decoder _ =>
    split_ifs with hdecoder
    · simp [hdecoder]
    · simp [hdecoder]
  next hshort =>
    refine iff_of_false nofun ?_
    rintro ⟨hdecoder, -⟩
    match fields, hshort, hdecoder with
    | _ :: _ :: _ :: address :: decoder :: rest, hshort, _ => exact hshort _ _ _ address decoder rest rfl

theorem permalinkOf?_command : index.permalinkOf? ⟨.command command target, fields⟩ = some permalink ↔
    Allowed index fields permalink := by
  unfold permalinkOf?
  dsimp only
  constructor
  · intro h
    split_ifs at h with hgitiles
    obtain ⟨hcommand, hextraction⟩ := usesGitiles_iff.mp hgitiles
    obtain ⟨hdecoder, haddress⟩ := gitilesPermalink?_eq_some_iff.mp h
    exact ⟨hcommand, hextraction, hdecoder, haddress⟩
  · rintro ⟨hcommand, hextraction, hdecoder, haddress⟩
    rw [if_pos (usesGitiles_iff.mpr ⟨hcommand, hextraction⟩)]
    exact gitilesPermalink?_eq_some_iff.mpr ⟨hdecoder, haddress⟩

/-- What is known of a file that has a way to be got. -/
theorem of_source?_eq_some (h : index.source? path base = some ⟨retrieval, fields⟩) :
    index.file? path = some fields ∧ ∃ target command, index.target? base fields = some target ∧
      index.command? base fields = some command ∧ Retrieval.of command target = retrieval := by
  rw [source?_eq] at h
  obtain ⟨fields', hfile, h⟩ := Option.bind_eq_some_iff.mp h
  obtain ⟨target, htarget, h⟩ := Option.bind_eq_some_iff.mp h
  obtain ⟨command, hcommand, h⟩ := Option.map_eq_some_iff.mp h
  cases h
  exact ⟨hfile, target, command, htarget, hcommand, rfl⟩

theorem permalink?_of_source? (h : index.source? path noDirectory = some ⟨retrieval, fields⟩) :
    index.permalink? path = index.permalinkOf? ⟨retrieval, fields⟩ := by
  rw [permalink?, h, Option.bind_some]

theorem target?_eq_some (h : index.target? base fields = some target) :
    target = (index.textOf? "SRCSRVTRG").bind (index.evaluate? ⟨fields, base⟩ maxLevels) := by
  rw [target?] at h
  cases htext : index.textOf? "SRCSRVTRG" with
  | none =>
    rw [htext] at h
    cases h
    rfl
  | some t =>
    rw [htext] at h
    obtain ⟨value, hvalue, rfl⟩ := Option.map_eq_some_iff.mp h
    exact hvalue.symm

/-- Without a command the permalink is that of the target, as far as it is a web address. -/
theorem permalinkOf?_of (h : ∀ command target, retrieval ≠ .command command target)
    (heq : Retrieval.of command target = retrieval) :
    index.permalinkOf? ⟨retrieval, fields⟩ = (target.filter isWebAddress).bind Permalink.ofUrl? := by
  rw [Retrieval.of] at heq
  split_ifs at heq
  · exact absurd heq.symm (h command target)
  · rw [← heq]
    cases target.filter isWebAddress <;> rfl

theorem trustsKnownCommands (index : SourceIndex) (path : Text) : TrustsKnownCommands index path where
  command command target fields hsource := by
    refine ⟨(of_source?_eq_some hsource).1, fun permalink => ?_⟩
    rw [permalink?_of_source? hsource]
    exact permalinkOf?_command
  confined other command target fields command' target' permalink permalink' hsource hother h h' := by
    rw [permalink?_of_source? hsource] at h
    rw [permalink?_of_source? hother] at h'
    obtain ⟨address, haddress, hpermalink⟩ := (permalinkOf?_command.mp h).address
    obtain ⟨address', haddress', hpermalink'⟩ := (permalinkOf?_command.mp h').address
    cases haddress.symm.trans haddress'
    exact Option.some.inj (hpermalink.symm.trans hpermalink')
  target retrieval fields hsource hretrieval := by
    obtain ⟨hfile, target, command, htarget, -, heq⟩ := of_source?_eq_some hsource
    refine ⟨hfile, ?_⟩
    rw [permalink?_of_source? hsource, permalinkOf?_of hretrieval heq, ← target?_eq_some htarget]
  absent hsource := by rw [permalink?, hsource, Option.bind_none]

example : (SourceIndex.mk [] [("SRCSRVCMD", "%SRC_EXTRACT_CMD%"), ("SRC_EXTRACT_CMD", gitilesCommand),
      ("SRC_EXTRACT_TARGET_DIR", []), ("SRC_EXTRACT_TARGET", [])]
    [["a.c", "", "", "https://h.googlesource.com/r.git/+/1f/a.c?format=TEXT", "base64.b64decode"]]).permalink? "A.C" =
    some (.git "h.googlesource.com/r" "a.c" "1f") := by decide +kernel

end CodeAtlas.SourceIndex
