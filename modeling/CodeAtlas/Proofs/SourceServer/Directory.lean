import CodeAtlas.Proofs.Permalink.Url
import CodeAtlas.Proofs.SourceServer.AllowList

namespace CodeAtlas.SourceIndex

open Text

/-- The value of one part, from the values of the texts one and two levels down. -/
def itemValue? (index : SourceIndex) (c : Context) (value? deeper? : Text → Option Text) : Item → Option Text
  | .literal text => some text
  | .reference name => index.resolve? c value? name
  | .call f argument => (value? argument).bind (call? (index.resolve? c deeper?) f)
  | .openCall => none

/-- Whether a name stands for the directory, or for a variable whose text reads it. -/
def nameReads (index : SourceIndex) (reads : Text → Bool) (name : Text) : Bool :=
  lower name = "targ" || ((fieldNumber? name).isNone && (index.textOf? name).any reads)

/-- Whether one part reads the directory, if that is known of the texts one and two levels down. -/
def itemReads (index : SourceIndex) (value? : Text → Option Text) (reads deeper : Text → Bool) : Item → Bool
  | .literal _ => false
  | .reference name => index.nameReads reads name
  | .call f argument => reads argument || (f = .valueOf && (value? argument).any (index.nameReads deeper))
  | .openCall => false

/-- Whether an expression reads the directory, at whatever depth. -/
def reads (index : SourceIndex) (c : Context) : (levels : Nat) → Text → Bool
  | 0, _ => false
  | levels + 1, t =>
    let deeper := match levels with
      | 0 => fun _ => false
      | levels + 1 => reads index c levels
    (Item.list t).any (index.itemReads (index.evaluate? c levels) (reads index c levels) deeper)

/-- Whether the directory is read to find out how to get a file. -/
def readsDirectory (index : SourceIndex) (path base : Text) : Bool :=
  (index.file? path).any fun fields =>
    (index.textOf? "SRCSRVTRG").any (index.reads ⟨fields, base⟩ maxLevels) ||
      ((index.textOf? "SRCSRVCMD").filter fun t => trim t ≠ []).any (index.reads ⟨fields, base⟩ maxLevels)

/-- The address that a file is downloaded from. -/
def Retrieval.url? : Retrieval → Option Text
  | .download url => some url
  | _ => none

def url? (index : SourceIndex) (path base : Text) : Option Text :=
  (index.source? path base).bind fun source => source.retrieval.url?

/-- The permalink that a file would have if its files were extracted to the given directory. -/
def permalinkAt? (index : SourceIndex) (path base : Text) : Option Permalink :=
  (index.source? path base).bind index.permalinkOf?

/-- The directory only feeds `%targ%`, but from there it can get into the address that a file is downloaded from, and
with it into the permalink. -/
structure FeedsTarget (index : SourceIndex) (path : Text) : Prop where
  unread : ∀ base base', index.readsDirectory path base = false → index.source? path base = index.source? path base'
  /-- With the known command a permalink is made from the line of the file alone. -/
  known : index.usesGitiles = true → ∀ base, index.permalinkAt? path base =
    (index.source? path base).bind fun _ => (index.file? path).bind gitilesPermalink?
  /-- With any other the permalinks of two directories differ exactly if the addresses do. -/
  shown : index.usesGitiles = false → ∀ base base',
    index.permalinkAt? path base = index.permalinkAt? path base' ↔ index.url? path base = index.url? path base'
  /-- A target that names the directory gives addresses with the directory in them. -/
  named : ∀ t name, index.textOf? "SRCSRVTRG" = some t → Item.reference name ∈ Item.list t →
    lower name = ofString "targ" → ∀ base url, index.url? path base = some url → base <:+: url

variable {index : SourceIndex} {c : Context} {levels : Nat} {t name path base base' command url value : Text}
  {value? value?' deeper? deeper?' : Text → Option Text} {readsText readsDeeper : Text → Bool}
  {fields : List Text} {item : Item}

theorem evaluate?_succ : index.evaluate? c (levels + 1) t = ((Item.list t).mapM
    (index.itemValue? c (index.evaluate? c levels) (index.evaluate? c (levels - 1)))).map List.flatten := by
  cases levels with
  | zero => rfl
  | succ levels => rfl

theorem reads_succ : index.reads c (levels + 1) t = (Item.list t).any
    (index.itemReads (index.evaluate? c levels) (index.reads c levels) (index.reads c (levels - 1))) := by
  cases levels with
  | zero => rfl
  | succ levels => rfl

theorem resolve?_eq_of_nameReads_eq_false (hvalue : ∀ t, readsText t = false → value? t = value?' t)
    (h : index.nameReads readsText name = false) :
    index.resolve? ⟨fields, base⟩ value? name = index.resolve? ⟨fields, base'⟩ value?' name := by
  rw [nameReads, Bool.or_eq_false_iff, decide_eq_false_iff_not] at h
  obtain ⟨htarg, htext⟩ := h
  rw [resolve?, resolve?, if_neg htarg, if_neg htarg]
  cases hnumber : fieldNumber? name with
  | some n => rfl
  | none =>
    rw [hnumber, Option.isNone_none, Bool.true_and] at htext
    cases hname : index.textOf? name with
    | none => rfl
    | some t =>
      rw [hname, Option.any_some] at htext
      exact hvalue t htext

theorem itemValue?_eq_of_itemReads_eq_false (hvalue : ∀ t, readsText t = false → value? t = value?' t)
    (hdeeper : ∀ t, readsDeeper t = false → deeper? t = deeper?' t)
    (h : index.itemReads value? readsText readsDeeper item = false) :
    index.itemValue? ⟨fields, base⟩ value? deeper? item = index.itemValue? ⟨fields, base'⟩ value?' deeper?' item := by
  cases item with
  | literal text => rfl
  | reference name => exact resolve?_eq_of_nameReads_eq_false hvalue h
  | openCall => rfl
  | call f argument =>
    obtain ⟨hargument, hname⟩ := Bool.or_eq_false_iff.mp h
    rw [itemValue?, itemValue?, ← hvalue argument hargument]
    cases hv : value? argument with
    | none => rfl
    | some v =>
      cases f with
      | valueOf =>
        rw [hv, decide_eq_true rfl, Bool.true_and, Option.any_some] at hname
        exact resolve?_eq_of_nameReads_eq_false hdeeper hname
      | withBackslashes => rfl
      | fileName => rfl

theorem mapM_congr {α β : Type} {f g : α → Option β} {xs : List α} (h : ∀ x ∈ xs, f x = g x) :
    xs.mapM f = xs.mapM g := by
  induction xs with
  | nil => rfl
  | cons x xs ih =>
    obtain ⟨hx, hxs⟩ := List.forall_mem_cons.mp h
    rw [List.mapM_cons, List.mapM_cons, hx, ih hxs]

/-- An expression that does not read the directory has the same value for any. -/
theorem evaluate?_eq_of_reads_eq_false (h : index.reads ⟨fields, base⟩ levels t = false) :
    index.evaluate? ⟨fields, base⟩ levels t = index.evaluate? ⟨fields, base'⟩ levels t := by
  induction levels using Nat.strongRecOn generalizing t with
  | _ levels ih =>
    cases levels with
    | zero => rfl
    | succ levels =>
      rw [reads_succ, List.any_eq_false] at h
      rw [evaluate?_succ, evaluate?_succ]
      refine congrArg _ (mapM_congr fun item hitem => ?_)
      exact itemValue?_eq_of_itemReads_eq_false (fun t => ih levels (by omega)) (fun t => ih (levels - 1) (by omega))
        (Bool.eq_false_iff.mpr (h item hitem))

theorem target?_eq (h : (index.textOf? "SRCSRVTRG").any (index.reads ⟨fields, base⟩ maxLevels) = false) :
    index.target? base fields = index.target? base' fields := by
  rw [target?, target?]
  cases htext : index.textOf? "SRCSRVTRG" with
  | none => rfl
  | some t =>
    rw [htext, Option.any_some] at h
    exact congrArg (Option.map some) (evaluate?_eq_of_reads_eq_false h)

theorem command?_eq (h : ((index.textOf? "SRCSRVCMD").filter fun t => trim t ≠ []).any
    (index.reads ⟨fields, base⟩ maxLevels) = false) : index.command? base fields = index.command? base' fields := by
  rw [command?, command?]
  cases htext : (index.textOf? "SRCSRVCMD").filter fun t => trim t ≠ [] with
  | none => rfl
  | some t =>
    rw [htext, Option.any_some] at h
    dsimp only
    rw [evaluate?_eq_of_reads_eq_false h]

theorem source?_eq_of_readsDirectory_eq_false (h : index.readsDirectory path base = false) :
    index.source? path base = index.source? path base' := by
  rw [source?_eq, source?_eq]
  cases hfile : index.file? path with
  | none => rw [Option.bind_none, Option.bind_none]
  | some fields =>
    rw [readsDirectory, hfile, Option.any_some] at h
    obtain ⟨htarget, hcommand⟩ := Bool.or_eq_false_iff.mp h
    have htargets : index.target? base fields = index.target? base' fields := target?_eq htarget
    have hcommands : index.command? base fields = index.command? base' fields := command?_eq hcommand
    rw [Option.bind_some, Option.bind_some, htargets, hcommands]

theorem exists_of_mapM {α β : Type} {f : α → Option β} {xs : List α} {x : α} {ys : List β}
    (h : xs.mapM f = some ys) (hx : x ∈ xs) : ∃ y ∈ ys, f x = some y := by
  induction xs generalizing ys with
  | nil => cases hx
  | cons x' xs ih =>
    rw [List.mapM_cons] at h
    obtain ⟨y, hy, h⟩ := Option.bind_eq_some_iff.mp h
    obtain ⟨rest, hrest, h⟩ := Option.bind_eq_some_iff.mp h
    cases h
    rcases List.mem_cons.mp hx with rfl | hx
    · exact ⟨y, List.mem_cons_self, hy⟩
    · obtain ⟨z, hz, hvalue⟩ := ih hrest hx
      exact ⟨z, List.mem_cons_of_mem y hz, hvalue⟩

/-- The value of each part stands in the value of the whole. -/
theorem infix_of_evaluate? (hitem : item ∈ Item.list t) (h : index.evaluate? c (levels + 1) t = some value) :
    ∃ v, index.itemValue? c (index.evaluate? c levels) (index.evaluate? c (levels - 1)) item = some v ∧
      v <:+: value := by
  rw [evaluate?_succ] at h
  obtain ⟨values, hvalues, rfl⟩ := Option.map_eq_some_iff.mp h
  obtain ⟨v, hv, hitem⟩ := exists_of_mapM hvalues hitem
  exact ⟨v, hitem, List.infix_of_mem_flatten hv⟩

theorem evaluate?_gitilesCommand_ne_nil (h : t = gitilesCommand ∨ t = namedGitilesCommand)
    (hvalue : index.evaluate? c (levels + 1) t = some value) : value ≠ [] := by
  have hfirst : ∃ front, Item.literal front ∈ Item.list t ∧ front ≠ [] := by
    rcases h with rfl | rfl
    · exact ⟨"cmd /c \"mkdir \"", by decide +kernel, by decide⟩
    · exact ⟨"SRC_EXTRACT_CMD=cmd /c \"mkdir \"", by decide +kernel, by decide⟩
  obtain ⟨front, hfront, hne⟩ := hfirst
  obtain ⟨v, hv, hinfix⟩ := infix_of_evaluate? hfront hvalue
  cases hv
  rintro rfl
  exact hne (List.infix_nil.mp hinfix)

/-- The known command has no empty value. -/
theorem command?_ne_nil (hgitiles : index.usesGitiles = true) (h : index.command? base fields = some command) :
    command ≠ [] := by
  obtain ⟨hcommand, hextraction⟩ := usesGitiles_iff.mp hgitiles
  rw [command?, hcommand, Option.filter_some, if_pos (by decide)] at h
  have hname : Item.reference "SRC_EXTRACT_CMD" ∈ Item.list "%SRC_EXTRACT_CMD%" := by decide +kernel
  have hfield : fieldNumber? "SRC_EXTRACT_CMD" = none := by decide +kernel
  obtain ⟨v, hv, hinfix⟩ := infix_of_evaluate? hname h
  rw [itemValue?, resolve?, if_neg (by decide), hfield] at hv
  obtain ⟨t, htext, hv⟩ := Option.bind_eq_some_iff.mp hv
  have hknown : t = gitilesCommand ∨ t = namedGitilesCommand :=
    hextraction.imp (fun heq => Option.some.inj (htext.symm.trans heq))
      (fun heq => Option.some.inj (htext.symm.trans heq))
  rintro rfl
  exact evaluate?_gitilesCommand_ne_nil hknown hv (List.infix_nil.mp hinfix)

theorem permalinkAt?_of_usesGitiles (hgitiles : index.usesGitiles = true) : index.permalinkAt? path base =
    (index.source? path base).bind fun _ => (index.file? path).bind gitilesPermalink? := by
  rw [permalinkAt?]
  cases hsource : index.source? path base with
  | none => rw [Option.bind_none, Option.bind_none]
  | some source =>
    obtain ⟨hfile, target, command, -, hcommand, hretrieval⟩ := of_source?_eq_some hsource
    rw [Retrieval.of, if_pos (command?_ne_nil hgitiles hcommand)] at hretrieval
    rw [Option.bind_some, Option.bind_some, hfile, Option.bind_some, permalinkOf?, ← hretrieval]
    exact if_pos hgitiles

theorem permalinkAt?_of_not_usesGitiles (hgitiles : index.usesGitiles = false) :
    index.permalinkAt? path base = (index.url? path base).bind Permalink.ofUrl? := by
  rw [permalinkAt?, url?, Option.bind_assoc]
  refine congrArg _ (funext fun source => ?_)
  rw [permalinkOf?, hgitiles]
  cases source.retrieval with
  | download url => rfl
  | command command target => rfl
  | other => rfl

/-- An address is the value of the target. -/
theorem evaluate?_of_url? (h : index.url? path base = some url) : isWebAddress url = true ∧
    ∃ t fields, index.textOf? "SRCSRVTRG" = some t ∧ index.evaluate? ⟨fields, base⟩ maxLevels t = some url := by
  obtain ⟨source, hsource, h⟩ := Option.bind_eq_some_iff.mp h
  obtain ⟨-, target, command, htarget, -, hretrieval⟩ := of_source?_eq_some hsource
  rw [← hretrieval, Retrieval.of] at h
  split_ifs at h
  · cases h
  · cases hweb : target.filter isWebAddress with
    | none =>
      rw [hweb] at h
      cases h
    | some u =>
      rw [hweb] at h
      cases h
      obtain ⟨rfl, hurl⟩ := Option.filter_eq_some_iff.mp hweb
      obtain ⟨t, htext, hvalue⟩ := Option.bind_eq_some_iff.mp (target?_eq_some htarget).symm
      exact ⟨hurl, t, source.fields, htext, hvalue⟩

theorem infix_of_url? (htext : index.textOf? "SRCSRVTRG" = some t) (hitem : Item.reference name ∈ Item.list t)
    (hname : lower name = ofString "targ") (h : index.url? path base = some url) : base <:+: url := by
  obtain ⟨-, t', fields, htext', hvalue⟩ := evaluate?_of_url? h
  cases htext.symm.trans htext'
  obtain ⟨v, hv, hinfix⟩ := infix_of_evaluate? hitem hvalue
  rw [itemValue?, resolve?, if_pos hname] at hv
  cases hv
  exact hinfix

theorem exists_permalink_of_url? (h : index.url? path base = some url) : ∃ p, Permalink.ofUrl? url = some p := by
  have hweb := (evaluate?_of_url? h).1
  rw [isWebAddress, Bool.or_eq_true] at hweb
  exact Option.isSome_iff_exists.mp (Permalink.isSome_ofUrl? hweb)

theorem permalinkAt?_eq_iff (hgitiles : index.usesGitiles = false) :
    index.permalinkAt? path base = index.permalinkAt? path base' ↔ index.url? path base = index.url? path base' := by
  rw [permalinkAt?_of_not_usesGitiles hgitiles, permalinkAt?_of_not_usesGitiles hgitiles]
  refine ⟨fun h => ?_, fun h => by rw [h]⟩
  cases hurl : index.url? path base with
  | none =>
    cases hurl' : index.url? path base' with
    | none => rfl
    | some v =>
      obtain ⟨p, hp⟩ := exists_permalink_of_url? hurl'
      rw [hurl, hurl', Option.bind_none, Option.bind_some, hp] at h
      cases h
  | some u =>
    obtain ⟨p, hp⟩ := exists_permalink_of_url? hurl
    rw [hurl, Option.bind_some, hp] at h
    obtain ⟨v, hurl', hv⟩ := Option.bind_eq_some_iff.mp h.symm
    rw [hurl', Permalink.ofUrl?_inj hp hv]

theorem feedsTarget (index : SourceIndex) (path : Text) : FeedsTarget index path where
  unread _ _ := source?_eq_of_readsDirectory_eq_false
  known hgitiles _ := permalinkAt?_of_usesGitiles hgitiles
  shown hgitiles _ _ := permalinkAt?_eq_iff hgitiles
  named _ _ htext hitem hname _ _ := infix_of_url? htext hitem hname

example : (SourceIndex.mk [] [("SRCSRVTRG", "http://h/%fnfile%(%var1%)")] [["a/c.c"]]).readsDirectory "a/c.c"
    noDirectory = false := by decide +kernel

/-- An index by which a file is downloaded from an address that names the directory. -/
def shownText : Text :=
  "SRCSRV: ini\nVERSION=1\nSRCSRV: variables\nSRCSRVTRG=http://h/%targ%/%var1%\n" ++
    "SRCSRV: source files\nc.c\nSRCSRV: end\n"

def shownIndex : SourceIndex := ⟨[("VERSION", "1")], [("SRCSRVTRG", "http://h/%targ%/%var1%")], [["c.c"]]⟩

theorem showsDirectory_shownIndex : parse shownText = .ok shownIndex ∧
    shownIndex.permalink? "c.c" = some (.url "http://h/C:\\Dummy/c.c") ∧
    shownIndex.permalinkAt? "c.c" noDirectory ≠ shownIndex.permalinkAt? "c.c" "D:\\src" :=
  ⟨rfl, by decide +kernel, by decide +kernel⟩

end CodeAtlas.SourceIndex
