import CodeAtlas.Mangled.Decorated
import CodeAtlas.Proofs.Text.Pieces
import Mathlib.Tactic.SplitIfs

namespace CodeAtlas.Mangled

open Text

/-- A scope that is spelled out. A digit alone would mean an earlier scope, and a question mark would begin a template or
an operator. -/
structure IsScope (f : Text) : Prop where
  nonempty : f ≠ []
  noDelimiter : code '@' ∉ f
  noMark : ¬[code '?'] <+: f
  noDigit : ∀ b, f = [b] → ¬(code '0' ≤ b ∧ b ≤ code '9')

def marker : Option Special → Text
  | none => []
  | some .constructor => "?0"
  | some .destructor => "?1"

/-- A constructor or a destructor bears the name of the innermost scope. -/
def ending (innermost : Text) : Option Special → Text
  | none => []
  | some .constructor => "::" ++ innermost
  | some .destructor => "::~" ++ innermost

/-- A decorated name: the scopes, innermost first, then two delimiters and the type. -/
structure DecoratedName where
  special : Option Special
  innermost : Text
  outer : List Text
  type : Text
  isScope : ∀ f ∈ innermost :: outer, IsScope f

namespace DecoratedName

def scopes (d : DecoratedName) : List Text := d.innermost :: d.outer

def text (d : DecoratedName) : Text :=
  "?" ++ (marker d.special ++ ((ofString "@").intercalate d.scopes ++ "@@" ++ d.type))

/-- The scopes from the outermost on. -/
def qualified (d : DecoratedName) : Text := (ofString "::").intercalate d.scopes.reverse ++ ending d.innermost d.special

end DecoratedName

variable {a : UInt8} {f s t name type rest qualified : Text} {fs : List Text} {special : Option Special}

theorem isScope_iff (h : code '@' ∉ f) :
    IsScope f ↔ f ≠ [] ∧ ¬[code '?'] <+: f ∧ ∀ b, f = [b] → isDigit b = false := by
  have hdigit : ∀ b, isDigit b = false ↔ ¬(code '0' ≤ b ∧ b ≤ code '9') := fun b => by simp [isDigit]
  simp only [hdigit]
  exact ⟨fun hf => ⟨hf.nonempty, hf.noMark, hf.noDigit⟩, fun ⟨hne, hmark, hf⟩ => ⟨hne, h, hmark, hf⟩⟩

theorem isPlainFragment_iff (h : code '@' ∉ f) : isPlainFragment f = true ↔ IsScope f := by
  rw [isScope_iff h]
  match f with
  | [] => simp [isPlainFragment]
  | [b] => simp [isPlainFragment, List.cons_prefix_cons, eq_comm (a := code '?')]
  | b :: c :: r => simp [isPlainFragment, List.cons_prefix_cons, eq_comm (a := code '?')]

theorem firstBehind_append (h : a ∉ f) (ht : FirstBehind [a, a] t) : FirstBehind [a, a] (f ++ t) := by
  induction f with
  | nil => exact ht
  | cons b f ih =>
    rw [List.mem_cons, not_or] at h
    rw [List.cons_append, firstBehind_cons]
    exact ⟨fun hstart => h.1 (List.cons_prefix_cons.mp hstart).1, ih h.2⟩

theorem prefix_join (sep f : Text) (fs : List Text) : f <+: join sep (f :: fs) := by
  cases fs with
  | nil => exact List.prefix_rfl
  | cons g gs =>
    rw [join, List.append_assoc]
    · exact List.prefix_append f _
    · exact List.cons_ne_nil g gs

theorem singleton_prefix_join_iff {sep : Text} (hf : f ≠ []) : [a] <+: join sep (f :: fs) ++ t ↔ [a] <+: f := by
  obtain ⟨after, hafter⟩ := prefix_join sep f fs
  obtain ⟨b, f, rfl⟩ := List.exists_cons_of_ne_nil hf
  rw [← hafter, List.cons_append, List.cons_append, List.cons_prefix_cons, List.cons_prefix_cons]
  exact and_congr_right fun _ => iff_of_true List.nil_prefix List.nil_prefix

/-- Between scopes the delimiter stands alone, so that two in a row end them. -/
theorem firstBehind_join (h : ∀ f ∈ fs, f ≠ [] ∧ a ∉ f) : FirstBehind [a, a] (join [a] fs) := by
  fun_induction join [a] fs with
  | case1 => exact firstBehind_nil _
  | case2 f =>
    have hf := firstBehind_append (h f List.mem_cons_self).2 (firstBehind_nil [a, a])
    rwa [List.append_nil] at hf
  | case3 f fs hfs ih =>
    obtain ⟨g, gs, rfl⟩ := List.exists_cons_of_ne_nil hfs
    have hrest := ih fun g hg => h g (List.mem_cons_of_mem f hg)
    obtain ⟨hg, hdelimiter⟩ := h g (List.mem_cons_of_mem f List.mem_cons_self)
    rw [List.append_assoc]
    refine firstBehind_append (h f List.mem_cons_self).2 ?_
    rw [List.singleton_append, firstBehind_cons]
    refine ⟨fun hstart => hdelimiter ?_, hrest⟩
    -- A second delimiter would be the first byte of the next scope, which is not empty.
    have hsecond := (singleton_prefix_join_iff hg).mp (List.cons_prefix_cons.mp hstart).2
    exact hsecond.subset List.mem_cons_self

theorem scopes?_eq_some_iff : scopes? t = some fs ↔
    ∃ type, t = join "@" fs ++ "@@" ++ type ∧ fs ≠ [] ∧ ∀ f ∈ fs, IsScope f := by
  have hne : ofString "@@" ≠ [] := by decide
  rw [scopes?]
  simp only [Option.bind_eq_bind, Option.bind_eq_some_iff, Prod.exists, cut?_eq_some_iff hne,
    Option.ite_none_right_eq_some, Option.some_inj, List.all_eq_true]
  constructor
  · rintro ⟨list, type, ⟨rfl, -⟩, hplain, rfl⟩
    refine ⟨type, ?_, fields_ne_nil _ list, fun f hf => ?_⟩
    · exact congrArg (· ++ "@@" ++ type) (join_fields (code '@') list).symm
    · exact (isPlainFragment_iff (notMem_of_mem_fields hf)).mp (hplain f hf)
  · rintro ⟨type, rfl, hfs, h⟩
    have hfields : fields (code '@') (join "@" fs) = fs := fields_join (fun f hf => (h f hf).noDelimiter) hfs
    have hfirst : FirstBehind "@@" (join "@" fs) :=
      firstBehind_join fun f hf => ⟨(h f hf).nonempty, (h f hf).noDelimiter⟩
    refine ⟨join "@" fs, type, ⟨rfl, hfirst⟩, fun f hf => ?_, hfields⟩
    rw [hfields] at hf
    exact (isPlainFragment_iff (h f hf).noDelimiter).mpr (h f hf)

/-- What a name is for, by the marker in front of the scopes. -/
def special? (t : Text) : Option (Option Special × Text) :=
  match prefixed? "?0" t, prefixed? "?1" t with
  | some rest, _ => some (some .constructor, rest)
  | none, some rest => some (some .destructor, rest)
  | none, none => if startsWith "?" t then none else some (none, t)

theorem special?_eq_some_iff : special? t = some (special, rest) ↔
    t = marker special ++ rest ∧ (special = none → ¬[code '?'] <+: rest) := by
  constructor
  · intro h
    rw [special?] at h
    split at h
    next hprefix =>
      cases h
      exact ⟨prefixed?_eq_some_iff.mp hprefix, nofun⟩
    next hprefix =>
      cases h
      exact ⟨prefixed?_eq_some_iff.mp hprefix, nofun⟩
    next =>
      split_ifs at h with hmark
      cases h
      exact ⟨rfl, fun _ hstart => hmark (startsWith_iff.mpr hstart)⟩
  · rintro ⟨rfl, hmark⟩
    cases special with
    | none =>
      have hnone : ∀ b : UInt8, prefixed? [code '?', b] rest = none := fun b => by
        rw [Option.eq_none_iff_forall_ne_some]
        intro after hafter
        exact hmark rfl ⟨b :: after, (prefixed?_eq_some_iff.mp hafter).symm⟩
      have hconstructor : prefixed? "?0" rest = none := hnone (code '0')
      have hdestructor : prefixed? "?1" rest = none := hnone (code '1')
      have hstart : ¬startsWith "?" rest = true := fun h => hmark rfl (startsWith_iff.mp h)
      rw [marker, List.nil_append, special?, hconstructor, hdestructor]
      exact if_neg hstart
    | some s => cases s <;> rfl

theorem undecorate?_eq (name : Text) : undecorate? name =
    (prefixed? "?" name).bind fun t => (special? t).bind fun (special, rest) => (scopes? rest).map fun fs =>
      join "::" fs.reverse ++ ending (fs.headD []) special := by
  rw [undecorate?, Option.bind_eq_bind]
  congr 1
  funext t
  -- Behind each marker the name is read on in the same way.
  cases hconstructor : prefixed? "?0" t with
  | some rest =>
    simp only [special?, hconstructor, Option.bind_eq_bind, Option.bind_some, Option.map_eq_bind, Function.comp_def,
      ending, List.append_assoc]
  | none =>
    cases hdestructor : prefixed? "?1" t with
    | some rest =>
      simp only [special?, hconstructor, hdestructor, Option.bind_eq_bind, Option.bind_some, Option.map_eq_bind,
        Function.comp_def, ending, List.append_assoc]
    | none =>
      simp only [special?, hconstructor, hdestructor]
      split_ifs with hmark
      · rfl
      · simp only [Option.bind_eq_bind, Option.bind_some, Option.map_eq_bind, Function.comp_def, ending, List.append_nil]

namespace DecoratedName

variable (d d' : DecoratedName)

theorem text_eq : d.text = "?" ++ (marker d.special ++ (join "@" d.scopes ++ "@@" ++ d.type)) := by
  rw [text, join_eq_intercalate]

theorem qualified_eq : d.qualified = join "::" d.scopes.reverse ++ ending d.innermost d.special := by
  rw [qualified, join_eq_intercalate]

theorem special?_scopes : special? (marker d.special ++ (join "@" d.scopes ++ "@@" ++ d.type)) =
    some (d.special, join "@" d.scopes ++ "@@" ++ d.type) := by
  have hf := d.isScope d.innermost List.mem_cons_self
  refine special?_eq_some_iff.mpr ⟨rfl, fun _ hmark => hf.noMark ?_⟩
  rw [List.append_assoc] at hmark
  exact (singleton_prefix_join_iff hf.nonempty).mp hmark

theorem scopes?_scopes : scopes? (join "@" d.scopes ++ "@@" ++ d.type) = some d.scopes :=
  scopes?_eq_some_iff.mpr ⟨d.type, rfl, List.cons_ne_nil _ _, d.isScope⟩

/-- A decorated name can be taken apart in one way only. -/
theorem eq_of_text_eq (h : d.text = d'.text) : d = d' := by
  rw [text_eq, text_eq] at h
  have hspecial := d.special?_scopes
  rw [List.append_cancel_left h, d'.special?_scopes, Option.some_inj, Prod.mk.injEq] at hspecial
  obtain ⟨hspecial, hrest⟩ := hspecial
  have hscopes := d.scopes?_scopes
  rw [← hrest, d'.scopes?_scopes, Option.some_inj] at hscopes
  rw [hscopes] at hrest
  have htype := List.append_cancel_left hrest
  cases d
  cases d'
  obtain ⟨rfl, rfl⟩ := List.cons.inj hscopes
  obtain rfl := hspecial
  obtain rfl := htype
  rfl

end DecoratedName

theorem undecorate?_eq_some_iff :
    undecorate? name = some qualified ↔ ∃ d : DecoratedName, d.text = name ∧ d.qualified = qualified := by
  rw [undecorate?_eq]
  simp only [Option.bind_eq_some_iff, Option.map_eq_some_iff, Prod.exists, prefixed?_eq_some_iff]
  constructor
  · rintro ⟨_, rfl, special, _, hspecial, fs, hscopes, rfl⟩
    obtain ⟨rfl, -⟩ := special?_eq_some_iff.mp hspecial
    obtain ⟨type, rfl, hne, hscopes⟩ := scopes?_eq_some_iff.mp hscopes
    obtain ⟨f, fs, rfl⟩ := List.exists_cons_of_ne_nil hne
    exact ⟨⟨special, f, fs, type, hscopes⟩, DecoratedName.text_eq _, DecoratedName.qualified_eq _⟩
  · rintro ⟨d, rfl, rfl⟩
    exact ⟨_, d.text_eq, d.special, _, d.special?_scopes, d.scopes, d.scopes?_scopes, d.qualified_eq.symm⟩

/-- A name is read just if it is decorated in this way, and what is read is the qualified name. -/
structure ReadsDecorated (name : Text) : Prop where
  isSome_iff : (undecorate? name).isSome ↔ ∃ d : DecoratedName, d.text = name
  value : ∀ d : DecoratedName, d.text = name → undecorate? name = some d.qualified
  unique : ∀ d d' : DecoratedName, d.text = name → d'.text = name → d = d'

theorem readsDecorated (name : Text) : ReadsDecorated name where
  isSome_iff := by
    rw [Option.isSome_iff_exists]
    constructor
    · rintro ⟨qualified, h⟩
      obtain ⟨d, hd, -⟩ := undecorate?_eq_some_iff.mp h
      exact ⟨d, hd⟩
    · rintro ⟨d, hd⟩
      exact ⟨d.qualified, undecorate?_eq_some_iff.mpr ⟨d, hd, rfl⟩⟩
  value d hd := undecorate?_eq_some_iff.mpr ⟨d, hd, rfl⟩
  unique d d' hd hd' := d.eq_of_text_eq d' (hd.trans hd'.symm)

example : undecorate? "??1Widget@ui@@QEAA@@1@@XZ" = some "ui::Widget::~Widget" := by decide

end CodeAtlas.Mangled
