import CodeAtlas.Proofs.Text.Wrapping
import Mathlib.Computability.StateTransition

namespace CodeAtlas.Text

open StateTransition

variable {d : UInt8} {x : Text} {ps : List Text}

/-- A text that is cut at each delimiter: what is left of it, which is nothing once the last piece is taken, and the
pieces so far. -/
structure FieldScan where
  rest : Option Text
  pieces : List Text

namespace FieldScan

def start (t : Text) : FieldScan := ⟨some t, []⟩

/-- Takes the piece before the first delimiter. Without one, all that is left is the last piece. -/
def take (d : UInt8) (s : FieldScan) (t : Text) : FieldScan :=
  match t.idxOf? d with
  | some i => ⟨some (t.drop (i + 1)), s.pieces ++ [t.take i]⟩
  | none => ⟨none, s.pieces ++ [t]⟩

def step? (d : UInt8) (s : FieldScan) : Option FieldScan := s.rest.map (s.take d)

end FieldScan

/-- A text that is cut into the pieces that hold something: what is left of it, whether that was without a delimiter
when it was last looked through, and the pieces so far. -/
structure WordScan where
  rest : Text
  last : Bool
  pieces : List Text

namespace WordScan

def start (t : Text) : WordScan := ⟨t, false, []⟩

/-- The last piece stays where it is, so that it is looked through once more before the scan ends. -/
def step? (d : UInt8) (s : WordScan) : Option WordScan :=
  let i := s.rest.idxOf? d
  if i.isSome ∨ ¬s.last then
    some ⟨i.elim s.rest fun i => s.rest.drop (i + 1), i.isNone, s.pieces ++ lineOf (i.elim s.rest s.rest.take)⟩
  else none

end WordScan

theorem FieldScan.step?_of_notMem (h : d ∉ x) : FieldScan.step? d ⟨some x, ps⟩ = some ⟨none, ps ++ [x]⟩ := by
  simp [step?, take, List.idxOf?_eq_none_iff.mpr h]

theorem FieldScan.step?_append_cons (h : d ∉ x) (y : Text) :
    FieldScan.step? d ⟨some (x ++ d :: y), ps⟩ = some ⟨some y, ps ++ [x]⟩ := by
  simp [step?, take, idxOf?_append_cons h]

theorem WordScan.step?_of_notMem (h : d ∉ x) :
    WordScan.step? d ⟨x, false, ps⟩ = some ⟨x, true, ps ++ lineOf x⟩ := by
  simp [step?, List.idxOf?_eq_none_iff.mpr h]

theorem WordScan.step?_last (h : d ∉ x) : WordScan.step? d ⟨x, true, ps⟩ = none := by
  simp [step?, List.idxOf?_eq_none_iff.mpr h]

theorem WordScan.step?_append_cons (h : d ∉ x) (y : Text) :
    WordScan.step? d ⟨x ++ d :: y, false, ps⟩ = some ⟨y, false, ps ++ lineOf x⟩ := by
  simp [step?, idxOf?_append_cons h]

theorem FieldScan.reaches (d : UInt8) (t : Text) (ps : List Text) :
    Reaches (FieldScan.step? d) ⟨some t, ps⟩ ⟨none, ps ++ fields d t⟩ := by
  induction t using piece_induction d generalizing ps with
  | last x hx =>
    rw [fields_of_notMem hx]
    exact .single (step?_of_notMem hx)
  | piece x y hx ih =>
    have hrest := ih (ps ++ [x])
    rw [List.append_assoc, List.singleton_append, ← fields_append_cons hx] at hrest
    exact .head (step?_append_cons hx y) hrest

theorem WordScan.reaches (d : UInt8) (t : Text) (ps : List Text) :
    ∃ rest, d ∉ rest ∧ Reaches (WordScan.step? d) ⟨t, false, ps⟩ ⟨rest, true, ps ++ words d t⟩ := by
  induction t using piece_induction d generalizing ps with
  | last x hx =>
    rw [words_of_notMem hx]
    exact ⟨x, hx, .single (step?_of_notMem hx)⟩
  | piece x y hx ih =>
    obtain ⟨rest, hnot, hrest⟩ := ih (ps ++ lineOf x)
    rw [List.append_assoc, ← words_append_cons hx] at hrest
    exact ⟨rest, hnot, .head (step?_append_cons hx y) hrest⟩

theorem FieldScan.map_eval_start (d : UInt8) (t : Text) :
    (eval (FieldScan.step? d) (.start t)).map FieldScan.pieces = .some (fields d t) := by
  have hend : FieldScan.step? d ⟨none, fields d t⟩ = none := rfl
  have heval : ⟨none, fields d t⟩ ∈ eval (FieldScan.step? d) (.start t) := mem_eval.mpr ⟨reaches d t [], hend⟩
  exact Part.eq_some_iff.mpr (Part.mem_map _ heval)

theorem WordScan.map_eval_start (d : UInt8) (t : Text) :
    (eval (WordScan.step? d) (.start t)).map WordScan.pieces = .some (words d t) := by
  obtain ⟨rest, hnot, hreaches⟩ := reaches d t []
  have heval : ⟨rest, true, words d t⟩ ∈ eval (WordScan.step? d) (.start t) :=
    mem_eval.mpr ⟨hreaches, step?_last hnot⟩
  exact Part.eq_some_iff.mpr (Part.mem_map _ heval)

theorem fields_eq_iff (d : UInt8) (t : Text) (fs : List Text) :
    fields d t = fs ↔ fs ≠ [] ∧ (∀ f ∈ fs, d ∉ f) ∧ [d].intercalate fs = t := by
  rw [← join_eq_intercalate]
  constructor
  · rintro rfl
    exact ⟨fields_ne_nil d t, fun f hf => notMem_of_mem_fields hf, join_fields d t⟩
  · rintro ⟨hne, hnot, rfl⟩
    exact fields_join hnot hne

/-- A text has one list of pieces between its delimiters, and both scans come to their end: one with all these pieces,
the other with those that hold something. -/
structure CutsAtDelimiters (d : UInt8) (t : Text) : Prop where
  fields_eq_iff : ∀ fs, fields d t = fs ↔ fs ≠ [] ∧ (∀ f ∈ fs, d ∉ f) ∧ [d].intercalate fs = t
  fieldScan : (eval (FieldScan.step? d) (.start t)).map FieldScan.pieces = .some (fields d t)
  wordScan : (eval (WordScan.step? d) (.start t)).map WordScan.pieces = .some (words d t)
  words_eq : words d t = (fields d t).filter (· ≠ [])

theorem cutsAtDelimiters (d : UInt8) (t : Text) : CutsAtDelimiters d t where
  fields_eq_iff := fields_eq_iff d t
  fieldScan := FieldScan.map_eval_start d t
  wordScan := WordScan.map_eval_start d t
  words_eq := rfl

example : fields (code '*') "a**b*" = ["a", "", "b", ""].map ofString ∧
    words (code '*') "a**b*" = ["a", "b"].map ofString := by
  decide +kernel

end CodeAtlas.Text
