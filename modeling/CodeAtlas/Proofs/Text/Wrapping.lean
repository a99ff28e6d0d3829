import CodeAtlas.Proofs.Text.Pieces
import CodeAtlas.Text.Wrapping
import Mathlib.Tactic.SplitIfs

namespace CodeAtlas.Text

variable {width : Nat} {t x : Text} {line : Text}

theorem before_of_notMem {b : UInt8} (h : b ∉ x) : before b x = x := by
  have hx : ∀ a ∈ x, (a != b) = true := fun a ha => bne_iff_ne.mpr (ne_of_mem_of_not_mem ha h)
  rw [before, ← List.append_nil x, List.takeWhile_append_of_pos hx, List.takeWhile_nil]

theorem before_append_cons {b : UInt8} (h : b ∉ x) (y : Text) : before b (x ++ b :: y) = x := by
  have hx : ∀ a ∈ x, (a != b) = true := fun a ha => bne_iff_ne.mpr (ne_of_mem_of_not_mem ha h)
  rw [before, List.takeWhile_append_of_pos hx, List.takeWhile_cons_of_neg (by simp), List.append_nil]

/-- A line feed that is not past the width ends a line. -/
theorem wrap_feed (h : code '\n' ∉ x) (hx : x.length ≤ width) (y : Text) :
    wrap width (x ++ code '\n' :: y) = lineOf x ++ wrap width y := by
  have htake : (x ++ code '\n' :: y).take (width + 1) = x ++ code '\n' :: y.take (width - x.length) := by
    have hrest : width + 1 - x.length = width - x.length + 1 := by omega
    rw [List.take_append, List.take_of_length_le (by omega), hrest, List.take_succ_cons]
  have hline : before (code '\n') ((x ++ code '\n' :: y).take (width + 1)) = x := by
    rw [htake, before_append_cons h]
  rw [wrap, hline]
  simp only [hx, ↓reduceIte]
  split
  next hdrop => simp at hdrop
  next hdrop =>
    rw [List.drop_left, List.cons.injEq] at hdrop
    rw [hdrop.2]

/-- What is no longer than the width is the last line. -/
theorem wrap_last (h : code '\n' ∉ t) (ht : t.length ≤ width) : wrap width t = lineOf t := by
  have hline : before (code '\n') (t.take (width + 1)) = t := by
    rw [List.take_of_length_le (by omega), before_of_notMem h]
  rw [wrap, hline]
  simp only [ht, ↓reduceIte]
  split
  next => rfl
  next hdrop => simp at hdrop

/-- Where the width is passed without a line feed, a line is cut off. -/
theorem wrap_cut (hwidth : 0 < width) (ht : width < t.length) (h : code '\n' ∉ t.take (width + 1)) :
    wrap width t = t.take (cutPoint width t) :: wrap width (t.drop (cutPoint width t)) := by
  have hline : before (code '\n') (t.take (width + 1)) = t.take (width + 1) := before_of_notMem h
  have hlong : ¬(t.take (width + 1)).length ≤ width := by
    rw [List.length_take]
    omega
  rw [wrap, hline]
  simp only [hlong, ↓reduceIte, Nat.max_eq_left hwidth]

/-- A text gives up what is before a line feed, or a line of the width, until one line is left. -/
theorem wrap_induction {motive : Text → Prop} (hwidth : 0 < width)
    (last : ∀ t, code '\n' ∉ t → t.length ≤ width → motive t)
    (feed : ∀ x y, code '\n' ∉ x → x.length ≤ width → motive y → motive (x ++ code '\n' :: y))
    (cut : ∀ t, width < t.length → code '\n' ∉ t.take (width + 1) → motive (t.drop (cutPoint width t)) → motive t)
    (t : Text) : motive t := by
  induction hn : t.length using Nat.strongRecOn generalizing t with
  | ind n ih =>
    obtain rfl := hn
    -- What comes first decides: a line feed, the end of the width or the end of the text.
    by_cases hfeed : code '\n' ∈ t.take (width + 1)
    · obtain ⟨x, y, htake, hx⟩ := List.eq_append_cons_of_mem hfeed
      have ht : t = x ++ code '\n' :: (y ++ t.drop (width + 1)) := by
        rw [← List.cons_append, ← List.append_assoc, ← htake, List.take_append_drop]
      have hwhole := congrArg List.length ht
      have hlength := congrArg List.length htake
      simp only [List.length_take, List.length_append, List.length_cons] at hwhole hlength
      rw [ht]
      refine feed x _ hx (by omega) (ih _ ?_ _ rfl)
      rw [List.length_append]
      omega
    · by_cases hlong : width < t.length
      · refine cut t hlong hfeed (ih _ ?_ _ rfl)
        have hpos := cutPoint_pos hwidth t
        rw [List.length_drop]
        omega
      · rw [List.take_of_length_le (by omega)] at hfeed
        exact last t hfeed (by omega)

theorem mem_lineOf : line ∈ lineOf t ↔ t ≠ [] ∧ line = t := by
  rw [lineOf]
  split_ifs with h <;> simp [h]

theorem flatten_lineOf (t : Text) : (lineOf t).flatten = t := by
  rw [lineOf]
  split_ifs with h <;> simp [h]

/-- A line holds something, no line feed, and no more than the width. -/
structure IsLine (width : Nat) (line : Text) : Prop where
  nonempty : line ≠ []
  noFeed : code '\n' ∉ line
  length_le : line.length ≤ width

theorem isLine_of_mem_lineOf (h : code '\n' ∉ t) (ht : t.length ≤ width) (hline : line ∈ lineOf t) :
    IsLine width line := by
  obtain ⟨hne, rfl⟩ := mem_lineOf.mp hline
  exact ⟨hne, h, ht⟩

theorem isLine_take_cutPoint (hwidth : 0 < width) (ht : width < t.length) (h : code '\n' ∉ t.take (width + 1)) :
    IsLine width (t.take (cutPoint width t)) := by
  have hpos := cutPoint_pos hwidth t
  have hle := cutPoint_le width t
  refine ⟨?_, fun hmem => h ?_, ?_⟩
  · rw [ne_eq, List.take_eq_nil_iff, not_or]
    exact ⟨by omega, List.ne_nil_of_length_pos (by omega)⟩
  · exact (List.take_sublist_take_left (by omega)).subset hmem
  · rw [List.length_take]
    omega

theorem isLine_of_mem_wrap (hwidth : 0 < width) (hline : line ∈ wrap width t) : IsLine width line := by
  induction t using wrap_induction hwidth with
  | last t h ht =>
    rw [wrap_last h ht] at hline
    exact isLine_of_mem_lineOf h ht hline
  | feed x y hx hlength ih =>
    rw [wrap_feed hx hlength, List.mem_append] at hline
    exact hline.elim (isLine_of_mem_lineOf hx hlength) ih
  | cut t ht h ih =>
    rw [wrap_cut hwidth ht h, List.mem_cons] at hline
    rcases hline with rfl | hrest
    · exact isLine_take_cutPoint hwidth ht h
    · exact ih hrest

theorem filter_of_notMem {b : UInt8} (h : b ∉ x) : x.filter (· ≠ b) = x :=
  List.filter_eq_self.mpr fun _ ha => decide_eq_true (ne_of_mem_of_not_mem ha h)

/-- The lines together are the text, less its line feeds. -/
theorem flatten_wrap (hwidth : 0 < width) (t : Text) : (wrap width t).flatten = t.filter (· ≠ code '\n') := by
  induction t using wrap_induction hwidth with
  | last t h ht => rw [wrap_last h ht, flatten_lineOf, filter_of_notMem h]
  | feed x y hx hlength ih =>
    rw [wrap_feed hx hlength, List.flatten_append, flatten_lineOf, ih, List.filter_append, filter_of_notMem hx,
      List.filter_cons_of_neg (by simp)]
  | cut t ht h ih =>
    have hline := (isLine_take_cutPoint hwidth ht h).noFeed
    rw [wrap_cut hwidth ht h, List.flatten_cons, ih, ← filter_of_notMem hline, ← List.filter_append,
      List.take_append_drop]

/-- The cut depends on no more than what the width shows. -/
theorem cutPoint_append (h : width < x.length) (y : Text) : cutPoint width (x ++ y) = cutPoint width x := by
  rw [cutPoint, cutPoint, List.take_append_of_le_length (by omega)]

/-- What is before a line feed is wrapped on its own. -/
theorem wrap_append_feed (hwidth : 0 < width) (h : code '\n' ∉ x) (y : Text) :
    wrap width (x ++ code '\n' :: y) = wrap width x ++ wrap width y := by
  induction x using wrap_induction hwidth with
  | last x _ hx => rw [wrap_feed h hx, wrap_last h hx]
  | feed => exact absurd (by simp) h
  | cut x hlong hfeed ih =>
    have hle := cutPoint_le width x
    have htake : (x ++ code '\n' :: y).take (width + 1) = x.take (width + 1) := List.take_append_of_le_length (by omega)
    have hrest : code '\n' ∉ x.drop (cutPoint width x) := fun hmem => h (List.mem_of_mem_drop hmem)
    rw [wrap_cut hwidth (by rw [List.length_append]; omega) (htake ▸ hfeed), cutPoint_append hlong,
      wrap_cut hwidth hlong hfeed, List.take_append_of_le_length (by omega), List.drop_append_of_le_length (by omega),
      ih hrest, List.cons_append]

theorem words_of_notMem {b : UInt8} (h : b ∉ x) : words b x = lineOf x := by
  rw [words, fields_of_notMem h, lineOf]
  split_ifs with hx <;> simp [hx]

theorem words_append_cons {b : UInt8} (h : b ∉ x) (y : Text) : words b (x ++ b :: y) = lineOf x ++ words b y := by
  rw [words, fields_append_cons h, ← List.singleton_append, List.filter_append, ← fields_of_notMem h, ← words, ← words,
    words_of_notMem h]

theorem flatMap_wrap_lineOf (width : Nat) (t : Text) : (lineOf t).flatMap (wrap width) = wrap width t := by
  rw [lineOf]
  split_ifs with h
  · rw [h, wrap_last List.not_mem_nil (Nat.zero_le width), List.flatMap_nil]
    rfl
  · rw [List.flatMap_singleton]

/-- Each piece between line feeds is wrapped on its own. -/
theorem wrap_eq_flatMap_words (hwidth : 0 < width) (t : Text) :
    wrap width t = (words (code '\n') t).flatMap (wrap width) := by
  induction t using piece_induction (code '\n') with
  | last x hx => rw [words_of_notMem hx, flatMap_wrap_lineOf]
  | piece x y hx ih =>
    rw [wrap_append_feed hwidth hx, words_append_cons hx, List.flatMap_append, flatMap_wrap_lineOf, ← ih]

end CodeAtlas.Text
