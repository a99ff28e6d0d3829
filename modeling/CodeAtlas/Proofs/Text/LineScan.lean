import CodeAtlas.Proofs.Text.Wrapping

namespace CodeAtlas.Text

/-- A text that is broken into lines byte by byte: what is left of it, how many bytes of that have been looked at, the
last blank among them, where zero means none, and the lines so far. -/
structure LineScan where
  rest : Text
  index : Nat
  boundary : Nat
  lines : List Text

namespace LineScan

def start (t : Text) : LineScan := ⟨t, 0, 0, []⟩

/-- The first `n` bytes become a line, and the scan begins anew behind them. -/
def cut (s : LineScan) (n : Nat) : LineScan := ⟨s.rest.drop n, 0, 0, s.lines ++ [s.rest.take n]⟩

def skip (s : LineScan) : LineScan := ⟨s.rest.drop 1, 0, 0, s.lines⟩

/-- Looks at one byte. A boundary of zero cuts nothing, so that the width decides. -/
def look (width : Nat) (s : LineScan) (b : UInt8) : LineScan :=
  let boundary := if isBlank b then s.index else s.boundary
  if b = code '\n' then
    if s.index = 0 then s.skip else (s.cut (if boundary = 0 then s.index else boundary)).skip
  else if s.index = width then s.cut (if boundary = 0 then width else boundary)
  else { s with index := s.index + 1, boundary }

/-- There is no step at the end of the text. -/
def step? (width : Nat) (s : LineScan) : Option LineScan := s.rest[s.index]?.map (s.look width)

/-- The scan ends with these lines, the last of which is what is left. -/
inductive Ends (width : Nat) : LineScan → List Text → Prop
  | stop {s : LineScan} (h : s.step? width = none) : Ends width s (s.lines ++ lineOf s.rest)
  | next {s s' : LineScan} {lines : List Text} (h : s.step? width = some s') (rest : Ends width s' lines) :
      Ends width s lines

variable {width i : Nat} {s s' : LineScan} {t : Text} {b : UInt8} {lines lines' : List Text}

theorem Ends.unique (h : Ends width s lines) (h' : Ends width s lines') : lines = lines' := by
  induction h with
  | stop hend =>
    cases h' with
    | stop => rfl
    | next hstep => cases hend.symm.trans hstep
  | next hstep _ ih =>
    cases h' with
    | stop hend => cases hend.symm.trans hstep
    | next hstep' hrest =>
      cases hstep.symm.trans hstep'
      exact ih hrest

/-- The last blank among the first `i` bytes; zero where there is none, or where it is the first byte. -/
def lastBlank (i : Nat) (t : Text) : Nat := i - 1 - ((t.take i).reverse.takeWhile (!isBlank ·)).length

theorem cutPoint_eq (width : Nat) (t : Text) :
    cutPoint width t = if lastBlank (width + 1) t = 0 then width else lastBlank (width + 1) t := rfl

theorem lastBlank_succ (h : t[i]? = some b) : lastBlank (i + 1) t = if isBlank b then i else lastBlank i t := by
  have htake : (t.take (i + 1)).reverse = b :: (t.take i).reverse := by
    rw [List.take_add_one, h, Option.toList_some, List.reverse_append, List.reverse_singleton, List.singleton_append]
  rw [lastBlank, lastBlank, htake]
  by_cases hb : isBlank b = true
  · rw [if_pos hb, List.takeWhile_cons_of_neg (by simp [hb])]
    rfl
  · rw [if_neg hb, List.takeWhile_cons_of_pos (by simp [hb]), List.length_cons]
    omega

/-- No line is due among the bytes that have been looked at, and the boundary is their last blank. -/
structure Valid (width : Nat) (s : LineScan) : Prop where
  index_le : s.index ≤ width
  index_le_length : s.index ≤ s.rest.length
  noFeed : code '\n' ∉ s.rest.take s.index
  boundary : s.boundary = lastBlank s.index s.rest

theorem valid_begin (width : Nat) (t : Text) (lines : List Text) : Valid width ⟨t, 0, 0, lines⟩ where
  index_le := Nat.zero_le width
  index_le_length := Nat.zero_le _
  noFeed := List.not_mem_nil
  boundary := rfl

/-- At a line feed the boundary is the line feed itself, so that the line holds all before it. -/
theorem look_feed (hbyte : s.rest[s.index]? = some (code '\n')) : s.look width (code '\n') =
    ⟨s.rest.drop (s.index + 1), 0, 0, s.lines ++ lineOf (s.rest.take s.index)⟩ := by
  have hblank : isBlank (code '\n') = true := by decide
  obtain ⟨hlength, -⟩ := List.getElem?_eq_some_iff.mp hbyte
  rw [look, if_pos hblank, if_pos rfl]
  by_cases hi : s.index = 0
  · rw [if_pos hi, hi, skip, List.take_zero, lineOf, if_pos rfl, List.append_nil]
  · have hne : s.rest.take s.index ≠ [] := by
      rw [ne_eq, List.take_eq_nil_iff, not_or]
      exact ⟨hi, List.ne_nil_of_length_pos (by omega)⟩
    rw [if_neg hi, if_neg hi, cut, skip, List.drop_drop, lineOf, if_neg hne]

theorem notMem_take_succ (h : code '\n' ∉ t.take i) (hbyte : t[i]? = some b) (hb : b ≠ code '\n') :
    code '\n' ∉ t.take (i + 1) := by
  rw [List.take_add_one, hbyte, Option.toList_some, List.mem_append, List.mem_singleton, not_or]
  exact ⟨h, hb.symm⟩

theorem look_of_ne (h : s.Valid width) (hbyte : s.rest[s.index]? = some b) (hb : b ≠ code '\n') :
    s.look width b = if s.index = width then s.cut (cutPoint width s.rest) else
      { s with index := s.index + 1, boundary := lastBlank (s.index + 1) s.rest } := by
  have hboundary : (if isBlank b then s.index else s.boundary) = lastBlank (s.index + 1) s.rest := by
    rw [lastBlank_succ hbyte, h.boundary]
  rw [look, if_neg hb, hboundary]
  by_cases hi : s.index = width
  · rw [if_pos hi, if_pos hi, cutPoint_eq, hi]
  · rw [if_neg hi, if_neg hi]

/-- No fewer than the steps that are still to come. -/
def left (width : Nat) (s : LineScan) : Nat := s.rest.length * (width + 1) - s.index

/-- What every step keeps: the lines so far with those of what is left are the lines of the text. -/
structure Advances (width : Nat) (s s' : LineScan) : Prop where
  valid : s'.Valid width
  lines : s'.lines ++ wrap width s'.rest = s.lines ++ wrap width s.rest
  left : s'.left width < s.left width

theorem width_lt_mul (h : i < t.length) : width < t.length * (width + 1) :=
  Nat.le_mul_of_pos_left _ (Nat.zero_lt_of_lt h)

/-- A byte that is gone makes up for all that have to be looked at again. -/
theorem left_drop_lt (h : s.Valid width) (hlength : s.index < s.rest.length) {n : Nat} (hn : 0 < n) :
    left width ⟨s.rest.drop n, 0, 0, lines⟩ < s.left width := by
  have hindex := h.index_le
  have hrest : s.rest.length - n ≤ s.rest.length - 1 := by omega
  have hmul := Nat.mul_le_mul_right (width + 1) hrest
  have hone : width < s.rest.length * (width + 1) := width_lt_mul hlength
  rw [Nat.sub_one_mul] at hmul
  rw [left, left, List.length_drop]
  show (s.rest.length - n) * (width + 1) - 0 < _
  omega

theorem advances_feed (h : s.Valid width) (hbyte : s.rest[s.index]? = some (code '\n')) :
    s.Advances width (s.look width (code '\n')) := by
  obtain ⟨hlength, hget⟩ := List.getElem?_eq_some_iff.mp hbyte
  have hsplit : s.rest = s.rest.take s.index ++ code '\n' :: s.rest.drop (s.index + 1) := by
    rw [← hget, ← List.drop_eq_getElem_cons hlength, List.take_append_drop]
  have htake : (s.rest.take s.index).length ≤ width := by
    rw [List.length_take]
    have hindex := h.index_le
    omega
  have hwrap := wrap_feed h.noFeed htake (s.rest.drop (s.index + 1))
  rw [← hsplit] at hwrap
  rw [look_feed hbyte]
  refine ⟨valid_begin width _ _, ?_, left_drop_lt h hlength (Nat.succ_pos _)⟩
  rw [hwrap, List.append_assoc]

theorem advances_of_ne (hwidth : 0 < width) (h : s.Valid width) (hbyte : s.rest[s.index]? = some b)
    (hb : b ≠ code '\n') : s.Advances width (s.look width b) := by
  obtain ⟨hlength, -⟩ := List.getElem?_eq_some_iff.mp hbyte
  have hfeed := notMem_take_succ h.noFeed hbyte hb
  rw [look_of_ne h hbyte hb]
  by_cases hi : s.index = width
  · have hcut := wrap_cut hwidth (hi ▸ hlength) (hi ▸ hfeed)
    rw [if_pos hi, cut]
    refine ⟨valid_begin width _ _, ?_, left_drop_lt h hlength (cutPoint_pos hwidth s.rest)⟩
    rw [hcut, List.append_assoc, List.singleton_append]
  · have hindex := h.index_le
    have hone : width < s.rest.length * (width + 1) := width_lt_mul hlength
    rw [if_neg hi]
    refine ⟨⟨?_, hlength, hfeed, rfl⟩, rfl, ?_⟩
    · show s.index + 1 ≤ width
      omega
    · show s.rest.length * (width + 1) - (s.index + 1) < s.rest.length * (width + 1) - s.index
      omega

theorem advances_of_step? (hwidth : 0 < width) (h : s.Valid width) (hs : s.step? width = some s') :
    s.Advances width s' := by
  obtain ⟨b, hbyte, rfl⟩ := Option.map_eq_some_iff.mp hs
  by_cases hb : b = code '\n'
  · obtain rfl := hb
    exact advances_feed h hbyte
  · exact advances_of_ne hwidth h hbyte hb

/-- At the end of the text what is left is the last line. -/
theorem wrap_of_step?_eq_none (h : s.Valid width) (hs : s.step? width = none) : wrap width s.rest = lineOf s.rest := by
  have hend : s.rest.length ≤ s.index := List.getElem?_eq_none_iff.mp (Option.map_eq_none_iff.mp hs)
  have hindex := h.index_le
  have hfeed := h.noFeed
  rw [List.take_of_length_le hend] at hfeed
  exact wrap_last hfeed (by omega)

/-- The scan ends wherever it stands: every step leaves fewer to come and changes nothing about the lines. -/
theorem ends_of_valid (hwidth : 0 < width) (h : s.Valid width) : Ends width s (s.lines ++ wrap width s.rest) := by
  induction hn : s.left width using Nat.strongRecOn generalizing s with
  | ind n ih =>
    obtain rfl := hn
    cases hs : s.step? width with
    | none =>
      rw [wrap_of_step?_eq_none h hs]
      exact .stop hs
    | some s' =>
      have hadvances := advances_of_step? hwidth h hs
      have hrest := ih _ hadvances.left hadvances.valid rfl
      rw [hadvances.lines] at hrest
      exact .next hs hrest

theorem ends_start_iff (hwidth : 0 < width) : Ends width (start t) lines ↔ wrap width t = lines := by
  have hends : Ends width (start t) (wrap width t) := ends_of_valid hwidth (valid_begin width t [])
  constructor
  · exact hends.unique
  · rintro rfl
    exact hends

end LineScan

/-- A text is broken into lines without a loss: the scan ends, with lines that hold something, no line feed and no more
than the width. Together they are the text without its line feeds, and no line goes across a line feed. -/
structure BreaksIntoLines (width : Nat) (t : Text) : Prop where
  ends_iff : ∀ lines, LineScan.Ends width (.start t) lines ↔ wrap width t = lines
  isLine : ∀ line ∈ wrap width t, IsLine width line
  flatten : (wrap width t).flatten = t.filter (· ≠ code '\n')
  pieces : wrap width t = ((t.splitOn (code '\n')).filter (· ≠ [])).flatMap (wrap width)

theorem breaksIntoLines (width : Nat) (hwidth : 0 < width) (t : Text) : BreaksIntoLines width t where
  ends_iff _ := LineScan.ends_start_iff hwidth
  isLine _ := isLine_of_mem_wrap hwidth
  flatten := flatten_wrap hwidth t
  pieces := by
    rw [← words_eq]
    exact wrap_eq_flatMap_words hwidth t

/-- Blanks at the start, in a row and at the width, an empty line, and a word that is too long. -/
theorem breaksIntoLines_mixed : 0 < 4 ∧ BreaksIntoLines 4 " ab  cd\n\nefghij k\n" :=
  ⟨by decide, breaksIntoLines 4 (by decide) _⟩

example : wrap 4 " ab  cd\n\nefghij k\n" = [" ab ", " cd", "efgh", "ij k"].map ofString := by decide +kernel

end CodeAtlas.Text
