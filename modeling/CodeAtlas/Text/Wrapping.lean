import CodeAtlas.Text

namespace CodeAtlas.Text

/-- Where a text that is longer than the width is cut: before the last blank that is not past the width, unless that
leaves nothing in front of it. -/
def cutPoint (width : Nat) (t : Text) : Nat :=
  let n := width - ((t.take (width + 1)).reverse.takeWhile (!isBlank ·)).length
  if n = 0 then width else n

theorem cutPoint_le (width : Nat) (t : Text) : cutPoint width t ≤ width := by
  simp only [cutPoint]
  split
  · exact Nat.le_refl width
  · exact Nat.sub_le ..

theorem cutPoint_pos {width : Nat} (h : 0 < width) (t : Text) : 0 < cutPoint width t := by
  simp only [cutPoint]
  split
  · exact h
  · omega

/-- A line that holds something, or none. -/
def lineOf (t : Text) : List Text := if t = [] then [] else [t]

/-- Lines of a width that is at least one. A line feed ends a line and is dropped; a blank at which a line is cut
starts the next one. -/
def wrap (width : Nat) (t : Text) : List Text :=
  let line := before (code '\n') (t.take (width + 1))
  if line.length ≤ width then
    match _h : t.drop line.length with
    | [] => lineOf line
    | _ :: rest => lineOf line ++ wrap width rest
  else
    let n := cutPoint (max width 1) t
    t.take n :: wrap width (t.drop n)
termination_by t.length
decreasing_by
  · have hl := congrArg List.length _h
    simp only [List.length_drop, List.length_cons] at hl
    omega
  · have hn : 0 < cutPoint (max width 1) t := cutPoint_pos (by omega) t
    have hl : line.length ≤ t.length := ((List.takeWhile_sublist _).trans (List.take_sublist _ t)).length_le
    simp only [List.length_drop]
    omega

end CodeAtlas.Text
