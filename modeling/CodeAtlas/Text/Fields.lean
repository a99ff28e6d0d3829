import CodeAtlas.Text

namespace CodeAtlas.Text

/-- The pieces between the delimiters. Empty pieces count, so there is one more than delimiters. -/
def fields (d : UInt8) : Text → List Text
  | [] => [[]]
  | b :: t =>
    if b = d then [] :: fields d t
    else
      match fields d t with
      | [] => [[b]]
      | f :: fs => (b :: f) :: fs

/-- The pieces between the delimiters that hold something. -/
def words (d : UInt8) (t : Text) : List Text := (fields d t).filter (· ≠ [])

theorem fields_ne_nil (d : UInt8) (t : Text) : fields d t ≠ [] := by
  cases t with
  | nil => simp [fields]
  | cons b t =>
    rw [fields]
    split
    · simp
    · split <;> simp

/-- Joining the pieces with the delimiter gives the text back. -/
theorem join_fields (d : UInt8) (t : Text) : join [d] (fields d t) = t := by
  induction t with
  | nil => rfl
  | cons b t ih =>
    rw [fields]
    have hne := fields_ne_nil d t
    cases hf : fields d t with
    | nil => exact absurd hf hne
    | cons f fs =>
      rw [hf] at ih
      by_cases h : b = d
      · simp [h, join, ih]
      · cases fs with
        | nil => simpa [h, join] using ih
        | cons g gs => simpa [h, join] using ih

end CodeAtlas.Text
