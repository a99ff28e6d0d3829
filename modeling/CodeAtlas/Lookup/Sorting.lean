namespace CodeAtlas

/-- Puts lists in the order of a key. Nothing is lost and the keys do not decrease; which of several elements with one
key comes first is left open. -/
class Sorting where
  sort : {α : Type} → (α → UInt32) → List α → List α
  perm : ∀ {α : Type} (key : α → UInt32) (xs : List α), (sort key xs).Perm xs
  ordered : ∀ {α : Type} (key : α → UInt32) (xs : List α), (sort key xs).Pairwise fun a b => key a ≤ key b

section MergeSort

variable {key : α → UInt32}

theorem le_key_trans (a b c : α) (hab : decide (key a ≤ key b) = true) (hbc : decide (key b ≤ key c) = true) :
    decide (key a ≤ key c) = true :=
  decide_eq_true (UInt32.le_trans (of_decide_eq_true hab) (of_decide_eq_true hbc))

theorem le_key_total (a b : α) : (decide (key a ≤ key b) || decide (key b ≤ key a)) = true := by
  rcases UInt32.le_total (key a) (key b) with h | h
  · simp [h]
  · simp [h]

theorem pairwise_mergeSort_key (xs : List α) :
    (xs.mergeSort fun a b => key a ≤ key b).Pairwise fun a b => key a ≤ key b :=
  (List.pairwise_mergeSort le_key_trans le_key_total xs).imp fun h => of_decide_eq_true h

end MergeSort

end CodeAtlas
