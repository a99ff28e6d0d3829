import CodeAtlas.Lookup.Sorting

/-!
A sort that is quick but does not keep the order of elements with one key: the list is parted around medians of three
until the pieces are short, and what is left is put in order by insertion.
-/

namespace CodeAtlas.Sorting

variable {α : Type} (key : α → UInt32)

/-- Whether the key at one place is less than that at another. -/
def isLess (xs : Array α) (i j : Nat) : Bool :=
  match xs[i]?, xs[j]? with
  | some a, some b => key a < key b
  | _, _ => false

/-- The one of three places whose key is neither the least nor the greatest. -/
def median (xs : Array α) (a b c : Nat) : Nat :=
  if isLess key xs a b then
    if isLess key xs b c then b
    else if isLess key xs a c then c
    else a
  else if isLess key xs a c then a
  else if isLess key xs b c then c
  else b

/-- The first place from `i` on with a key that is not less than the pivot's. -/
def ascend (xs : Array α) (pivot : Nat) : (fuel i : Nat) → Nat
  | 0, i => i
  | fuel + 1, i => if isLess key xs i pivot then ascend xs pivot fuel (i + 1) else i

/-- The last place up to `i` with a key that is not greater than the pivot's. -/
def descend (xs : Array α) (pivot : Nat) : (fuel i : Nat) → Nat
  | 0, i => i
  | fuel + 1, i => if isLess key xs pivot i then descend xs pivot fuel (i - 1) else i

/-- Moves what is less than the pivot before what is greater, and tells where the latter begins. What is equal to the
pivot is exchanged as well. -/
def partition (pivot : Nat) : (fuel : Nat) → Array α → (lo hi : Nat) → Array α × Nat
  | 0, xs, lo, _ => (xs, lo)
  | fuel + 1, xs, lo, hi =>
    let i := ascend key xs pivot xs.size lo
    let j := descend key xs pivot xs.size (hi - 1)
    if i < j then partition pivot fuel (xs.swapIfInBounds i j) (i + 1) j else (xs, i)

/-- Pieces up to this length are not parted. -/
def shortPiece : Nat := 16

/-- Parts the elements from `lo` up to `hi`, at most `depth` times one inside the other. -/
def part : (depth : Nat) → (lo hi : Nat) → Array α → Array α
  | 0, _, _, xs => xs
  | depth + 1, lo, hi, xs =>
    if hi - lo ≤ shortPiece then xs
    else
      let pivot := median key xs (lo + 1) (lo + (hi - lo) / 2) (hi - 1)
      let (xs, cut) := partition key lo (hi - lo) (xs.swapIfInBounds lo pivot) (lo + 1) hi
      part depth lo cut (part depth cut hi xs)

variable {key}

theorem perm_swapIfInBounds (xs : Array α) (i j : Nat) : (xs.swapIfInBounds i j).Perm xs := by
  unfold Array.swapIfInBounds
  split
  next =>
    split
    next => exact Array.swap_perm _ _
    next => exact .rfl
  next => exact .rfl

theorem perm_partition (pivot fuel : Nat) (xs : Array α) (lo hi : Nat) :
    (partition key pivot fuel xs lo hi).1.Perm xs := by
  induction fuel generalizing xs lo hi with
  | zero => exact .rfl
  | succ fuel ih =>
    rw [partition]
    split
    next => exact (ih _ _ _).trans (perm_swapIfInBounds _ _ _)
    next => exact .rfl

theorem perm_part (depth lo hi : Nat) (xs : Array α) : (part key depth lo hi xs).Perm xs := by
  induction depth generalizing lo hi xs with
  | zero => exact .rfl
  | succ depth ih =>
    rw [part]
    split
    next => exact .rfl
    next => exact (ih _ _ _).trans ((ih _ _ _).trans ((perm_partition _ _ _ _ _).trans (perm_swapIfInBounds _ _ _)))

/-- What is left to insertion gets the order that every stable sort gives it. -/
@[reducible]
def byParts : Sorting where
  sort key xs := (part key (2 * xs.length.log2) 0 xs.length xs.toArray).toList.mergeSort fun a b => key a ≤ key b
  perm _ _ := (List.mergeSort_perm _ _).trans (perm_part _ _ _ _).toList
  ordered _ _ := pairwise_mergeSort_key _

scoped instance : Sorting := byParts

theorem sort_eq_of_part {xs ys : List α} (hpart : part key (2 * xs.length.log2) 0 xs.length xs.toArray = ys.toArray)
    (hle : ys.Pairwise fun a b => key a ≤ key b) : sort key xs = ys := by
  have hsort : sort key xs =
      (part key (2 * xs.length.log2) 0 xs.length xs.toArray).toList.mergeSort fun a b => key a ≤ key b := rfl
  rw [hsort, hpart]
  exact List.mergeSort_of_pairwise (hle.imp decide_eq_true)

end CodeAtlas.Sorting
