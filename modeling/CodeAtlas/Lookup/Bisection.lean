namespace CodeAtlas.Bisection

/-- Halves the `len` positions from `first` on until none is left. If all positions before some point are not `past`
and all others are, the answer is that point. -/
def search (past : Nat → Bool) (first len : Nat) : Nat :=
  if len = 0 then first
  else if past (first + len / 2) then search past first (len / 2)
  else search past (first + len / 2 + 1) (len - len / 2 - 1)
termination_by len
decreasing_by all_goals omega

/-- The first position that is `past`, where the positions that are not come first. -/
theorem search_eq {past : Nat → Bool} {first len point : Nat} (h1 : first ≤ point) (h2 : point ≤ first + len)
    (hlt : ∀ i, first ≤ i → i < point → past i = false) (hge : ∀ i, point ≤ i → i < first + len → past i = true) :
    search past first len = point := by
  fun_induction search past first len with
  | case1 first => omega
  | case2 first len hl hp ih =>
    have hpoint : point ≤ first + len / 2 := by
      rcases Nat.lt_or_ge (first + len / 2) point with h | h
      · simp [hlt _ (by omega) h] at hp
      · exact h
    exact ih h1 hpoint hlt fun i hi hj => hge i hi (by omega)
  | case3 first len hl hp ih =>
    have hpoint : first + len / 2 + 1 ≤ point := by
      rcases Nat.lt_or_ge (first + len / 2) point with h | h
      · omega
      · exact absurd (hge _ h (by omega)) hp
    exact ih hpoint (by omega) (fun i hi hj => hlt i (by omega) hj) fun i hi hj => hge i hi (by omega)

/-- The last element whose key is at most `k`, where the keys do not decrease. -/
def lastAtMost? (key : α → UInt32) (xs : Array α) (k : UInt32) : Option α :=
  match search (fun i => xs[i]?.any fun x => k < key x) 0 xs.size with
  | 0 => none
  | i + 1 => xs[i]?

end CodeAtlas.Bisection
