import CodeAtlas.Proofs.Lookup.Ordered

namespace CodeAtlas.Bisection

variable {key : α → UInt32} {k : UInt32} {x : α}

/-- Bisection finds the last element whose key is at most `k`. -/
theorem lastAtMost?_eq_getLast? {xs : Array α} (hle : xs.toList.Pairwise fun a b => key a ≤ key b) (k : UInt32) :
    lastAtMost? key xs k = (xs.toList.filter (key · ≤ k)).getLast? := by
  obtain ⟨point, hpoint, hlast, hlt, hge⟩ := exists_lastAtMost?_point hle k
  have htake : ∀ y ∈ xs.toList.take point, decide (key y ≤ k) = true := by
    intro y hy
    obtain ⟨i, hi⟩ := List.mem_iff_getElem?.mp hy
    rw [List.getElem?_take, Array.getElem?_toList] at hi
    split at hi
    next hbefore => exact decide_eq_true (hlt i y hbefore hi)
    next => cases hi
  have hdrop : ∀ y ∈ xs.toList.drop point, ¬decide (key y ≤ k) = true := by
    intro y hy
    obtain ⟨i, hi⟩ := List.mem_iff_getElem?.mp hy
    rw [List.getElem?_drop, Array.getElem?_toList] at hi
    rw [decide_eq_true_eq, UInt32.not_le]
    exact hge (point + i) y (Nat.le_add_right _ _) hi
  have hfilter : xs.toList.filter (key · ≤ k) = xs.toList.take point := by
    rw [← List.filter_eq_self.mpr htake, ← List.append_nil ((xs.toList.take point).filter _),
      ← List.filter_eq_nil_iff.mpr hdrop, ← List.filter_append, List.take_append_drop]
  rw [hlast, hfilter]
  cases point with
  | zero => rfl
  | succ i =>
    have hi : i < xs.size := hpoint
    simp [List.getLast?_take, hi]

/-- An element with the greatest key up to `k`, and in the list the last one with this key. -/
structure IsLastGreatest (key : α → UInt32) (xs : List α) (k : UInt32) (x : α) : Prop where
  mem : x ∈ xs
  le : key x ≤ k
  le_key : ∀ y ∈ xs, key y ≤ k → key y ≤ key x
  last : (xs.filter (key · == key x)).getLast? = some x

variable {xs : Array α}

theorem isLastGreatest_of_lastAtMost? (hle : xs.toList.Pairwise fun a b => key a ≤ key b)
    (h : lastAtMost? key xs k = some x) : IsLastGreatest key xs.toList k x := by
  rw [lastAtMost?_eq_getLast? hle] at h
  obtain ⟨init, hinit⟩ := List.getLast?_eq_some_iff.mp h
  obtain ⟨hx, hxk⟩ := List.mem_filter.mp (List.mem_of_getLast? h)
  have hxk' : key x ≤ k := of_decide_eq_true hxk
  refine ⟨hx, hxk', fun y hy hyk => ?_, ?_⟩
  · have hpair := hle.filter (key · ≤ k)
    have hy' : y ∈ xs.toList.filter (key · ≤ k) := List.mem_filter.mpr ⟨hy, decide_eq_true hyk⟩
    rw [hinit] at hy' hpair
    rcases List.mem_append.mp hy' with hy' | hy'
    · exact (List.pairwise_append.mp hpair).2.2 y hy' x List.mem_cons_self
    · exact UInt32.le_of_eq (congrArg key (List.mem_singleton.mp hy'))
  · -- All elements with the key of the answer are among those up to `k`.
    have hsame : xs.toList.filter (key · == key x) = (xs.toList.filter (key · ≤ k)).filter (key · == key x) := by
      rw [List.filter_filter]
      refine List.filter_congr fun y _ => ?_
      cases hkey : key y == key x with
      | false => rfl
      | true => rw [eq_of_beq hkey, Bool.true_and, decide_eq_true hxk']
    have hself : [x].filter (key · == key x) = [x] :=
      List.filter_eq_self.mpr (List.forall_mem_singleton.mpr (beq_self_eq_true _))
    rw [hsame, hinit, List.filter_append, hself, List.getLast?_concat]

/-- Among the elements with the greatest key up to `k`, bisection finds the last one. -/
theorem lastAtMost?_eq_some_iff_isLastGreatest (hle : xs.toList.Pairwise fun a b => key a ≤ key b) :
    lastAtMost? key xs k = some x ↔ IsLastGreatest key xs.toList k x := by
  refine ⟨isLastGreatest_of_lastAtMost? hle, fun hx => ?_⟩
  cases hlast : lastAtMost? key xs k with
  | none => exact absurd hx.le (UInt32.not_le.mpr (lastAtMost?_eq_none hle hlast x hx.mem))
  | some z =>
    have hz := isLastGreatest_of_lastAtMost? hle hlast
    have hkey : key z = key x := UInt32.le_antisymm (hx.le_key z hz.mem hz.le) (hz.le_key x hx.mem hx.le)
    have hsame := hz.last
    rw [hkey] at hsame
    exact hsame.symm.trans hx.last

/-- Bisection looks at nothing but the keys. -/
theorem lastAtMost?_map {β : Type} (key : β → UInt32) (f : α → β) (xs : Array α) (k : UInt32) :
    lastAtMost? key (xs.map f) k = (lastAtMost? (fun x => key (f x)) xs k).map f := by
  have hpast : (fun i : Nat => (xs.map f)[i]?.any fun x => k < key x) = fun i => xs[i]?.any fun x => k < key (f x) := by
    funext i
    rw [Array.getElem?_map, Option.any_map]
  rw [lastAtMost?, lastAtMost?, hpast, Array.size_map]
  split
  next => rfl
  next => rw [Array.getElem?_map]

end CodeAtlas.Bisection
