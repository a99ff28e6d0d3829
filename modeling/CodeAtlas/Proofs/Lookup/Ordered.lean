import CodeAtlas.Lookup.Bisection
import CodeAtlas.Lookup.Sorting
import CodeAtlas.Lookup.SymbolSource

namespace CodeAtlas

/-- Each key is greater than those before it. -/
def Increasing (key : α → UInt32) (xs : List α) : Prop := xs.Pairwise fun a b => key a < key b

instance (key : α → UInt32) (xs : List α) : Decidable (Increasing key xs) :=
  inferInstanceAs (Decidable (xs.Pairwise fun a b => key a < key b))

theorem Increasing.le {key : α → UInt32} {xs : List α} (h : Increasing key xs) :
    xs.Pairwise fun a b => key a ≤ key b := h.imp UInt32.le_of_lt

/-- Where no two keys are the same, elements in the order of their keys have greater and greater ones. -/
theorem increasing_of_nodup {key : α → UInt32} {xs : List α} (hle : xs.Pairwise fun a b => key a ≤ key b)
    (h : (xs.map key).Nodup) : Increasing key xs :=
  (hle.and (List.pairwise_map.mp h)).imp fun hboth => UInt32.lt_of_le_of_ne hboth.1 hboth.2

theorem increasing_of_map_eq {f : α → UInt32} {g : β → UInt32} {xs : List α} {ys : List β} (h : xs.map f = ys.map g)
    (hy : Increasing g ys) : Increasing f xs := by
  have hkeys : (ys.map g).Pairwise (· < ·) := List.pairwise_map.mpr hy
  rw [← h] at hkeys
  exact List.pairwise_map.mp hkeys

theorem Increasing.eq_of_key_eq {key : α → UInt32} {xs : List α} {x y : α} (h : Increasing key xs) (hx : x ∈ xs)
    (hy : y ∈ xs) (hkey : key x = key y) : x = y := by
  obtain ⟨i, hi, rfl⟩ := List.mem_iff_getElem.mp hx
  obtain ⟨j, hj, rfl⟩ := List.mem_iff_getElem.mp hy
  rcases Nat.lt_trichotomy i j with hij | rfl | hji
  · exact absurd hkey (UInt32.ne_of_lt (List.pairwise_iff_getElem.mp h i j hi hj hij))
  · rfl
  · exact absurd hkey.symm (UInt32.ne_of_lt (List.pairwise_iff_getElem.mp h j i hj hi hji))

/-- An element is found by its key. -/
theorem Increasing.find?_eq {key : α → UInt32} {xs : List α} {x : α} (h : Increasing key xs) (hx : x ∈ xs) :
    xs.find? (key · == key x) = some x := by
  cases hfind : xs.find? (key · == key x) with
  | none => exact absurd (beq_self_eq_true (key x)) (List.find?_eq_none.mp hfind x hx)
  | some y =>
    have hfound := List.find?_some hfind
    have hkey : key y = key x := eq_of_beq hfound
    rw [h.eq_of_key_eq (List.mem_of_find?_eq_some hfind) hx hkey]

theorem Increasing.lt_next {key : α → UInt32} {xs : List α} {x : α} {i : Nat} (h : Increasing key xs)
    (hx : xs[i]? = some x) {n : UInt32} (hn : xs[i + 1]?.map key = some n) : key x < n := by
  obtain ⟨y, hy, rfl⟩ := Option.map_eq_some_iff.mp hn
  obtain ⟨hi, rfl⟩ := List.getElem?_eq_some_iff.mp hx
  obtain ⟨hj, rfl⟩ := List.getElem?_eq_some_iff.mp hy
  exact List.pairwise_iff_getElem.mp h i (i + 1) hi hj (Nat.lt_succ_self i)

theorem Increasing.next_eq_none_iff {key : α → UInt32} {xs : List α} {x : α} {i : Nat} (h : Increasing key xs)
    (hx : xs[i]? = some x) : xs[i + 1]?.map key = none ↔ ∀ y ∈ xs, key y ≤ key x := by
  constructor
  · intro hnone y hy
    obtain ⟨hi, rfl⟩ := List.getElem?_eq_some_iff.mp hx
    obtain ⟨j, hj, rfl⟩ := List.mem_iff_getElem.mp hy
    rw [Option.map_eq_none_iff, List.getElem?_eq_none_iff] at hnone
    rcases Nat.eq_or_lt_of_le (Nat.le_of_lt_succ (Nat.lt_of_lt_of_le hj hnone)) with rfl | hlt
    · exact UInt32.le_refl _
    · exact UInt32.le_of_lt (List.pairwise_iff_getElem.mp h j i hj hi hlt)
  · intro hle
    cases hn : xs[i + 1]?.map key with
    | none => rfl
    | some n =>
      obtain ⟨y, hy, rfl⟩ := Option.map_eq_some_iff.mp hn
      exact absurd (h.lt_next hx hn) (UInt32.not_lt.mpr (hle y (List.mem_of_getElem? hy)))

section FirstPerKey

variable {key : α → UInt32}

theorem subset_dropRepeats {xs : List α} {x : α} (h : x ∈ dropRepeats key xs) : x ∈ xs := by
  induction xs generalizing x with
  | nil => exact h
  | cons a rest ih =>
    rw [dropRepeats] at h
    split at h
    next =>
      rw [List.mem_singleton] at h
      exact h ▸ List.mem_cons_self
    next b kept hkept =>
      have hrest : ∀ y ∈ b :: kept, y ∈ rest := fun y hy => ih (hkept ▸ hy)
      split at h
      next =>
        rcases List.mem_cons.mp h with rfl | h
        · exact List.mem_cons_self
        · exact List.mem_cons_of_mem _ (hrest x (List.mem_cons_of_mem _ h))
      next =>
        rcases List.mem_cons.mp h with rfl | h
        · exact List.mem_cons_self
        · exact List.mem_cons_of_mem _ (hrest x h)

theorem increasing_dropRepeats {xs : List α} (h : xs.Pairwise fun a b => key a ≤ key b) :
    Increasing key (dropRepeats key xs) := by
  induction xs with
  | nil => exact List.Pairwise.nil
  | cons a rest ih =>
    obtain ⟨ha, hrest⟩ := List.pairwise_cons.mp h
    have hkept := ih hrest
    rw [dropRepeats]
    split
    next => exact List.pairwise_singleton _ _
    next b kept hb =>
      rw [hb] at hkept
      obtain ⟨hlt, hinc⟩ := List.pairwise_cons.mp hkept
      have hle : key a ≤ key b := ha b (subset_dropRepeats (hb ▸ List.mem_cons_self))
      split
      next heq =>
        refine List.pairwise_cons.mpr ⟨fun x hx => ?_, hinc⟩
        rw [heq]
        exact hlt x hx
      next hne =>
        refine List.pairwise_cons.mpr ⟨fun x hx => ?_, hkept⟩
        have hab : key a < key b := UInt32.lt_of_le_of_ne hle hne
        rcases List.mem_cons.mp hx with rfl | hx
        · exact hab
        · exact UInt32.lt_trans hab (hlt x hx)

theorem increasing_firstPerKey (xs : List α) : Increasing key (firstPerKey key xs) :=
  increasing_dropRepeats (pairwise_mergeSort_key xs)

theorem find?_key_cons (a : α) (xs : List α) (k : UInt32) :
    (a :: xs).find? (key · == k) = if key a = k then some a else xs.find? (key · == k) := by
  rw [List.find?_cons]
  split
  next h => rw [if_pos (eq_of_beq h)]
  next h => rw [if_neg (ne_of_beq_false h)]

/-- The first element with a key is found. -/
theorem find?_key_eq_some {xs before after : List α} {x : α} (h : xs = before ++ x :: after)
    (hfirst : ∀ a ∈ before, key a ≠ key x) : xs.find? (key · == key x) = some x := by
  refine List.find?_eq_some_iff_append.mpr ⟨beq_self_eq_true _, before, after, h, fun a ha => ?_⟩
  rw [Bool.not_eq_true', beq_eq_false_iff_ne]
  exact hfirst a ha

theorem find?_key_eq_none {xs : List α} {k : UInt32} (h : ∀ x ∈ xs, key x ≠ k) : xs.find? (key · == k) = none := by
  rw [List.find?_eq_none]
  intro x hx
  rw [beq_iff_eq]
  exact h x hx

theorem find?_dropRepeats (xs : List α) (k : UInt32) :
    (dropRepeats key xs).find? (key · == k) = xs.find? (key · == k) := by
  induction xs with
  | nil => rfl
  | cons a rest ih =>
    rw [dropRepeats, find?_key_cons, ← ih]
    cases dropRepeats key rest with
    | nil => rw [find?_key_cons]
    | cons b kept =>
      dsimp only
      split
      next heq =>
        rw [find?_key_cons, find?_key_cons, ← heq]
        split <;> rfl
      next => rw [find?_key_cons]

/-- Sorting keeps the order of elements that are all related to each other. -/
theorem filter_mergeSort_of_related {le : α → α → Bool}
    (htrans : ∀ a b c, le a b = true → le b c = true → le a c = true) (htotal : ∀ a b, (le a b || le b a) = true)
    {p : α → Bool} (h : ∀ a b, p a = true → p b = true → le a b = true) (xs : List α) :
    (xs.mergeSort le).filter p = xs.filter p := by
  have hpair : (xs.filter p).Pairwise fun a b => le a b = true :=
    List.pairwise_of_forall_mem_list fun a ha b hb => h a b (List.mem_filter.mp ha).2 (List.mem_filter.mp hb).2
  have hsub := (List.sublist_mergeSort htrans htotal hpair List.filter_sublist).filter p
  rw [List.filter_eq_self.mpr fun a ha => (List.mem_filter.mp ha).2] at hsub
  refine (hsub.eq_of_length ?_).symm
  exact ((List.mergeSort_perm xs _).filter _).length_eq.symm

/-- Sorting keeps the order of the elements that have one key. -/
theorem filter_mergeSort (xs : List α) (k : UInt32) :
    (xs.mergeSort fun a b => key a ≤ key b).filter (key · == k) = xs.filter (key · == k) := by
  refine filter_mergeSort_of_related le_key_trans le_key_total (fun a b ha hb => ?_) xs
  exact decide_eq_true (UInt32.le_of_eq ((eq_of_beq ha).trans (eq_of_beq hb).symm))

/-- For each key the first of the elements that have it is kept. -/
theorem find?_firstPerKey (xs : List α) (k : UInt32) :
    (firstPerKey key xs).find? (key · == k) = xs.find? (key · == k) := by
  rw [firstPerKey, find?_dropRepeats, ← List.head?_filter, filter_mergeSort, List.head?_filter]

theorem firstPerKey_singleton (x : α) : firstPerKey key [x] = [x] := by
  rw [firstPerKey, List.mergeSort_singleton]
  rfl

end FirstPerKey

namespace Sorting

variable {α : Type} [Sorting] {key : α → UInt32} {xs ys : List α} {x : α}

theorem mem_sort : x ∈ sort key xs ↔ x ∈ xs := (perm key xs).mem_iff

/-- Where no two keys are the same, sorting has no choice. -/
theorem sort_eq_of_increasing (hperm : ys.Perm xs) (hinc : Increasing key ys) : sort key xs = ys := by
  refine List.Perm.eq_of_pairwise (fun a b ha hb hab hba => ?_) (ordered key xs) hinc.le
    ((perm key xs).trans hperm.symm)
  exact hinc.eq_of_key_eq (hperm.mem_iff.mpr (mem_sort.mp ha)) hb (UInt32.le_antisymm hab hba)

theorem sort_nil : sort key [] = [] := List.perm_nil.mp (perm key [])

theorem sort_singleton (x : α) : sort key [x] = [x] := List.perm_singleton.mp (perm key [x])

theorem increasing_sort (h : (xs.map key).Nodup) : Increasing key (sort key xs) :=
  increasing_of_nodup (ordered key xs) (((perm key xs).map key).nodup_iff.mpr h)

end Sorting

namespace Bisection

/-- Where a property, once it holds, keeps holding, the positions without it end at some point. -/
theorem exists_point {past : Nat → Bool} {len : Nat}
    (hmono : ∀ i j, i ≤ j → j < len → past i = true → past j = true) :
    ∃ point, point ≤ len ∧ (∀ i, i < point → past i = false) ∧ ∀ i, point ≤ i → i < len → past i = true := by
  induction len with
  | zero => exact ⟨0, by omega, by omega, by omega⟩
  | succ len ih =>
    obtain ⟨point, hle, hlt, hge⟩ := ih fun i j hij hj => hmono i j hij (by omega)
    by_cases hpast : past len = true
    · refine ⟨point, by omega, hlt, fun i hi hlen => ?_⟩
      rcases Nat.lt_or_ge i len with h | h
      · exact hge i hi h
      · exact (by omega : i = len) ▸ hpast
    · refine ⟨len + 1, by omega, fun i hi => Bool.eq_false_iff.mpr fun h => ?_, by omega⟩
      exact hpast (hmono i len (by omega) (by omega) h)

variable {key : α → UInt32} {xs : Array α} {k : UInt32} {x : α}

/-- The keys up to `k` come first, and the answer is the element before the first greater one. -/
theorem exists_lastAtMost?_point (hle : xs.toList.Pairwise fun a b => key a ≤ key b) (k : UInt32) :
    ∃ point, point ≤ xs.size ∧
    (lastAtMost? key xs k = match point with
      | 0 => none
      | i + 1 => xs[i]?) ∧
    (∀ i y, i < point → xs[i]? = some y → key y ≤ k) ∧ ∀ i y, point ≤ i → xs[i]? = some y → k < key y := by
  have hmono : ∀ i j, i ≤ j → j < xs.size → (xs[i]?.any fun x => k < key x) = true →
      (xs[j]?.any fun x => k < key x) = true := by
    intro i j hij hj hi
    rw [Array.getElem?_eq_getElem (by omega : i < xs.size), Option.any_some, decide_eq_true_eq] at hi
    rw [Array.getElem?_eq_getElem hj, Option.any_some, decide_eq_true_eq]
    rcases Nat.eq_or_lt_of_le hij with rfl | hlt
    · exact hi
    · have hkeys := List.pairwise_iff_getElem.mp hle i j (by rw [Array.length_toList]; omega)
        (by rwa [Array.length_toList]) hlt
      exact UInt32.lt_of_lt_of_le hi hkeys
  obtain ⟨point, hpoint, hlt, hge⟩ := exists_point hmono
  refine ⟨point, hpoint, ?_, fun i y hi hy => ?_, fun i y hi hy => ?_⟩
  · have hsearch : search (fun i => xs[i]?.any fun x => k < key x) 0 xs.size = point :=
      search_eq (Nat.zero_le _) (by omega) (fun i _ => hlt i) fun i hi h => hge i hi (by omega)
    rw [← hsearch]
    rfl
  · have hnot := hlt i hi
    rw [hy, Option.any_some, decide_eq_false_iff_not] at hnot
    exact UInt32.not_lt.mp hnot
  · have hpast := hge i hi (Array.getElem?_eq_some_iff.mp hy).1
    rwa [hy, Option.any_some, decide_eq_true_eq] at hpast

theorem lastAtMost?_eq_some (hle : xs.toList.Pairwise fun a b => key a ≤ key b) (h : lastAtMost? key xs k = some x) :
    ∃ i : Nat, xs[i]? = some x ∧ key x ≤ k ∧ ∀ j y, i < j → xs[j]? = some y → k < key y := by
  obtain ⟨point, -, hlast, hlt, hge⟩ := exists_lastAtMost?_point hle k
  rw [hlast] at h
  cases point with
  | zero => cases h
  | succ i => exact ⟨i, h, hlt i x (by omega) h, fun j y hj hy => hge j y hj hy⟩

theorem lastAtMost?_eq_none (hle : xs.toList.Pairwise fun a b => key a ≤ key b) (h : lastAtMost? key xs k = none) :
    ∀ y ∈ xs.toList, k < key y := by
  obtain ⟨point, hpoint, hlast, -, hge⟩ := exists_lastAtMost?_point hle k
  rw [hlast] at h
  cases point with
  | zero =>
    intro y hy
    obtain ⟨i, hi⟩ := List.mem_iff_getElem?.mp hy
    exact hge i y (Nat.zero_le i) (by rwa [Array.getElem?_toList] at hi)
  | succ i =>
    rw [Array.getElem?_eq_none_iff] at h
    omega

theorem not_between_of_lastAtMost? (hinc : Increasing key xs.toList) (h : lastAtMost? key xs k = some x) :
    ∀ y ∈ xs.toList, ¬(key x < key y ∧ key y ≤ k) := by
  obtain ⟨i, hx, -, hafter⟩ := lastAtMost?_eq_some hinc.le h
  rintro y hy ⟨hlt, hle⟩
  obtain ⟨j, hj⟩ := List.mem_iff_getElem?.mp hy
  rw [Array.getElem?_toList] at hj
  obtain ⟨hi, rfl⟩ := Array.getElem?_eq_some_iff.mp hx
  obtain ⟨hj', rfl⟩ := Array.getElem?_eq_some_iff.mp hj
  rcases Nat.lt_trichotomy i j with hij | rfl | hji
  · exact UInt32.not_lt.mpr hle (hafter j _ hij hj)
  · exact UInt32.lt_irrefl _ hlt
  · have hkeys := List.pairwise_iff_getElem.mp hinc j i (by simpa using hj') (by simpa using hi) hji
    exact UInt32.lt_asymm hlt (by simpa using hkeys)

/-- Bisection finds the element whose key is the greatest one up to `k`. -/
theorem lastAtMost?_eq_some_iff (hinc : Increasing key xs.toList) :
    lastAtMost? key xs k = some x ↔ x ∈ xs.toList ∧ key x ≤ k ∧ ∀ y ∈ xs.toList, key y ≤ k → key y ≤ key x := by
  constructor
  · intro h
    obtain ⟨i, hx, hle, -⟩ := lastAtMost?_eq_some hinc.le h
    refine ⟨List.mem_of_getElem? (by rwa [Array.getElem?_toList]), hle, fun y hy hyk => ?_⟩
    exact UInt32.not_lt.mp fun hlt => not_between_of_lastAtMost? hinc h y hy ⟨hlt, hyk⟩
  · rintro ⟨hx, hle, hgreatest⟩
    cases hlast : lastAtMost? key xs k with
    | none => exact absurd (lastAtMost?_eq_none hinc.le hlast x hx) (UInt32.not_lt.mpr hle)
    | some y =>
      obtain ⟨i, hy, hyk, -⟩ := lastAtMost?_eq_some hinc.le hlast
      have hmem : y ∈ xs.toList := List.mem_of_getElem? (by rwa [Array.getElem?_toList])
      have hkey : key y = key x := by
        refine UInt32.le_antisymm (hgreatest y hmem hyk) (UInt32.not_lt.mp fun hlt => ?_)
        exact not_between_of_lastAtMost? hinc hlast x hx ⟨hlt, hle⟩
      rw [hinc.eq_of_key_eq hmem hx hkey]

end Bisection

end CodeAtlas
