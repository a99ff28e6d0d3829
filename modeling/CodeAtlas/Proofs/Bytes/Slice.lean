import CodeAtlas.Bytes

namespace CodeAtlas.Bytes

theorem slice?_eq_some_iff {data part : Bytes} {start size : Nat} :
    data.slice? start size = some part ↔ start + size ≤ data.size ∧ data.extract start (start + size) = part := by
  unfold slice?
  split
  next hb => simp only [Option.some.injEq, hb, true_and]
  next hb => simp only [reduceCtorEq, hb, false_and]

theorem slice?_eq_none_iff {data : Bytes} {start size : Nat} :
    data.slice? start size = none ↔ data.size < start + size := by
  unfold slice?
  split
  next hb => simp only [reduceCtorEq, false_iff, Nat.not_lt, hb]
  next hb => simp only [true_iff]; omega

theorem getElem?_of_slice? {data part : Bytes} {start size k : Nat} (h : data.slice? start size = some part)
    (hk : k < size) : part[k]? = data[start + k]? := by
  obtain ⟨hb, rfl⟩ := slice?_eq_some_iff.mp h
  rw [Array.getElem?_extract]
  have hlt : k < min (start + size) data.size - start := by omega
  rw [if_pos hlt]

theorem slice?_eq_some_of_getElem? {data part : Bytes} {start : Nat} (hb : start + part.size ≤ data.size)
    (h : ∀ k, k < part.size → part[k]? = data[start + k]?) : data.slice? start part.size = some part := by
  refine slice?_eq_some_iff.mpr ⟨hb, Array.ext_getElem? fun k => ?_⟩
  rcases Nat.lt_or_ge k part.size with hk | hk
  · rw [h k hk, Array.getElem?_extract, if_pos (by omega)]
  · rw [Array.getElem?_eq_none hk, Array.getElem?_eq_none (by simp only [Array.size_extract]; omega)]

/-- A slice of a slice is a slice of the whole. -/
theorem slice?_of_slice? {data part piece : Bytes} {start size offset length : Nat}
    (h : data.slice? start size = some part) (hp : part.slice? offset length = some piece) :
    data.slice? (start + offset) length = some piece := by
  have hs := size_of_slice? h
  obtain ⟨hb, -⟩ := slice?_eq_some_iff.mp h
  obtain ⟨hpb, -⟩ := slice?_eq_some_iff.mp hp
  obtain rfl := size_of_slice? hp
  refine slice?_eq_some_of_getElem? (by omega) fun k hk => ?_
  rw [getElem?_of_slice? hp hk, getElem?_of_slice? h (by omega), Nat.add_assoc]

theorem align4_add {pos : Nat} (h : pos % 4 = 0) (n : Nat) : align4 (pos + n) = pos + align4 n := by
  simp only [align4]
  omega

theorem align4_mod (n : Nat) : align4 n % 4 = 0 := Nat.mul_mod_left _ 4

theorem slice?_toArray_append (a b c : List UInt8) :
    Bytes.slice? (a ++ b ++ c).toArray a.length b.length = some b.toArray := by
  refine slice?_eq_some_iff.mpr ⟨by simp, ?_⟩
  simp [List.extract_toArray]

end CodeAtlas.Bytes
