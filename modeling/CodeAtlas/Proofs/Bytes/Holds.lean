import CodeAtlas.Proofs.Bytes.Encoding

namespace CodeAtlas.Bytes

/-- The content has these bytes at a position. -/
def Holds (data : Bytes) (pos : Nat) (part : List UInt8) : Prop :=
  ∃ before after, before.length = pos ∧ data.toList = before ++ part ++ after

theorem holds_toArray (part : List UInt8) : Holds part.toArray 0 part := ⟨[], [], rfl, by simp⟩

theorem holds_of_slice? {data part : Bytes} {start size : Nat} (h : data.slice? start size = some part) :
    data.Holds start part.toList := by
  obtain ⟨hb, rfl⟩ := slice?_eq_some_iff.mp h
  refine ⟨data.toList.take start, data.toList.drop (start + size), ?_, ?_⟩
  · rw [List.length_take, Array.length_toList]
    omega
  · rw [Array.toList_extract, List.extract_eq_take_drop, Nat.add_sub_cancel_left, List.append_assoc,
      ← List.drop_drop, List.take_append_drop, List.take_append_drop]

/-- What a value is read from are its bytes. -/
theorem holds_of_valueAt? {data : Bytes} {pos width n : Nat} (h : data.valueAt? pos width = some n) :
    n < 256 ^ width ∧ data.Holds pos (leBytes width n) := by
  obtain ⟨part, hpart, rfl⟩ := Option.map_eq_some_iff.mp h
  have hlength : part.toList.length = width := size_of_slice? hpart
  have hlt := leValue_lt part.toList
  have hbytes := leBytes_leValue part.toList
  rw [hlength] at hlt hbytes
  exact ⟨hlt, hbytes.symm ▸ holds_of_slice? hpart⟩

theorem holds_of_u16At? {data : Bytes} {pos : Nat} {n : UInt16} (h : data.u16At? pos = some n) :
    data.Holds pos (leBytes 2 n.toNat) := by
  obtain ⟨m, hm, rfl⟩ := Option.map_eq_some_iff.mp h
  obtain ⟨hlt, hholds⟩ := holds_of_valueAt? hm
  rwa [UInt16.toNat_ofNat_of_lt' hlt]

theorem holds_of_u32At? {data : Bytes} {pos : Nat} {n : UInt32} (h : data.u32At? pos = some n) :
    data.Holds pos (leBytes 4 n.toNat) := by
  obtain ⟨m, hm, rfl⟩ := Option.map_eq_some_iff.mp h
  obtain ⟨hlt, hholds⟩ := holds_of_valueAt? hm
  rwa [UInt32.toNat_ofNat_of_lt' hlt]

theorem toList_drop (data : Bytes) (start : Nat) : (data.drop start).toList = data.toList.drop start := by
  have hlength : (data.toList.drop start).length = data.size - start := by
    rw [List.length_drop, Array.length_toList]
  rw [drop, Array.toList_extract, List.extract_eq_take_drop, List.take_of_length_le (Nat.le_of_eq hlength)]

namespace Holds

variable {data : Bytes} {pos : Nat} {a b : List UInt8}

theorem left (h : data.Holds pos (a ++ b)) : data.Holds pos a := by
  obtain ⟨before, after, hpos, hdata⟩ := h
  exact ⟨before, b ++ after, hpos, by simpa only [List.append_assoc] using hdata⟩

theorem right (h : data.Holds pos (a ++ b)) : data.Holds (pos + a.length) b := by
  obtain ⟨before, after, hpos, hdata⟩ := h
  exact ⟨before ++ a, after, by rw [List.length_append, hpos], by simpa only [List.append_assoc] using hdata⟩

theorem append (h : data.Holds pos a) (h' : data.Holds (pos + a.length) b) : data.Holds pos (a ++ b) := by
  obtain ⟨before, after, rfl, hdata⟩ := h
  obtain ⟨before', after', hpos', hdata'⟩ := h'
  have hbefore : before' = before ++ a := by
    have hlength : (before ++ a).length = before'.length := by rw [List.length_append, hpos']
    rw [hdata, List.append_assoc before'] at hdata'
    exact (List.append_inj_left hdata' hlength).symm
  exact ⟨before, after', rfl, by rw [hdata', hbefore, List.append_assoc before]⟩

theorem append_at {next : Nat} (h : data.Holds pos a) (h' : data.Holds next b) (hnext : next = pos + a.length) :
    data.Holds pos (a ++ b) := h.append (hnext ▸ h')

theorem le_size (h : data.Holds pos a) : pos + a.length ≤ data.size := by
  obtain ⟨before, after, hpos, hdata⟩ := h
  rw [← Array.length_toList, hdata, List.length_append, List.length_append, hpos]
  omega

theorem slice? (h : data.Holds pos a) : data.slice? pos a.length = some a.toArray := by
  obtain ⟨before, after, hpos, hdata⟩ := h
  have htoArray : data = (before ++ a ++ after).toArray := by rw [← hdata, Array.toArray_toList]
  rw [htoArray, ← hpos]
  exact slice?_toArray_append before a after

theorem eq_of_length (ha : data.Holds pos a) (hb : data.Holds pos b) (h : a.length = b.length) : a = b := by
  have hslice := ha.slice?
  rw [h, hb.slice?, Option.some.injEq] at hslice
  exact (congrArg Array.toList hslice).symm

theorem valueAt? {width n : Nat} (h : data.Holds pos (leBytes width n)) (hn : n < 256 ^ width) :
    data.valueAt? pos width = some n := by
  have hslice := h.slice?
  rw [length_leBytes] at hslice
  exact valueAt?_of_slice? hn hslice

theorem u16At? {n : UInt16} (h : data.Holds pos (leBytes 2 n.toNat)) : data.u16At? pos = some n := by
  rw [Bytes.u16At?, h.valueAt? n.toNat_lt, Option.map_some, UInt16.ofNat_toNat]

theorem u32At? {n : UInt32} (h : data.Holds pos (leBytes 4 n.toNat)) : data.u32At? pos = some n := by
  rw [Bytes.u32At?, h.valueAt? n.toNat_lt, Option.map_some, UInt32.ofNat_toNat]

theorem u32At?_ofNat {n : Nat} (h : data.Holds pos (leBytes 4 n)) (hn : n < 2 ^ 32) :
    data.u32At? pos = some (.ofNat n) := by
  rw [Bytes.u32At?, h.valueAt? (by omega), Option.map_some]

theorem toList_drop (h : data.Holds pos a) : ∃ after, (data.drop pos).toList = a ++ after := by
  obtain ⟨before, after, rfl, hdata⟩ := h
  exact ⟨after, by rw [Bytes.toList_drop, hdata, List.append_assoc, List.drop_left]⟩

/-- A text is read up to the NUL that ends it. -/
theorem cstringAt? {text : Text} (h : data.Holds pos (text ++ [0])) (htext : 0 ∉ text) :
    data.cstringAt? pos = some text := by
  have hsize := h.le_size
  obtain ⟨before, after, hpos, hdata⟩ := h
  have hnonzero : ∀ b ∈ text, (b != 0) = true := by
    intro b hb
    rw [bne_iff_ne]
    rintro rfl
    exact htext hb
  have huntil : data.untilNul pos = text := by
    rw [untilNul_eq_takeWhile, hdata, ← hpos, List.append_assoc, List.drop_left, List.append_assoc,
      List.takeWhile_append_of_pos hnonzero]
    simp
  rw [List.length_append, List.length_singleton] at hsize
  rw [Bytes.cstringAt?, huntil]
  exact if_pos (by omega)

end Holds

theorem holds_of_drop_eq {data : Bytes} {pos : Nat} {part after : List UInt8} (h : data.toList.drop pos = part ++ after)
    (hpos : pos ≤ data.size) : data.Holds pos part := by
  refine ⟨data.toList.take pos, after, ?_, ?_⟩
  · rw [List.length_take, Array.length_toList, Nat.min_eq_left hpos]
  · rw [List.append_assoc, ← h, List.take_append_drop]

theorem holds_iff_behind {data : Bytes} {pos : Nat} {part : List UInt8} :
    data.Holds pos part ↔ ∃ lead, lead.length = pos ∧ data.Holds 0 (lead ++ part) := by
  constructor
  · rintro ⟨lead, after, hlead, hdata⟩
    exact ⟨lead, hlead, [], after, rfl, hdata⟩
  · rintro ⟨lead, rfl, h⟩
    have hright := h.right
    rwa [Nat.zero_add] at hright

/-- A text stands where its bytes and then a NUL do. -/
theorem cstringAt?_eq_some_iff {data : Bytes} {pos : Nat} {text : Text} :
    data.cstringAt? pos = some text ↔ data.Holds pos (text ++ [0]) ∧ 0 ∉ text := by
  refine ⟨fun h => ?_, fun h => h.1.cstringAt? h.2⟩
  obtain ⟨hend, htext⟩ := Option.ite_none_right_eq_some.mp h
  obtain rfl := Option.some.inj htext
  rw [untilNul_eq_takeWhile] at hend ⊢
  have hsplit : (data.toList.drop pos).takeWhile (· != 0) ++ (data.toList.drop pos).dropWhile (· != 0) =
      data.toList.drop pos := List.takeWhile_append_dropWhile
  have hlength := congrArg List.length hsplit
  have hsize : data.toList.length = data.size := Array.length_toList
  rw [List.length_append, List.length_drop, hsize] at hlength
  refine ⟨?_, fun hmem => ?_⟩
  · cases hrest : (data.toList.drop pos).dropWhile (· != 0) with
    | nil =>
      rw [hrest, List.length_nil] at hlength
      omega
    | cons b rest =>
      have hb := List.head?_dropWhile_not (· != 0) (data.toList.drop pos)
      rw [hrest] at hb
      obtain rfl : b = 0 := by simpa using hb
      have hdrop : data.toList.drop pos = (data.toList.drop pos).takeWhile (· != 0) ++ [0] ++ rest := by
        rw [List.append_assoc, List.singleton_append, ← hrest, hsplit]
      exact holds_of_drop_eq hdrop (by omega)
  · have hne := List.all_eq_true.mp List.all_takeWhile 0 hmem
    exact absurd hne (by decide)

theorem cstringAt?_eq_none_iff {data : Bytes} {pos : Nat} : data.cstringAt? pos = none ↔ 0 ∉ data.toList.drop pos := by
  rw [Option.eq_none_iff_forall_ne_some]
  constructor
  · intro h hmem
    obtain ⟨text, rest, hsplit, htext⟩ := List.eq_append_cons_of_mem hmem
    have hpos : pos ≤ data.size := by
      have hlength := List.length_pos_of_mem hmem
      rw [List.length_drop, Array.length_toList] at hlength
      omega
    have hdrop : data.toList.drop pos = text ++ [0] ++ rest := by
      rw [hsplit, List.append_assoc, List.singleton_append]
    exact h text (cstringAt?_eq_some_iff.mpr ⟨holds_of_drop_eq hdrop hpos, htext⟩)
  · intro h text htext
    obtain ⟨before, after, rfl, hdata⟩ := (cstringAt?_eq_some_iff.mp htext).1
    refine h ?_
    rw [hdata, List.append_assoc, List.drop_left]
    simp

theorem exists_holds {data : Bytes} {pos n : Nat} (h : pos + n ≤ data.size) :
    ∃ v : Vector UInt8 n, data.Holds pos v.toList := by
  have hslice : data.slice? pos n = some (data.extract pos (pos + n)) := slice?_eq_some_iff.mpr ⟨h, rfl⟩
  exact ⟨⟨_, size_of_slice? hslice⟩, holds_of_slice? hslice⟩

theorem guidAt?_of_holds {data : Bytes} {pos : Nat} {guid : Vector UInt8 16} (h : data.Holds pos guid.toList) :
    data.guidAt? pos = some guid := by
  have hslice := h.slice?
  rw [Vector.length_toList] at hslice
  rw [guidAt?, hslice, Option.map_some]
  congr 1
  ext i hi
  simp

theorem holds_drop_iff {data : Bytes} {pos : Nat} {part : List UInt8} (h : part ≠ []) :
    (data.drop pos).Holds 0 part ↔ data.Holds pos part := by
  constructor
  · rintro ⟨before, after, hbefore, hdata⟩
    rw [List.length_eq_zero_iff.mp hbefore, List.nil_append, toList_drop] at hdata
    have hlength := congrArg List.length hdata
    have hpos := List.length_pos_iff.mpr h
    rw [List.length_drop, Array.length_toList, List.length_append] at hlength
    refine ⟨data.toList.take pos, after, ?_, ?_⟩
    · rw [List.length_take, Array.length_toList]
      omega
    · rw [List.append_assoc, ← hdata, List.take_append_drop]
  · intro hholds
    obtain ⟨after, hafter⟩ := hholds.toList_drop
    exact ⟨[], after, rfl, hafter⟩

end CodeAtlas.Bytes
