import CodeAtlas.Database.Record
import CodeAtlas.Proofs.Bytes.Holds

namespace CodeAtlas.Database.Record

/-- The length of what follows, the kind and the data. -/
def bytes (r : Record) : List UInt8 := leBytes 2 (2 + r.data.size) ++ (leBytes 2 r.kind.toNat ++ r.data.toList)

/-- The length can be stored. -/
def Fits (r : Record) : Prop := 2 + r.data.size < 65536

instance decidableFits (r : Record) : Decidable r.Fits := inferInstanceAs (Decidable (2 + r.data.size < 65536))

theorem length_bytes (r : Record) : r.bytes.length = r.size := by
  simp only [bytes, size, headSize, List.length_append, length_leBytes, Array.length_toList]
  omega

variable {data : Bytes} {pos : Nat}

theorem readAt?_of_holds {r : Record} (h : data.Holds pos r.bytes) (hr : r.Fits) : readAt? data pos = some r := by
  have hnat : (UInt16.ofNat (2 + r.data.size)).toNat = 2 + r.data.size := UInt16.toNat_ofNat_of_lt' hr
  have hlength : data.u16At? pos = some (.ofNat (2 + r.data.size)) := by
    have hhead : data.Holds pos (leBytes 2 (2 + r.data.size)) := h.left
    rw [← hnat] at hhead
    exact hhead.u16At?
  have hkind : data.u16At? (pos + 2) = some r.kind := h.right.left.u16At?
  have hbody : data.slice? (pos + headSize) r.data.size = some r.data := by
    have hslice := h.right.right.slice?
    rw [length_leBytes, length_leBytes, Array.length_toList, Array.toArray_toList, Nat.add_assoc] at hslice
    exact hslice
  have hlong : ¬UInt16.ofNat (2 + r.data.size) < 2 := by
    rw [UInt16.lt_iff_toNat_lt, hnat]
    exact Nat.not_lt.mpr (Nat.le_add_right _ _)
  simp only [readAt?, hlength, Option.bind_eq_bind, Option.bind_some, if_neg hlong, hkind, hnat,
    Nat.add_sub_cancel_left, hbody]

theorem holds_of_readAt? {r : Record} (h : readAt? data pos = some r) : r.Fits ∧ data.Holds pos r.bytes := by
  obtain ⟨length, hlength, h⟩ := Option.bind_eq_some_iff.mp h
  obtain ⟨hlong, h⟩ := Option.ite_none_left_eq_some.mp h
  obtain ⟨kind, hkind, h⟩ := Option.bind_eq_some_iff.mp h
  obtain ⟨body, hbody, h⟩ := Option.bind_eq_some_iff.mp h
  cases h
  have hsize : body.size = length.toNat - 2 := Bytes.size_of_slice? hbody
  have hlt := length.toNat_lt
  have hnat : 2 + body.size = length.toNat := by
    rw [UInt16.lt_iff_toNat_lt] at hlong
    simp only [UInt16.reduceToNat] at hlong
    omega
  have hrest := (Bytes.holds_of_u16At? hkind).append (Bytes.holds_of_slice? hbody)
  have hall := (Bytes.holds_of_u16At? hlength).append hrest
  refine ⟨?_, ?_⟩
  · rw [Fits, hnat]
    exact hlt
  · rwa [← hnat] at hall

theorem readAt?_eq_some_iff {r : Record} : readAt? data pos = some r ↔ r.Fits ∧ data.Holds pos r.bytes :=
  ⟨holds_of_readAt?, fun h => readAt?_of_holds h.2 h.1⟩

/-- Where no whole record follows, reading stops, however many bytes there are. -/
theorem fst_list (data : Bytes) (pos : Nat) : (list data pos).1 =
    match readAt? data pos with
    | none => []
    | some r => r :: (list data (pos + r.size)).1 := by
  rw [list]
  split
  next hshort =>
    cases hread : readAt? data pos with
    | none => rfl
    | some r =>
      have hsize := (holds_of_readAt? hread).2.le_size
      rw [length_bytes, size] at hsize
      omega
  next =>
    cases readAt? data pos with
    | none => rfl
    | some r => rfl

/-- The records from a position on, up to where no whole one follows. -/
structure Fill (data : Bytes) (pos : Nat) (rs : List Record) : Prop where
  stand : data.Holds pos (rs.flatMap bytes)
  fits : ∀ r ∈ rs, r.Fits
  ends : ∀ r : Record, r.Fits → ¬data.Holds (pos + (rs.flatMap bytes).length) r.bytes

theorem fill_nil_iff (hpos : pos ≤ data.size) : Fill data pos [] ↔ readAt? data pos = none := by
  have hstand : data.Holds pos [] := Bytes.holds_of_drop_eq rfl hpos
  rw [Option.eq_none_iff_forall_ne_some]
  constructor
  · intro h r hr
    exact h.ends r (holds_of_readAt? hr).1 (holds_of_readAt? hr).2
  · intro h
    exact ⟨hstand, List.forall_mem_nil _, fun r hr hholds => h r (readAt?_of_holds hholds hr)⟩

theorem fill_cons_iff {r : Record} {rs : List Record} :
    Fill data pos (r :: rs) ↔ readAt? data pos = some r ∧ Fill data (pos + r.size) rs := by
  have hlength : (r :: rs).flatMap bytes = r.bytes ++ rs.flatMap bytes := List.flatMap_cons
  have hnext : pos + (r.bytes ++ rs.flatMap bytes).length = pos + r.size + (rs.flatMap bytes).length := by
    rw [List.length_append, length_bytes, Nat.add_assoc]
  rw [readAt?_eq_some_iff]
  constructor
  · rintro ⟨hstand, hfits, hends⟩
    rw [hlength] at hstand hends
    rw [hnext] at hends
    have hrest := hstand.right
    rw [length_bytes] at hrest
    obtain ⟨hr, hrs⟩ := List.forall_mem_cons.mp hfits
    exact ⟨⟨hr, hstand.left⟩, hrest, hrs, hends⟩
  · rintro ⟨⟨hr, hholds⟩, hrest, hrs, hends⟩
    rw [← length_bytes] at hrest
    refine ⟨hlength ▸ hholds.append hrest, List.forall_mem_cons.mpr ⟨hr, hrs⟩, fun next hfits => ?_⟩
    rw [hlength, hnext]
    exact hends next hfits

theorem fill_iff {rs : List Record} (hpos : pos ≤ data.size) : Fill data pos rs ↔ (list data pos).1 = rs := by
  induction rs generalizing pos with
  | nil =>
    rw [fill_nil_iff hpos, fst_list]
    cases readAt? data pos <;> simp
  | cons r rs ih =>
    rw [fill_cons_iff, fst_list]
    cases hread : readAt? data pos with
    | none => simp
    | some first =>
      have hsize := (holds_of_readAt? hread).2.le_size
      rw [length_bytes] at hsize
      simp only [Option.some.injEq, List.cons.injEq]
      refine and_congr_right fun heq => ?_
      rw [← heq, ih hsize]

/-- Records that stand one after the other, up to fewer bytes than a record starts with, are read back. -/
theorem list_of_holds {rs : List Record} (h : data.Holds pos (rs.flatMap bytes)) (hrs : ∀ r ∈ rs, r.Fits)
    (hend : data.size < pos + (rs.flatMap bytes).length + headSize) : list data pos = (rs, true) := by
  induction rs generalizing pos with
  | nil =>
    rw [List.flatMap_nil, List.length_nil, Nat.add_zero] at hend
    rw [list, if_pos hend]
  | cons r rs ih =>
    rw [List.flatMap_cons] at h hend
    have hsize := h.left.le_size
    rw [length_bytes] at hsize
    have hrest := h.right
    rw [List.length_append, length_bytes] at hend
    rw [length_bytes] at hrest
    have hlong : ¬data.size < pos + headSize := by
      rw [size] at hsize
      omega
    rw [list, if_neg hlong, readAt?_of_holds h.left (hrs r List.mem_cons_self)]
    dsimp only
    rw [ih hrest (fun s hs => hrs s (List.mem_cons_of_mem r hs)) (by omega)]

end CodeAtlas.Database.Record
