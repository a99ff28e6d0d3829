import CodeAtlas.Database.Types
import CodeAtlas.Proofs.Bytes.Holds

namespace CodeAtlas

namespace Bytes

variable {data : Bytes} {n : Nat} {name : Text}

/-- A name that a NUL ends stands behind these first bytes. -/
structure NamedBehind (data : Bytes) (lead : List UInt8) (name : Text) : Prop where
  stands : data.Holds 0 (lead ++ (name ++ [0]))
  ends : 0 ∉ name

theorem exists_namedBehind_iff :
    (∃ lead, lead.length = n ∧ NamedBehind data lead name) ↔ data.cstringAt? n = some name := by
  rw [cstringAt?_eq_some_iff, holds_iff_behind]
  constructor
  · rintro ⟨lead, hlead, hstands, hends⟩
    exact ⟨⟨lead, hlead, hstands⟩, hends⟩
  · rintro ⟨⟨lead, hlead, hstands⟩, hends⟩
    exact ⟨lead, hlead, hstands, hends⟩

theorem NamedBehind.cstringAt? {lead : List UInt8} (h : NamedBehind data lead name) :
    data.cstringAt? lead.length = some name :=
  exists_namedBehind_iff.mp ⟨lead, rfl, h⟩

theorem exists_namedBehind_append {m : Nat} (h : data.cstringAt? (m + n) = some name) :
    ∃ head part, head.length = m ∧ part.length = n ∧ NamedBehind data (head ++ part) name := by
  obtain ⟨lead, hlength, hlead⟩ := exists_namedBehind_iff.mpr h
  rw [← List.take_append_drop m lead] at hlead
  refine ⟨lead.take m, lead.drop m, List.length_take_of_le (by omega), ?_, hlead⟩
  rw [List.length_drop, hlength, Nat.add_sub_cancel_left]

theorem NamedBehind.holds_head {head part : List UInt8} (h : NamedBehind data (head ++ part) name) :
    data.Holds 0 head :=
  h.stands.left.left

theorem NamedBehind.holds_part {head part : List UInt8} (h : NamedBehind data (head ++ part) name) :
    data.Holds head.length part := by
  have hpart := h.stands.left.right
  rwa [Nat.zero_add] at hpart

end Bytes

namespace Database

/-- The kinds that stand before a number, and how wide it is. -/
def numberWidths : List (UInt16 × Nat) :=
  [(0x8000, 1), (0x8001, 2), (0x8002, 2), (0x8003, 4), (0x8004, 4), (0x8009, 8), (0x800A, 8)]

/-- The bytes of a number. A small one is its own kind. -/
inductive IsNumber : List UInt8 → Prop
  | small {kind : UInt16} (h : kind < 0x8000) : IsNumber (leBytes 2 kind.toNat)
  | wide {kind : UInt16} {number : List UInt8} (h : (kind, number.length) ∈ numberWidths) :
      IsNumber (leBytes 2 kind.toNat ++ number)

theorem numericWidth?_eq_some_iff {kind : UInt16} {width : Nat} :
    numericWidth? kind = some width ↔ (kind < 0x8000 ∧ width = 0) ∨ (kind, width) ∈ numberWidths := by
  simp only [numberWidths, List.mem_cons, Prod.mk.injEq, List.not_mem_nil, or_false]
  constructor
  · intro h
    unfold numericWidth? at h
    split at h
    next hsmall => exact .inl ⟨hsmall, (Option.some.inj h).symm⟩
    next =>
      right
      split at h
      next hkind =>
        cases h
        simp [hkind]
      next =>
        split at h
        next hkind =>
          cases h
          rcases hkind with hkind | hkind <;> simp [hkind]
        next =>
          split at h
          next hkind =>
            cases h
            rcases hkind with hkind | hkind <;> simp [hkind]
          next =>
            split at h
            next hkind =>
              cases h
              rcases hkind with hkind | hkind <;> simp [hkind]
            next => cases h
  · rintro (⟨hsmall, rfl⟩ | h)
    · exact if_pos hsmall
    · rcases h with ⟨rfl, rfl⟩ | ⟨rfl, rfl⟩ | ⟨rfl, rfl⟩ | ⟨rfl, rfl⟩ | ⟨rfl, rfl⟩ | ⟨rfl, rfl⟩ | ⟨rfl, rfl⟩ <;> rfl

theorem isNumber_iff {bytes : List UInt8} : IsNumber bytes ↔ ∃ (kind : UInt16) (number : List UInt8),
    numericWidth? kind = some number.length ∧ bytes = leBytes 2 kind.toNat ++ number := by
  constructor
  · rintro (hsmall | hwide)
    · exact ⟨_, [], numericWidth?_eq_some_iff.mpr (.inl ⟨hsmall, rfl⟩), (List.append_nil _).symm⟩
    · exact ⟨_, _, numericWidth?_eq_some_iff.mpr (.inr hwide), rfl⟩
  · rintro ⟨kind, number, hwidth, rfl⟩
    obtain ⟨hsmall, hlength⟩ | hwide := numericWidth?_eq_some_iff.mp hwidth
    · rw [List.length_eq_zero_iff.mp hlength, List.append_nil]
      exact .small hsmall
    · exact .wide hwide

theorem numericSize?_eq_some_iff {data : Bytes} {pos size : Nat} :
    numericSize? data pos = some size ↔ ∃ number, IsNumber number ∧ data.Holds pos number ∧ number.length = size := by
  constructor
  · intro h
    obtain ⟨kind, hkind, h⟩ := Option.bind_eq_some_iff.mp h
    obtain ⟨width, hwidth, h⟩ := Option.bind_eq_some_iff.mp h
    obtain ⟨hroom, hsize⟩ := Option.ite_none_right_eq_some.mp h
    have hpart : data.Holds (pos + 2) (data.extract (pos + 2) (pos + 2 + width)).toList :=
      Bytes.holds_of_slice? (if_pos hroom)
    have hlength : (data.extract (pos + 2) (pos + 2 + width)).toList.length = width := by
      rw [Array.length_toList, Array.size_extract]
      omega
    rw [← hlength] at hwidth
    refine ⟨_, isNumber_iff.mpr ⟨kind, _, hwidth, rfl⟩, (Bytes.holds_of_u16At? hkind).append ?_, ?_⟩
    · rwa [length_leBytes]
    · rw [List.length_append, length_leBytes, hlength]
      exact Option.some.inj hsize
  · rintro ⟨bytes, hnumber, hholds, rfl⟩
    obtain ⟨kind, number, hwidth, rfl⟩ := isNumber_iff.mp hnumber
    have hroom := hholds.le_size
    rw [List.length_append, length_leBytes] at hroom
    rw [numericSize?, hholds.left.u16At?, List.length_append, length_leBytes]
    simp only [Option.bind_eq_bind, Option.bind_some, hwidth]
    exact if_pos (by omega)

/-- A name behind a number behind so many bytes. -/
theorem exists_number_iff {data : Bytes} {pos : Nat} {name : Text} :
    (∃ head number, head.length = pos ∧ IsNumber number ∧ data.NamedBehind (head ++ number) name) ↔
      ((numericSize? data pos).map (pos + ·)).bind data.cstringAt? = some name := by
  rw [Option.bind_map]
  constructor
  · rintro ⟨head, number, rfl, hnumber, hname⟩
    have hsize := numericSize?_eq_some_iff.mpr ⟨number, hnumber, hname.holds_part, rfl⟩
    have hread := hname.cstringAt?
    rw [List.length_append] at hread
    rw [hsize]
    exact hread
  · intro h
    obtain ⟨size, hsize, hname⟩ := Option.bind_eq_some_iff.mp h
    obtain ⟨number, hnumber, hholds, rfl⟩ := numericSize?_eq_some_iff.mp hsize
    obtain ⟨head, part, hhead, hpart, hbehind⟩ := Bytes.exists_namedBehind_append hname
    have hrest := hbehind.holds_part
    rw [hhead] at hrest
    exact ⟨head, part, hhead, hrest.eq_of_length hholds hpart ▸ hnumber, hbehind⟩

namespace Record

/-- A record that ends with a name behind these bytes. -/
def named (kind : UInt16) (lead : List UInt8) (name : Text) : Record := ⟨kind, (lead ++ (name ++ [0])).toArray⟩

theorem namedBehind_named (kind : UInt16) (lead : List UInt8) (name : Text) (h : 0 ∉ name) :
    (named kind lead name).data.NamedBehind lead name :=
  ⟨Bytes.holds_toArray _, h⟩

/-- The name of a type stands behind its properties and, other than that of an enumeration, its size. -/
inductive IsTypeNamed (r : Record) (name : Text) : Prop
  | aggregate (head number : List UInt8) (hkind : r.kind = 0x1504 ∨ r.kind = 0x1505 ∨ r.kind = 0x1519)
      (hhead : head.length = 16) (hnumber : IsNumber number) (hname : r.data.NamedBehind (head ++ number) name)
  | union (head number : List UInt8) (hkind : r.kind = 0x1506) (hhead : head.length = 8) (hnumber : IsNumber number)
      (hname : r.data.NamedBehind (head ++ number) name)
  | enumeration (head : List UInt8) (hkind : r.kind = 0x1507) (hhead : head.length = 12)
      (hname : r.data.NamedBehind head name)

/-- The string of a string record stands behind the number of its list of substrings. -/
structure IsString (r : Record) (text : Text) : Prop where
  kind : r.kind = 0x1605
  named : ∃ head, head.length = 4 ∧ r.data.NamedBehind head text

/-- The name of a function stands behind its scope and its type. -/
structure IsFunction (r : Record) (scope : UInt32) (name : Text) : Prop where
  kind : r.kind = 0x1601 ∨ r.kind = 0x1602
  named : ∃ type, type.length = 4 ∧ r.data.NamedBehind (leBytes 4 scope.toNat ++ type) name

theorem typeName?_eq_some_iff {r : Record} {name : Text} : r.typeName? = some name ↔ r.IsTypeNamed name := by
  unfold typeName?
  constructor
  · intro h
    split at h
    next hkind =>
      obtain ⟨head, number, hhead, hnumber, hname⟩ := exists_number_iff.mpr h
      exact .aggregate head number hkind hhead hnumber hname
    next =>
      split at h
      next hkind =>
        obtain ⟨head, number, hhead, hnumber, hname⟩ := exists_number_iff.mpr h
        exact .union head number hkind hhead hnumber hname
      next =>
        split at h
        next hkind =>
          obtain ⟨head, hhead, hname⟩ := Bytes.exists_namedBehind_iff.mpr h
          exact .enumeration head hkind hhead hname
        next => cases h
  · intro h
    cases h with
    | aggregate head number hkind hhead hnumber hname =>
      rw [if_pos hkind]
      exact exists_number_iff.mp ⟨head, number, hhead, hnumber, hname⟩
    | union head number hkind hhead hnumber hname =>
      rw [hkind]
      exact exists_number_iff.mp ⟨head, number, hhead, hnumber, hname⟩
    | enumeration head hkind hhead hname =>
      rw [hkind]
      exact Bytes.exists_namedBehind_iff.mp ⟨head, hhead, hname⟩

theorem stringId?_eq_some_iff {r : Record} {text : Text} : r.stringId? = some text ↔ r.IsString text := by
  rw [stringId?, Option.ite_none_right_eq_some, ← Bytes.exists_namedBehind_iff]
  exact ⟨fun h => ⟨h.1, h.2⟩, fun h => ⟨h.1, h.2⟩⟩

theorem isFunction_iff {r : Record} {scope : UInt32} {name : Text} : r.IsFunction scope name ↔
    (r.kind = 0x1601 ∨ r.kind = 0x1602) ∧ r.data.u32At? 0 = some scope ∧ r.data.cstringAt? 8 = some name := by
  constructor
  · rintro ⟨hkind, type, htype, hname⟩
    have hread := hname.cstringAt?
    rw [List.length_append, length_leBytes, htype] at hread
    exact ⟨hkind, hname.holds_head.u32At?, hread⟩
  · rintro ⟨hkind, hscope, hname⟩
    obtain ⟨head, type, hhead, htype, hbehind⟩ := Bytes.exists_namedBehind_append (m := 4) (n := 4) hname
    have heq := hbehind.holds_head.eq_of_length (Bytes.holds_of_u32At? hscope) (hhead.trans (length_leBytes 4 _).symm)
    exact ⟨hkind, type, htype, heq ▸ hbehind⟩

end Record

end Database

end CodeAtlas
