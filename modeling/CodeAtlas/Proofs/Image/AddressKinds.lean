import CodeAtlas.Lookup.Sorting.Partition
import CodeAtlas.Proofs.Image.Lookup

namespace CodeAtlas

/-- Where at most one element has a property, searching finds it. -/
theorem find?_eq_some_iff_of_unique {α : Type} {p : α → Bool} {xs : List α} {x : α}
    (hunique : xs.Pairwise fun a b => p a = true → p b = false) : xs.find? p = some x ↔ x ∈ xs ∧ p x = true := by
  induction xs with
  | nil => simp only [List.find?_nil, List.not_mem_nil, reduceCtorEq, false_and]
  | cons a xs ih =>
    obtain ⟨ha, hrest⟩ := List.pairwise_cons.mp hunique
    by_cases hp : p a = true
    · rw [List.find?_cons_of_pos hp]
      constructor
      · intro h
        cases h
        exact ⟨List.mem_cons_self, hp⟩
      · rintro ⟨hmem, hx⟩
        rcases List.mem_cons.mp hmem with rfl | hmem
        · rfl
        · exact absurd hx (by rw [ha x hmem hp]; exact Bool.false_ne_true)
    · rw [List.find?_cons_of_neg hp, ih hrest, List.mem_cons]
      constructor
      · exact fun ⟨hmem, hx⟩ => ⟨.inr hmem, hx⟩
      · rintro ⟨rfl | hmem, hx⟩
        · exact absurd hx hp
        · exact ⟨hmem, hx⟩

namespace Section

/-- The raw data of the section are for this address. -/
def StoresAddress (s : Section) (address : Nat) : Prop :=
  s.address.toNat ≤ address ∧ address < s.address.toNat + s.rawSize.toNat

/-- One byte of the section's raw data has this address and this position in the file. -/
def Places (s : Section) (address offset : Nat) : Prop :=
  ∃ i, i < s.rawSize.toNat ∧ address = s.address.toNat + i ∧ offset = s.rawOffset.toNat + i

theorem backs_iff {s : Section} {rva : UInt32} : s.backs rva = true ↔ s.StoresAddress rva.toNat := by
  rw [backs, Bool.and_eq_true, decide_eq_true_eq, decide_eq_true_eq, UInt32.le_iff_toNat_le, StoresAddress]
  refine and_congr_right fun hle => ?_
  rw [UInt32.lt_iff_toNat_lt, UInt32.toNat_sub_of_le _ _ (UInt32.le_iff_toNat_le.mpr hle)]
  omega

theorem places_of_address {s : Section} {address : Nat} (h : s.StoresAddress address) (offset : Nat) :
    s.Places address offset ↔ offset = s.rawOffset.toNat + (address - s.address.toNat) := by
  obtain ⟨hle, hlt⟩ := h
  constructor
  · rintro ⟨i, hi, rfl, rfl⟩
    omega
  · rintro rfl
    exact ⟨address - s.address.toNat, by omega, by omega, rfl⟩

theorem places_of_offset {s : Section} {offset : Nat} (h : s.StoresOffset offset) (address : Nat) :
    s.Places address offset ↔ address = s.address.toNat + (offset - s.rawOffset.toNat) := by
  obtain ⟨hle, hlt⟩ := h
  constructor
  · rintro ⟨i, hi, rfl, rfl⟩
    omega
  · rintro rfl
    exact ⟨offset - s.rawOffset.toNat, by omega, rfl, by omega⟩

theorem Places.storesAddress {s : Section} {address offset : Nat} (h : s.Places address offset) :
    s.StoresAddress address := by
  obtain ⟨i, hi, rfl, -⟩ := h
  exact ⟨by omega, by omega⟩

theorem Places.storesOffset {s : Section} {address offset : Nat} (h : s.Places address offset) :
    s.StoresOffset offset := by
  obtain ⟨i, hi, -, rfl⟩ := h
  exact ⟨by omega, by omega⟩

end Section

namespace Image

/-- No address and no position in the file belongs to the raw data of two sections, and every section ends inside the
address space. -/
structure StoresApart (image : Image) : Prop where
  offsets : image.sections.Pairwise fun s t => ∀ offset, s.StoresOffset offset → ¬t.StoresOffset offset
  addresses : image.sections.Pairwise fun s t => ∀ address, s.StoresAddress address → ¬t.StoresAddress address
  stop_le : ∀ s ∈ image.sections, s.address.toNat + s.rawSize.toNat ≤ 2 ^ 32

variable {image : Image}

theorem StoresApart.find?_backs (h : image.StoresApart) {rva : UInt32} {s : Section} :
    image.sections.find? (·.backs rva) = some s ↔ s ∈ image.sections ∧ s.StoresAddress rva.toNat := by
  rw [find?_eq_some_iff_of_unique, Section.backs_iff]
  refine h.addresses.imp fun hst hs => ?_
  rw [← Bool.not_eq_true, Section.backs_iff]
  exact hst _ (Section.backs_iff.mp hs)

theorem StoresApart.offsetOfRva?_eq_some_iff (h : image.StoresApart) {rva : UInt32} {offset : Nat} :
    image.offsetOfRva? rva = some offset ↔ ∃ s ∈ image.sections, s.Places rva.toNat offset := by
  rw [offsetOfRva?, Option.map_eq_some_iff]
  constructor
  · rintro ⟨s, hs, rfl⟩
    obtain ⟨hmem, hstores⟩ := h.find?_backs.mp hs
    refine ⟨s, hmem, (Section.places_of_address hstores _).mpr ?_⟩
    rw [UInt32.toNat_sub_of_le _ _ (UInt32.le_iff_toNat_le.mpr hstores.1)]
  · rintro ⟨s, hmem, hplaces⟩
    have hstores := hplaces.storesAddress
    refine ⟨s, h.find?_backs.mpr ⟨hmem, hstores⟩, ?_⟩
    rw [(Section.places_of_address hstores _).mp hplaces,
      UInt32.toNat_sub_of_le _ _ (UInt32.le_iff_toNat_le.mpr hstores.1)]

theorem StoresApart.find?_offset (h : image.StoresApart) {offset : UInt64} {s : Section} :
    (image.sections.find? fun s =>
        s.rawOffset.toUInt64 ≤ offset && offset - s.rawOffset.toUInt64 < s.rawSize.toUInt64) = some s ↔
      s ∈ image.sections ∧ s.StoresOffset offset.toNat := by
  rw [find?_eq_some_iff_of_unique, storesOffset_iff]
  refine h.offsets.imp fun hst hs => ?_
  rw [← Bool.not_eq_true, storesOffset_iff]
  exact hst _ (storesOffset_iff.mp hs)

theorem StoresApart.rvaOfOffset?_eq_some_iff (h : image.StoresApart) {offset : UInt64} {rva : UInt32} :
    image.rvaOfOffset? offset = some rva ↔ ∃ s ∈ image.sections, s.Places rva.toNat offset.toNat := by
  have hvalue : ∀ s ∈ image.sections, s.StoresOffset offset.toNat →
      ((s.address.toUInt64 + (offset - s.rawOffset.toUInt64)).toUInt32 = rva ↔ s.Places rva.toNat offset.toNat) := by
    intro s hmem hstores
    obtain ⟨hle, hlt⟩ := hstores
    have hstop := h.stop_le s hmem
    have hraw : s.rawOffset.toUInt64 ≤ offset := by
      rw [UInt64.le_iff_toNat_le, UInt32.toNat_toUInt64]
      exact hle
    rw [Section.places_of_offset ⟨hle, hlt⟩, ← UInt32.toNat_inj, UInt64.toNat_toUInt32, UInt64.toNat_add,
      UInt64.toNat_sub_of_le _ _ hraw, UInt32.toNat_toUInt64, UInt32.toNat_toUInt64]
    omega
  rw [rvaOfOffset?, Option.map_eq_some_iff]
  constructor
  · rintro ⟨s, hs, hrva⟩
    obtain ⟨hmem, hstores⟩ := h.find?_offset.mp hs
    exact ⟨s, hmem, (hvalue s hmem hstores).mp hrva⟩
  · rintro ⟨s, hmem, hplaces⟩
    have hstores := hplaces.storesOffset
    exact ⟨s, h.find?_offset.mpr ⟨hmem, hstores⟩, (hvalue s hmem hstores).mpr hplaces⟩

/-- Where a byte of the raw data is in the file, a file offset of 64 bits can say. -/
theorem StoresApart.offset_lt (h : image.StoresApart) {rva : UInt32} {offset : Nat}
    (hoffset : image.offsetOfRva? rva = some offset) : offset < 2 ^ 64 := by
  obtain ⟨s, -, i, hi, -, rfl⟩ := h.offsetOfRva?_eq_some_iff.mp hoffset
  have hraw := s.rawOffset.toNat_lt
  have hsize := s.rawSize.toNat_lt
  omega

/-- The bytes behind an address run to the end of its section's raw data or of the file. -/
theorem StoresApart.dataFrom?_eq_some_iff (h : image.StoresApart) {rva : UInt32} {part : Bytes} :
    image.dataFrom? rva = some part ↔ ∃ s ∈ image.sections, s.StoresAddress rva.toNat ∧
      ∃ offset, image.offsetOfRva? rva = some offset ∧ offset ≤ image.data.size ∧
        part = image.data.extract offset (min (s.rawOffset.toNat + s.rawSize.toNat) image.data.size) := by
  have hpart : ∀ s ∈ image.sections, s.StoresAddress rva.toNat →
      image.offsetOfRva? rva = some (s.rawOffset.toNat + (rva - s.address).toNat) := by
    intro s hmem hstores
    rw [offsetOfRva?, h.find?_backs.mpr ⟨hmem, hstores⟩]
    rfl
  have hstop : ∀ s : Section, s.StoresAddress rva.toNat →
      s.rawOffset.toNat + (rva - s.address).toNat ≤ image.data.size →
      s.rawOffset.toNat + (rva - s.address).toNat +
          min (s.rawSize.toNat - (rva - s.address).toNat)
            (image.data.size - (s.rawOffset.toNat + (rva - s.address).toNat)) =
        min (s.rawOffset.toNat + s.rawSize.toNat) image.data.size := by
    intro s hstores hle
    obtain ⟨hlow, hhigh⟩ := hstores
    have hdelta := UInt32.toNat_sub_of_le _ _ (UInt32.le_iff_toNat_le.mpr hlow)
    omega
  rw [dataFrom?]
  constructor
  · intro hdata
    split at hdata
    next => cases hdata
    next s hs =>
      obtain ⟨hmem, hstores⟩ := h.find?_backs.mp hs
      dsimp only at hdata
      split at hdata
      next hle =>
        cases hdata
        refine ⟨s, hmem, hstores, _, hpart s hmem hstores, hle, ?_⟩
        rw [hstop s hstores hle]
      next => cases hdata
  · rintro ⟨s, hmem, hstores, offset, hoffset, hle, rfl⟩
    cases (hpart s hmem hstores).symm.trans hoffset
    rw [h.find?_backs.mpr ⟨hmem, hstores⟩]
    dsimp only
    rw [if_pos hle, hstop s hstores hle]

theorem rvaOfPreferred?_eq_some_iff {address : UInt64} {rva : UInt32} :
    image.rvaOfPreferred? address = some rva ↔ address.toNat = image.base.toNat + rva.toNat := by
  constructor
  · exact denotes_of_rvaOfPreferred?
  · intro heq
    have hrva := rva.toNat_lt
    have hbase : image.base ≤ address := by
      rw [UInt64.le_iff_toNat_le]
      omega
    have hdelta : (address - image.base).toNat = rva.toNat := by
      rw [UInt64.toNat_sub_of_le _ _ hbase]
      omega
    have hlimit : address - image.base ≤ 0xFFFFFFFF := by
      rw [UInt64.le_iff_toNat_le, hdelta]
      exact Nat.le_of_lt_succ hrva
    rw [rvaOfPreferred?, if_pos ⟨hbase, hlimit⟩, Option.some.injEq, ← UInt32.toNat_inj, UInt64.toNat_toUInt32, hdelta,
      Nat.mod_eq_of_lt hrva]

theorem rvaOfPreferred?_eq_none_iff {address : UInt64} : image.rvaOfPreferred? address = none ↔
    address.toNat < image.base.toNat ∨ image.base.toNat + 2 ^ 32 ≤ address.toNat := by
  rw [Option.eq_none_iff_forall_ne_some]
  simp only [ne_eq, rvaOfPreferred?_eq_some_iff]
  constructor
  · intro h
    rcases Nat.lt_or_ge address.toNat image.base.toNat with hlow | hlow
    · exact .inl hlow
    · refine .inr (Nat.le_of_not_lt fun hhigh => ?_)
      have hlt : address.toNat - image.base.toNat < 2 ^ 32 := by omega
      apply h (.ofNat (address.toNat - image.base.toNat))
      rw [UInt32.toNat_ofNat_of_lt' hlt]
      omega
  · intro hout rva heq
    have hrva := rva.toNat_lt
    omega

theorem answer?_congr {functions : Array ImageFunction} {a b : Address} (h : image.rva? a = image.rva? b) :
    image.answer? functions a = image.answer? functions b := by
  rw [answer?, answer?, h]

/-- The three kinds of addresses say the same. -/
structure KindsAgree [Sorting] [Demangler] (image : Image) (data : Bytes) : Prop where
  offset_iff : ∀ rva offset, image.offsetOfRva? rva = some offset ↔
    ∃ o : UInt64, o.toNat = offset ∧ image.rvaOfOffset? o = some rva
  data_iff : ∀ rva part, image.dataFrom? rva = some part ↔ ∃ s ∈ image.sections, s.StoresAddress rva.toNat ∧
    ∃ offset, image.offsetOfRva? rva = some offset ∧ offset ≤ data.size ∧
      part = data.extract offset (min (s.rawOffset.toNat + s.rawSize.toNat) data.size)
  preferred_iff : ∀ address rva,
    image.rvaOfPreferred? address = some rva ↔ address.toNat = image.base.toNat + rva.toNat
  preferred_none_iff : ∀ address, image.rvaOfPreferred? address = none ↔
    address.toNat < image.base.toNat ∨ image.base.toNat + 2 ^ 32 ≤ address.toNat
  lookup_eq : ∃ source, openSymbols data = .ok source ∧ ∀ rva,
    (∀ address : UInt64, address.toNat = image.base.toNat + rva.toNat →
      source.lookup (.preferred address) = source.lookup (.relative rva)) ∧
    ∀ offset : UInt64, image.offsetOfRva? rva = some offset.toNat →
      source.lookup (.fileOffset offset) = source.lookup (.relative rva)

theorem kindsAgree_of_parse [Sorting] [Demangler] {data : Bytes} (h : parse data = .ok image)
    (hapart : image.StoresApart) : image.KindsAgree data where
  offset_iff rva offset := by
    constructor
    · intro hoffset
      have hnat : (UInt64.ofNat offset).toNat = offset := UInt64.toNat_ofNat_of_lt' (hapart.offset_lt hoffset)
      refine ⟨.ofNat offset, hnat, hapart.rvaOfOffset?_eq_some_iff.mpr ?_⟩
      rw [hnat]
      exact hapart.offsetOfRva?_eq_some_iff.mp hoffset
    · rintro ⟨o, rfl, hrva⟩
      exact hapart.offsetOfRva?_eq_some_iff.mpr (hapart.rvaOfOffset?_eq_some_iff.mp hrva)
  data_iff rva part := by
    rw [hapart.dataFrom?_eq_some_iff, data_of_parse h]
  preferred_iff address rva := rvaOfPreferred?_eq_some_iff
  preferred_none_iff address := rvaOfPreferred?_eq_none_iff
  lookup_eq := by
    refine ⟨image.symbolSource, openSymbols_of_image h, fun rva => ?_⟩
    refine ⟨fun address haddress => ?_, fun offset hoffset => ?_⟩
    · exact congrArg pure (answer?_congr (rvaOfPreferred?_eq_some_iff.mpr haddress))
    · have hrva : image.rvaOfOffset? offset = some rva :=
        hapart.rvaOfOffset?_eq_some_iff.mpr (hapart.offsetOfRva?_eq_some_iff.mp hoffset)
      exact congrArg pure (answer?_congr hrva)

/-- An image whose two sections have one order in the section table and in memory the other; the file ends inside the
raw data of the first. -/
def crossedImage : Bytes :=
  List.toArray ([0x4d, 0x5a] ++ List.replicate 58 0 ++ [0x40, 0, 0, 0] ++
    [0x50, 0x45, 0, 0, 0x4c, 1, 2, 0, 0, 0, 0, 0, 0x10, 1, 0, 0, 1, 0, 0, 0, 96, 0, 0, 0] ++
    [0x0b, 1] ++ List.replicate 26 0 ++ [0, 0, 0x40, 0] ++ List.replicate 64 0 ++
    [0x64, 0x61, 0x74, 0x61, 0, 0, 0, 0, 0, 1, 0, 0, 0, 0x20, 0, 0, 0, 1, 0, 0, 0x0c, 1, 0, 0] ++ List.replicate 16 0 ++
    [0x63, 0x6f, 0x64, 0x65, 0, 0, 0, 0, 4, 0, 0, 0, 0, 0x10, 0, 0, 4, 0, 0, 0, 0x08, 1, 0, 0] ++ List.replicate 16 0 ++
    [0xc3, 0xc3, 0xc3, 0xc3, 1, 2, 3, 4] ++
    [0x66, 0, 0, 0, 0, 0, 0, 0, 0x10, 0, 0, 0, 1, 0, 0x20, 0, 2, 0])

def crossedHeaders : Image :=
  ⟨crossedImage, false, 0x14c, 0x400000, 0, 0x110, 1, [],
    [⟨"data", 0x100, 0x2000, 0x100, 0x10c, 0⟩, ⟨"code", 4, 0x1000, 4, 0x108, 0⟩]⟩

theorem parse_crossedImage : parse crossedImage = .ok crossedHeaders := parse_of_headers rfl (by decide +kernel)

theorem storesApart_crossedHeaders : crossedHeaders.StoresApart := by
  refine ⟨?_, ?_, ?_⟩
  · refine List.pairwise_pair.mpr fun offset hdata hcode => ?_
    have hlow : 0x10c ≤ offset := hdata.1
    have hhigh : offset < 0x108 + 4 := hcode.2
    omega
  · refine List.pairwise_pair.mpr fun address hdata hcode => ?_
    have hlow : 0x2000 ≤ address := hdata.1
    have hhigh : address < 0x1000 + 4 := hcode.2
    omega
  · intro s hs
    simp only [crossedHeaders, List.mem_cons, List.not_mem_nil, or_false] at hs
    rcases hs with rfl | rfl
    · decide
    · decide

open scoped Sorting Demangler

theorem kindsAgree_crossedImage : ∃ image, parse crossedImage = .ok image ∧ image.StoresApart ∧
    image.KindsAgree crossedImage ∧ image.offsetOfRva? 0x2010 = some 0x11c ∧ image.rvaOfOffset? 0x108 = some 0x1000 ∧
    image.dataFrom? 0x2010 = some #[1, 0, 0x20, 0, 2, 0] := by
  have hparse := parse_crossedImage
  have hapart := storesApart_crossedHeaders
  exact ⟨crossedHeaders, hparse, hapart, kindsAgree_of_parse hparse hapart, by decide +kernel, by decide +kernel,
    by decide +kernel⟩

end Image

end CodeAtlas
