import CodeAtlas.Proofs.Bytes.Holds
import CodeAtlas.Proofs.Image.AddressKinds
import Mathlib.Data.List.TakeWhile

namespace CodeAtlas

namespace Bytes

variable {data : Bytes} {pos n : Nat} {part : List UInt8}

theorem holds_iff_isPrefix : data.Holds pos part ↔ pos ≤ data.size ∧ part <+: data.toList.drop pos := by
  constructor
  · rintro ⟨before, after, rfl, hdata⟩
    refine ⟨?_, after, ?_⟩
    · rw [← Array.length_toList, hdata, List.length_append, List.length_append]
      omega
    · rw [hdata, List.append_assoc, List.drop_left]
  · rintro ⟨hpos, after, hafter⟩
    exact holds_of_drop_eq hafter.symm hpos

/-- A piece of the content starts with what stands there, as far as the piece reaches. -/
theorem holds_extract_iff (hn : pos + n ≤ data.size) :
    Holds (data.extract pos (pos + n)) 0 part ↔ data.Holds pos part ∧ part.length ≤ n := by
  rw [holds_iff_isPrefix, holds_iff_isPrefix, Array.toList_extract, List.extract_eq_take_drop, Nat.add_sub_cancel_left,
    List.drop_zero, List.prefix_take_iff]
  constructor
  · rintro ⟨-, hstarts, hlength⟩
    exact ⟨⟨by omega, hstarts⟩, hlength⟩
  · rintro ⟨⟨-, hstarts⟩, hlength⟩
    exact ⟨Nat.zero_le _, hstarts, hlength⟩

theorem slice?_eq_some_iff_holds {piece : Bytes} :
    data.slice? pos n = some piece ↔ piece.size = n ∧ data.Holds pos piece.toList := by
  constructor
  · intro h
    exact ⟨size_of_slice? h, holds_of_slice? h⟩
  · rintro ⟨rfl, h⟩
    have hslice := h.slice?
    rwa [Array.length_toList, Array.toArray_toList] at hslice

/-- A text that ends at the first NUL, or with the bytes it stands in. -/
def IsUpToNul (bytes : List UInt8) (text : Text) : Prop :=
  0 ∉ text ∧ (bytes = text ∨ ∃ after, bytes = text ++ 0 :: after)

theorem isUpToNul_iff {bytes : List UInt8} {text : Text} : IsUpToNul bytes text ↔ bytes.takeWhile (· != 0) = text := by
  have hbefore : ∀ text : Text, 0 ∉ text → ∀ b ∈ text, (b != 0) = true := by
    intro text h b hb
    rw [bne_iff_ne]
    exact fun heq => h (heq ▸ hb)
  constructor
  · rintro ⟨htext, rfl | ⟨after, rfl⟩⟩
    · exact List.takeWhile_eq_self_iff.mpr (hbefore _ htext)
    · rw [List.takeWhile_append_of_pos (hbefore _ htext)]
      simp
  · rintro rfl
    refine ⟨fun hmem => absurd (List.all_eq_true.mp List.all_takeWhile 0 hmem) (by decide), ?_⟩
    cases hrest : bytes.dropWhile (· != 0) with
    | nil => exact .inl (by simpa [hrest] using (List.takeWhile_append_dropWhile (p := (· != 0)) (l := bytes)).symm)
    | cons b rest =>
      have hb := List.head?_dropWhile_not (· != 0) bytes
      rw [hrest] at hb
      obtain rfl : b = 0 := by simpa using hb
      exact .inr ⟨rest, by rw [← hrest, List.takeWhile_append_dropWhile]⟩

end Bytes

namespace Section

/-- Of the sections whose raw data are for an address, this is the first one. -/
def IsFirstStoring (sections : List Section) (address : Nat) (s : Section) : Prop :=
  ∃ before after, sections = before ++ s :: after ∧ s.StoresAddress address ∧ ∀ t ∈ before, ¬t.StoresAddress address

theorem find?_backs_eq_some_iff {sections : List Section} {rva : UInt32} {s : Section} :
    sections.find? (·.backs rva) = some s ↔ IsFirstStoring sections rva.toNat s := by
  rw [List.find?_eq_some_iff_append, IsFirstStoring]
  simp only [Bool.not_eq_true', ← Bool.not_eq_true, backs_iff]
  constructor
  · rintro ⟨hs, before, after, hsplit, hbefore⟩
    exact ⟨before, after, hsplit, hs, hbefore⟩
  · rintro ⟨before, after, hsplit, hs, hbefore⟩
    exact ⟨hs, before, after, hsplit, hbefore⟩

end Section

namespace Image

/-- The file has these bytes for an address: they stand in the raw data of the first section that stores it, and the
raw data hold all of them. -/
def StoresAt (image : Image) (rva : UInt32) (part : List UInt8) : Prop :=
  ∃ s, Section.IsFirstStoring image.sections rva.toNat s ∧
    image.data.Holds (s.rawOffset.toNat + (rva.toNat - s.address.toNat)) part ∧
    rva.toNat + part.length ≤ s.address.toNat + s.rawSize.toNat

variable {image : Image} {rva : UInt32} {part : List UInt8}

/-- What is read for an address are the bytes of the first section that stores it. -/
theorem exists_dataFrom?_iff :
    (∃ whole, image.dataFrom? rva = some whole ∧ whole.Holds 0 part) ↔ image.StoresAt rva part := by
  cases hfind : image.sections.find? (·.backs rva) with
  | none =>
    refine iff_of_false (fun ⟨whole, h, _⟩ => ?_) fun ⟨s, hs, _⟩ => ?_
    · rw [dataFrom?, hfind] at h
      cases h
    · rw [Section.find?_backs_eq_some_iff.mpr hs] at hfind
      cases hfind
  | some s =>
    have hs := Section.find?_backs_eq_some_iff.mp hfind
    have hunique : ∀ t, Section.IsFirstStoring image.sections rva.toNat t ↔ t = s := by
      intro t
      rw [← Section.find?_backs_eq_some_iff, hfind, Option.some.injEq, eq_comm]
    obtain ⟨-, -, -, ⟨hle, hlt⟩, -⟩ := hs
    have hdelta := UInt32.toNat_sub_of_le _ _ (UInt32.le_iff_toNat_le.mpr hle)
    simp only [StoresAt, hunique, exists_eq_left, dataFrom?, hfind, hdelta, Option.ite_none_right_eq_some]
    generalize hstart : s.rawOffset.toNat + (rva.toNat - s.address.toNat) = start
    generalize hroom : s.rawSize.toNat - (rva.toNat - s.address.toNat) = room
    constructor
    · rintro ⟨whole, ⟨hin, hwhole⟩, hholds⟩
      rw [← Option.some.inj hwhole, Bytes.holds_extract_iff (by omega)] at hholds
      exact ⟨hholds.1, by omega⟩
    · rintro ⟨hholds, hlength⟩
      have hsize := hholds.le_size
      exact ⟨_, ⟨by omega, rfl⟩, (Bytes.holds_extract_iff (by omega)).mpr ⟨hholds, by omega⟩⟩

theorem dataAt?_eq_some_iff {size : Nat} {piece : Bytes} :
    image.dataAt? rva size = some piece ↔ piece.size = size ∧ image.StoresAt rva piece.toList := by
  rw [dataAt?, Option.bind_eq_some_iff, ← exists_dataFrom?_iff]
  simp only [Bytes.slice?_eq_some_iff_holds]
  constructor
  · rintro ⟨whole, hwhole, hsize, hholds⟩
    exact ⟨hsize, whole, hwhole, hholds⟩
  · rintro ⟨hsize, whole, hwhole, hholds⟩
    exact ⟨whole, hwhole, hsize, hholds⟩

theorem StoresAt.dataAt? (h : image.StoresAt rva part) : image.dataAt? rva part.length = some part.toArray :=
  dataAt?_eq_some_iff.mpr ⟨List.size_toArray, h⟩

/-- The file has so many bytes for an address. -/
def Backs (image : Image) (rva : UInt32) (size : Nat) : Prop := ∃ part, part.length = size ∧ image.StoresAt rva part

theorem backs_iff {size : Nat} : image.Backs rva size ↔ ∃ piece, image.dataAt? rva size = some piece := by
  simp only [dataAt?_eq_some_iff, Backs]
  constructor
  · rintro ⟨part, hsize, hpart⟩
    exact ⟨part.toArray, hsize, hpart⟩
  · rintro ⟨piece, hsize, hpiece⟩
    exact ⟨piece.toList, hsize, hpiece⟩

/-- A text that a NUL ends, as far as the raw data of the section reach. -/
theorem exists_cstring_iff {text : Text} :
    (∃ whole, image.dataFrom? rva = some whole ∧ whole.cstringAt? 0 = some text) ↔
      image.StoresAt rva (text ++ [0]) ∧ 0 ∉ text := by
  simp only [← exists_dataFrom?_iff, Bytes.cstringAt?_eq_some_iff]
  constructor
  · rintro ⟨whole, hwhole, hholds, htext⟩
    exact ⟨⟨whole, hwhole, hholds⟩, htext⟩
  · rintro ⟨⟨whole, hwhole, hholds⟩, htext⟩
    exact ⟨whole, hwhole, hholds, htext⟩

/-- The file of a 32-bit image with one section, which stands at 0x1000 in memory and takes up the rest of the file. -/
def oneSectionFile (symbolTable symbolCount : UInt32) (directories : List Directory) (content : List UInt8) : Bytes :=
  List.toArray (
    ("MZ" : Text) ++ List.replicate 58 0 ++ leBytes 4 0x40 ++
    ("PE" : Text) ++ [0, 0] ++ leBytes 2 0x14c ++ leBytes 2 1 ++ leBytes 4 0 ++ leBytes 4 symbolTable.toNat ++
      leBytes 4 symbolCount.toNat ++ leBytes 2 (96 + 8 * directories.length) ++ leBytes 2 0 ++
    leBytes 2 0x10b ++ List.replicate 26 0 ++ leBytes 4 0x400000 ++ List.replicate 24 0 ++ leBytes 4 0x2000 ++
      List.replicate 32 0 ++ leBytes 4 directories.length ++
      directories.flatMap (fun d => leBytes 4 d.address.toNat ++ leBytes 4 d.size.toNat) ++
    ("data" : Text) ++ leBytes 4 0 ++ leBytes 4 content.length ++ leBytes 4 0x1000 ++ leBytes 4 content.length ++
      leBytes 4 (224 + 8 * directories.length) ++ List.replicate 12 0 ++ leBytes 4 0x40 ++
    content)

def oneSectionImage (symbolTable symbolCount : UInt32) (directories : List Directory) (content : List UInt8) : Image where
  data := oneSectionFile symbolTable symbolCount directories content
  is64 := false
  machine := 0x14c
  base := 0x400000
  size := 0x2000
  symbolTable := symbolTable
  symbolCount := symbolCount
  directories := directories
  sections := [⟨"data", .ofNat content.length, 0x1000, .ofNat content.length,
    .ofNat (224 + 8 * directories.length), 0x40⟩]

theorem holds_oneSectionFile (symbolTable symbolCount : UInt32) (directories : List Directory) (content : List UInt8) :
    (oneSectionFile symbolTable symbolCount directories content).Holds (224 + 8 * directories.length) content := by
  have hdirectories : (directories.flatMap fun d => leBytes 4 d.address.toNat ++ leBytes 4 d.size.toNat).length =
      directories.length * 8 := length_flatMap_of_length (fun _ => by simp) directories
  refine ⟨_, [], ?_, (List.append_nil _).symm⟩
  have hmarks : ("MZ" : Text).length = 2 ∧ ("PE" : Text).length = 2 ∧ ("data" : Text).length = 4 := by decide
  simp only [List.length_append, List.length_replicate, List.length_cons, List.length_nil, length_leBytes, hdirectories,
    hmarks]
  omega

/-- What comes first in the only section of a file stands at the address of that section. -/
theorem storesAt_oneSectionImage {symbolTable symbolCount : UInt32} {directories : List Directory}
    {content rest : List UInt8} (hcontent : content = part ++ rest) (hpart : part ≠ [])
    (hfits : 224 + 8 * directories.length + content.length < 2 ^ 32) :
    (oneSectionImage symbolTable symbolCount directories content).StoresAt 0x1000 part := by
  have hlength := congrArg List.length hcontent
  have hpos := List.length_pos_iff.mpr hpart
  have hsize : (UInt32.ofNat content.length).toNat = content.length := by
    rw [UInt32.toNat_ofNat']
    omega
  have hoffset : (UInt32.ofNat (224 + 8 * directories.length)).toNat = 224 + 8 * directories.length := by
    rw [UInt32.toNat_ofNat']
    omega
  rw [List.length_append] at hlength
  refine ⟨⟨"data", .ofNat content.length, 0x1000, .ofNat content.length, .ofNat (224 + 8 * directories.length), 0x40⟩,
    ⟨[], [], rfl, ⟨le_refl _, ?_⟩, by simp⟩, ?_, ?_⟩
  · simp only [hsize]
    omega
  · have hholds := holds_oneSectionFile symbolTable symbolCount directories content
    simp only [hoffset, Nat.sub_self, Nat.add_zero]
    rw [hcontent] at hholds ⊢
    exact hholds.left
  · simp only [hsize]
    omega

end Image

end CodeAtlas
