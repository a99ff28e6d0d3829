import CodeAtlas.Proofs.Lookup.Closest
import CodeAtlas.Proofs.Outcome
import Mathlib.Algebra.Group.Nat.Defs

namespace CodeAtlas

/-- The raw data of the section takes up this position of the file. -/
def Section.StoresOffset (s : Section) (offset : Nat) : Prop :=
  s.rawOffset.toNat ≤ offset ∧ offset < s.rawOffset.toNat + s.rawSize.toNat

theorem FileKind.ofBytes_of_parse {data : Bytes} {image : Image} (h : Image.parse data = .ok image) :
    FileKind.ofBytes data = .image := by
  by_cases hmark : Image.hasMark data = true
  · rw [ofBytes, if_pos hmark]
  · rw [Image.parse, if_pos hmark] at h
    cases h

theorem openSymbols_of_image [Sorting] [Demangler] {data : Bytes} {image : Image} (h : Image.parse data = .ok image) :
    openSymbols data = .ok image.symbolSource := by
  rw [openSymbols, FileKind.ofBytes_of_parse h, h]
  rfl

namespace ImageFunction

theorem starts_close (sections : List Section) (extents : List Extent) (fs : List NamedAddress) :
    (close sections extents fs).map (·.start) = fs.map (·.rva) := by
  induction fs with
  | nil => rfl
  | cons f rest ih => rw [close, List.map_cons, List.map_cons, ih]

theorem increasing_list (sections : List Section) (symbols : List NamedAddress) (extents : List Extent) :
    Increasing ImageFunction.start (list sections symbols extents) :=
  increasing_of_map_eq (starts_close sections extents _) (increasing_firstPerKey _)

end ImageFunction

namespace Image

variable {image : Image}

/-- The relative address that an address stands for: itself, its exact distance from the base, or the place in memory
of the first section that stores the position of the file. -/
def Denotes (image : Image) : Address → UInt32 → Prop
  | .relative rva, r => r = rva
  | .preferred address, r => address.toNat = image.base.toNat + r.toNat
  | .fileOffset offset, r => ∃ before s after, image.sections = before ++ s :: after ∧
      (∀ t ∈ before, ¬t.StoresOffset offset.toNat) ∧ s.StoresOffset offset.toNat ∧
      r.toNat = (s.address.toNat + (offset.toNat - s.rawOffset.toNat)) % 2 ^ 32

theorem data_of_parse {data : Bytes} (h : parse data = .ok image) : image.data = data := by
  unfold parse at h
  simp only [bind, Except.bind, throw, throwThe, MonadExceptOf.throw, pure, Except.pure] at h
  repeat' split at h
  all_goals cases h
  rfl

/-- What an image reads of a file can be compared without the file that it carries along. -/
theorem parse_of_headers {data : Bytes} {headers : Image} (hdata : headers.data = data)
    (h : (fun image => { image with data := #[] }) <$> parse data = .ok { headers with data := #[] }) :
    parse data = .ok headers := by
  obtain ⟨image, himage, heq⟩ := map_eq_ok_iff.mp h
  have hsame := data_of_parse himage
  cases image
  cases headers
  cases hdata
  cases hsame
  cases heq
  exact himage

theorem denotes_of_rvaOfPreferred? {address : UInt64} {r : UInt32} (h : image.rvaOfPreferred? address = some r) :
    image.Denotes (.preferred address) r := by
  unfold rvaOfPreferred? at h
  split at h
  next hcond =>
    cases h
    obtain ⟨hbase, hdist⟩ := hcond
    have hle := UInt64.le_iff_toNat_le.mp hbase
    have hlt := UInt64.le_iff_toNat_le.mp hdist
    rw [UInt64.toNat_sub_of_le _ _ hbase] at hlt
    have hlimit : (0xFFFFFFFF : UInt64).toNat = 2 ^ 32 - 1 := rfl
    change address.toNat = image.base.toNat + (address - image.base).toUInt32.toNat
    rw [UInt64.toNat_toUInt32, UInt64.toNat_sub_of_le _ _ hbase, Nat.mod_eq_of_lt (by omega)]
    omega
  next => cases h

theorem storesOffset_iff {s : Section} {offset : UInt64} :
    (s.rawOffset.toUInt64 ≤ offset && offset - s.rawOffset.toUInt64 < s.rawSize.toUInt64) = true ↔
      s.StoresOffset offset.toNat := by
  rw [Bool.and_eq_true, decide_eq_true_eq, decide_eq_true_eq, UInt64.le_iff_toNat_le, UInt64.lt_iff_toNat_lt,
    UInt32.toNat_toUInt64, UInt32.toNat_toUInt64, Section.StoresOffset]
  refine and_congr_right fun hle => ?_
  have hraw : s.rawOffset.toUInt64 ≤ offset := by
    rw [UInt64.le_iff_toNat_le, UInt32.toNat_toUInt64]
    exact hle
  rw [UInt64.toNat_sub_of_le _ _ hraw, UInt32.toNat_toUInt64]
  omega

theorem denotes_of_rvaOfOffset? {offset : UInt64} {r : UInt32} (h : image.rvaOfOffset? offset = some r) :
    image.Denotes (.fileOffset offset) r := by
  obtain ⟨s, hs, rfl⟩ := Option.map_eq_some_iff.mp h
  obtain ⟨hstores, before, after, hsplit, hbefore⟩ := List.find?_eq_some_iff_append.mp hs
  refine ⟨before, s, after, hsplit, fun t ht => ?_, storesOffset_iff.mp hstores, ?_⟩
  · have hnot := hbefore t ht
    rw [Bool.not_eq_true'] at hnot
    exact fun hmem => Bool.false_ne_true (hnot.symm.trans (storesOffset_iff.mpr hmem))
  · have hle : s.rawOffset.toUInt64 ≤ offset := of_decide_eq_true (Bool.and_eq_true_iff.mp hstores).1
    rw [UInt64.toNat_toUInt32, UInt64.toNat_add, UInt64.toNat_sub_of_le _ _ hle, UInt32.toNat_toUInt64,
      UInt32.toNat_toUInt64]
    omega

theorem denotes_of_rva? {a : Address} {r : UInt32} (h : image.rva? a = some r) : image.Denotes a r := by
  cases a with
  | relative rva => exact (Option.some.inj h).symm
  | preferred address => exact denotes_of_rvaOfPreferred? h
  | fileOffset offset => exact denotes_of_rvaOfOffset? h

theorem answersClosest_symbolSource [Demangler] (image : Image) :
    (image.symbolSource : SymbolSource Remembering).AnswersClosest image.Denotes := by
  intro a memo answer h
  change image.answer? image.functions.toArray a = some answer at h
  obtain ⟨r, hr, h⟩ := Option.bind_eq_some_iff.mp h
  obtain ⟨f, hf, h⟩ := Option.bind_eq_some_iff.mp h
  split at h
  next => cases h
  next hstop =>
    cases h
    refine ⟨r, denotes_of_rva? hr, ?_⟩
    refine isClosest_of_lastAtMost? (ImageFunction.increasing_list _ _ _) ?_ hf (fun e he => ?_) rfl rfl
    · exact List.map_map
    · rw [he, Option.any_some, decide_eq_true_eq] at hstop
      exact UInt32.not_le.mp hstop

end Image

end CodeAtlas
