import CodeAtlas.Proofs.Image.FunctionList
import CodeAtlas.Proofs.Image.SectionSpans

namespace CodeAtlas

namespace ImageFunction

/-- If there is a section around the address, its end is an address too. -/
def FitsAt (sections : List Section) (rva : UInt32) : Prop :=
  ∀ s, Section.IsFirst sections rva.toNat s → s.exactStop < 2 ^ 32

/-- The nearest of two ends, of which either may be missing. -/
theorem le_of_merge_min {a b : Option Nat} {k : Nat} (h : a.merge min b = some k) :
    (∀ x, a = some x → k ≤ x) ∧ (∀ y, b = some y → k ≤ y) ∧ (a = some k ∨ b = some k) := by
  cases a with
  | none => simp_all
  | some x =>
    cases b with
    | none => simp_all
    | some y =>
      obtain rfl : min x y = k := Option.some.inj h
      simp only [Option.some.injEq, forall_eq']
      omega

section InferredStop

variable {sections : List Section} {s : Section} {start : UInt32} {next : Option UInt32}

theorem fitsAt_iff (h : Section.find? sections start = some s) : FitsAt sections start ↔ s.exactStop < 2 ^ 32 := by
  constructor
  · exact fun hfits => hfits s (Section.find?_eq_some_iff.mp h)
  · intro hlt t ht
    cases h.symm.trans (Section.find?_eq_some_iff.mpr ht)
    exact hlt

theorem fitsAt_of_find?_eq_none (h : Section.find? sections start = none) : FitsAt sections start := by
  intro s hs
  rw [Section.find?_eq_some_iff.mpr hs] at h
  cases h

/-- The nearest of the start of the next function and the end of the section, if neither wraps. -/
theorem inferredStop_of_fits (hfits : FitsAt sections start) : (inferredStop sections start next).map UInt32.toNat =
    (next.map UInt32.toNat).merge min ((Section.find? sections start).map Section.exactStop) := by
  unfold inferredStop
  cases hfind : Section.find? sections start with
  | none => cases next <;> rfl
  | some s =>
    have hstop := Section.toNat_stop_of_lt ((fitsAt_iff hfind).mp hfits)
    cases next with
    | none => exact congrArg some hstop
    | some n =>
      simp only [Option.map_some, Option.all_some, decide_eq_true_eq, Option.merge_some_some]
      split
      next hlt =>
        rw [UInt32.lt_iff_toNat_lt, hstop] at hlt
        rw [Option.map_some, Nat.min_eq_left (Nat.le_of_lt hlt)]
      next hle =>
        rw [UInt32.not_lt, UInt32.le_iff_toNat_le, hstop] at hle
        rw [Option.map_some, hstop, Nat.min_eq_right hle]

theorem inferredStop_of_fits_of_eq (hfits : FitsAt sections start) {e : UInt32}
    (he : inferredStop sections start next = some e) :
    (next.map UInt32.toNat).merge min ((Section.find? sections start).map Section.exactStop) = some e.toNat := by
  rw [← inferredStop_of_fits hfits, he, Option.map_some]

/-- An end that wraps lies before every function of the section. -/
theorem inferredStop_of_not_fits (hnot : ¬FitsAt sections start) (hnext : ∀ n, next = some n → start < n) :
    ∃ e, inferredStop sections start next = some e ∧ e < start := by
  cases hfind : Section.find? sections start with
  | none => exact absurd (fitsAt_of_find?_eq_none hfind) hnot
  | some s =>
    obtain ⟨-, -, -, hspans, -⟩ := Section.find?_eq_some_iff.mp hfind
    have hstop := Section.stop_lt_of_le hspans (Nat.le_of_not_lt (mt (fitsAt_iff hfind).mpr hnot))
    refine ⟨s.stop, ?_, hstop⟩
    unfold inferredStop
    rw [hfind]
    cases next with
    | none => rfl
    | some n =>
      have hle := UInt32.not_lt.mpr (UInt32.le_of_lt (UInt32.lt_trans hstop (hnext n rfl)))
      simp only [Option.map_some, Option.all_some, decide_eq_true_eq, if_neg hle]

theorem start_lt_of_fits (hnext : ∀ n, next = some n → start < n) (hfits : FitsAt sections start) {e : UInt32}
    (he : inferredStop sections start next = some e) : start < e := by
  obtain ⟨-, -, hnearest⟩ := le_of_merge_min (inferredStop_of_fits_of_eq hfits he)
  rw [UInt32.lt_iff_toNat_lt]
  rcases hnearest with hn | hs
  · obtain ⟨n, hn, heq⟩ := Option.map_eq_some_iff.mp hn
    rw [← heq]
    exact UInt32.lt_iff_toNat_lt.mp (hnext n hn)
  · obtain ⟨s, hs, heq⟩ := Option.map_eq_some_iff.mp hs
    obtain ⟨-, -, -, hspans, -⟩ := Section.find?_eq_some_iff.mp hs
    rw [← heq]
    exact hspans.2

theorem start_lt_inferredStop_iff (hnext : ∀ n, next = some n → start < n) :
    (∀ e, inferredStop sections start next = some e → start < e) ↔ FitsAt sections start := by
  refine ⟨fun hlt => ?_, fun hfits e => start_lt_of_fits hnext hfits⟩
  by_contra hnot
  obtain ⟨e, he, hbefore⟩ := inferredStop_of_not_fits hnot hnext
  exact UInt32.lt_asymm hbefore (hlt e he)

theorem inferredStop_le_next (hnext : ∀ n, next = some n → start < n) {e n : UInt32}
    (he : inferredStop sections start next = some e) (hn : next = some n) : e ≤ n := by
  by_cases hfits : FitsAt sections start
  · obtain ⟨hle, -, -⟩ := le_of_merge_min (inferredStop_of_fits_of_eq hfits he)
    exact UInt32.le_iff_toNat_le.mpr (hle _ (congrArg _ hn))
  · obtain ⟨e', he', hlt⟩ := inferredStop_of_not_fits hfits hnext
    cases he.symm.trans he'
    exact UInt32.le_of_lt (UInt32.lt_trans hlt (hnext n hn))

theorem inferredStop_le_section (hnext : ∀ n, next = some n → start < n) {e : UInt32}
    (he : inferredStop sections start next = some e) (hs : Section.IsFirst sections start.toNat s) :
    e.toNat ≤ s.exactStop := by
  by_cases hfits : FitsAt sections start
  · obtain ⟨-, hle, -⟩ := le_of_merge_min (inferredStop_of_fits_of_eq hfits he)
    exact hle _ (congrArg _ (Section.find?_eq_some_iff.mpr hs))
  · obtain ⟨e', he', hlt⟩ := inferredStop_of_not_fits hfits hnext
    cases he.symm.trans he'
    obtain ⟨-, -, -, hspans, -⟩ := hs
    exact Nat.le_of_lt (Nat.lt_trans (UInt32.lt_iff_toNat_lt.mp hlt) hspans.2)

end InferredStop

/-- What is answered to an address in a function. -/
def answer (f : ImageFunction) : Answer := ⟨⟨f.start, f.stop.map (· - f.start), f.name⟩, none⟩

end ImageFunction

namespace Image

open ImageFunction

variable {image : Image} {fs : List ImageFunction} {f : ImageFunction} {rva : UInt32}

theorem answer?_relative_eq_some_iff (hinc : Increasing ImageFunction.start fs) {a : Answer} :
    image.answer? fs.toArray (.relative rva) = some a ↔ ∃ f ∈ fs, f.start ≤ rva ∧
      (∀ g ∈ fs, g.start ≤ rva → g.start ≤ f.start) ∧ (∀ e, f.stop = some e → rva < e) ∧ a = f.answer := by
  have htable : Increasing ImageFunction.start fs.toArray.toList := hinc
  have hlast : ∀ f, Bisection.lastAtMost? ImageFunction.start fs.toArray rva = some f ↔
      f ∈ fs ∧ f.start ≤ rva ∧ ∀ g ∈ fs, g.start ≤ rva → g.start ≤ f.start := fun f =>
    Bisection.lastAtMost?_eq_some_iff htable
  have hstop : ∀ f : ImageFunction, f.stop.any (· ≤ rva) = true ↔ ¬∀ e, f.stop = some e → rva < e := by
    intro f
    cases f.stop <;> simp
  simp only [answer?, rva?, Option.bind_eq_bind, Option.bind_some, Option.bind_eq_some_iff, hlast]
  constructor
  · rintro ⟨f, ⟨hf, hle, hgreatest⟩, h⟩
    split at h
    next => cases h
    next hnot =>
      rw [hstop, not_not] at hnot
      exact ⟨f, hf, hle, hgreatest, hnot, (Option.some.inj h).symm⟩
  · rintro ⟨f, hf, hle, hgreatest, hlt, rfl⟩
    refine ⟨f, ⟨hf, hle, hgreatest⟩, ?_⟩
    rw [if_neg ((hstop f).not.mpr (not_not.mpr hlt))]
    rfl

/-- A function is found at its start unless it ends there or before. -/
theorem answer?_start_eq_some_iff (hinc : Increasing ImageFunction.start fs) (hf : f ∈ fs) :
    image.answer? fs.toArray (.relative f.start) = some f.answer ↔ ∀ e, f.stop = some e → f.start < e := by
  rw [answer?_relative_eq_some_iff hinc]
  constructor
  · rintro ⟨g, hg, hle, hgreatest, hlt, heq⟩
    cases hinc.eq_of_key_eq hf hg (UInt32.le_antisymm (hgreatest f hf (UInt32.le_refl _)) hle)
    exact hlt
  · exact fun hlt => ⟨f, hf, UInt32.le_refl _, fun g _ hle => hle, hlt, rfl⟩

/-- The end of a function whose extent is not known, where `next` is the start of the function behind it. -/
structure InfersEnd (image : Image) (fs : List ImageFunction) (f : ImageFunction) (next : Option UInt32) : Prop where
  le_next : ∀ e n, f.stop = some e → next = some n → e ≤ n
  le_section : ∀ e s, f.stop = some e → Section.IsFirst image.sections f.start.toNat s → e.toNat ≤ s.exactStop
  /-- The function ends where the next one starts or where its section ends, whatever comes first. -/
  nearest : FitsAt image.sections f.start → f.stop.map UInt32.toNat =
    (next.map UInt32.toNat).merge min ((Section.find? image.sections f.start).map Section.exactStop)
  start_lt_iff : (∀ e, f.stop = some e → f.start < e) ↔ FitsAt image.sections f.start
  found_iff : image.answer? fs.toArray (.relative f.start) = some f.answer ↔ FitsAt image.sections f.start
  /-- Otherwise no address is put down to the function. -/
  lost : ¬FitsAt image.sections f.start → ∀ rva a, image.answer? fs.toArray (.relative rva) = some a →
    a.symbol.start ≠ f.start

theorem infersEnd_list (image : Image) (symbols : List NamedAddress) (extents : List Extent) {i : Nat}
    (hf : (list image.sections symbols extents)[i]? = some f) (hnone : ∀ x ∈ extents, x.start ≠ f.start) :
    image.InfersEnd (list image.sections symbols extents) f
      ((list image.sections symbols extents)[i + 1]?.map (·.start)) := by
  have hinc := increasing_list image.sections symbols extents
  have hmem := List.mem_of_getElem? hf
  have hstop : f.stop = inferredStop image.sections f.start
      ((list image.sections symbols extents)[i + 1]?.map (·.start)) := by
    rw [stop_list hf, knownStop?_eq_none hnone]
    rfl
  generalize list image.sections symbols extents = fs at *
  have hnext : ∀ n, fs[i + 1]?.map (·.start) = some n → f.start < n := fun n => hinc.lt_next hf
  have hstart : _ ↔ FitsAt image.sections f.start := start_lt_inferredStop_iff hnext
  rw [← hstop] at hstart
  refine ⟨fun e n he => inferredStop_le_next hnext (hstop ▸ he),
    fun e s he => inferredStop_le_section hnext (hstop ▸ he), fun hfits => ?_, hstart,
    (answer?_start_eq_some_iff hinc hmem).trans hstart, fun hnot rva a ha heq => ?_⟩
  · rw [hstop]
    exact inferredStop_of_fits hfits
  -- An end that wrapped lies before the start, and no address is behind the one and before the other.
  · obtain ⟨g, hg, hle, -, hlt, rfl⟩ := (answer?_relative_eq_some_iff hinc).mp ha
    cases hinc.eq_of_key_eq hg hmem heq
    obtain ⟨e, he, hbefore⟩ := inferredStop_of_not_fits hnot hnext
    have hafter := hlt e (hstop.trans he)
    exact UInt32.lt_asymm (UInt32.lt_of_le_of_lt hle hafter) hbefore

/-- An image with two sections, of which the second one ends with the address space. -/
def topImage : Bytes :=
  List.toArray ([0x4d, 0x5a] ++ List.replicate 58 0 ++ [0x40, 0, 0, 0] ++
    [0x50, 0x45, 0, 0, 0x4c, 1, 2, 0, 0, 0, 0, 0, 0, 0, 0, 0, 0, 0, 0, 0, 96, 0, 0, 0] ++
    [0x0b, 1] ++ List.replicate 26 0 ++ [0, 0, 0x40, 0] ++ List.replicate 64 0 ++
    [0x63, 0x6f, 0x64, 0x65, 0, 0, 0, 0, 0, 1, 0, 0, 0, 0x10, 0, 0] ++ List.replicate 24 0 ++
    [0x74, 0x6f, 0x70, 0, 0, 0, 0, 0, 0, 0x10, 0, 0, 0, 0xf0, 0xff, 0xff] ++ List.replicate 24 0)

def topHeaders : Image :=
  ⟨topImage, false, 0x14c, 0x400000, 0, 0, 0, [],
    [⟨"code", 0x100, 0x1000, 0, 0, 0⟩, ⟨"top", 0x1000, 0xFFFFF000, 0, 0, 0⟩]⟩

def topSymbols : List NamedAddress := [⟨0x1010, "f"⟩, ⟨0xFFFFF010, "g"⟩, ⟨0xFFFFF020, "h"⟩]

def topExtents : List Extent := [⟨0xFFFFF020, 0xFFFFF030⟩]

def topFunctions : List ImageFunction :=
  [⟨0x1010, some 0x1100, "f"⟩, ⟨0xFFFFF010, some 0, "g"⟩, ⟨0xFFFFF020, some 0xFFFFF030, "h"⟩]

theorem parse_topImage : parse topImage = .ok topHeaders := parse_of_headers rfl (by decide +kernel)

theorem list_topSymbols : list topHeaders.sections topSymbols topExtents = topFunctions := by
  rw [list, firstPerKey, List.mergeSort_of_pairwise (by decide)]
  decide +kernel

theorem infersEnd_topImage : parse topImage = .ok topHeaders ∧
    topHeaders.InfersEnd (list topHeaders.sections topSymbols topExtents) ⟨0x1010, some 0x1100, "f"⟩
      (some 0xFFFFF010) ∧
    FitsAt topHeaders.sections 0x1010 := by
  have hf : (list topHeaders.sections topSymbols topExtents)[0]? = some ⟨0x1010, some 0x1100, "f"⟩ := by
    rw [list_topSymbols]
    rfl
  have hnext : (list topHeaders.sections topSymbols topExtents)[1]?.map (·.start) = some 0xFFFFF010 := by
    rw [list_topSymbols]
    rfl
  have hends := infersEnd_list topHeaders topSymbols topExtents hf (by decide)
  rw [hnext] at hends
  have hsection : Section.find? topHeaders.sections 0x1010 = some ⟨"code", 0x100, 0x1000, 0, 0, 0⟩ := by decide
  exact ⟨parse_topImage, hends, (fitsAt_iff hsection).mpr (by decide)⟩

/-- The end of `g` wraps to zero, and so `g` is not found at its own start. -/
theorem wrapsToZero_topImage : parse topImage = .ok topHeaders ∧
    (⟨0xFFFFF010, some 0, "g"⟩ : ImageFunction) ∈ list topHeaders.sections topSymbols topExtents ∧
    (∀ x ∈ topExtents, x.start ≠ 0xFFFFF010) ∧ ¬(0xFFFFF010 : UInt32) < 0 ∧
    topHeaders.answer? (list topHeaders.sections topSymbols topExtents).toArray (.relative 0xFFFFF010) = none := by
  rw [list_topSymbols]
  exact ⟨parse_topImage, by decide, by decide, by decide, by decide +kernel⟩

end Image

end CodeAtlas
