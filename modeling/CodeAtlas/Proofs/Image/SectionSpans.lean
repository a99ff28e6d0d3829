import CodeAtlas.Image.Section
import Mathlib.Algebra.Group.Nat.Defs

namespace CodeAtlas

namespace Section

/-- The first place after the section, which need not be an address. -/
def exactStop (s : Section) : Nat := s.address.toNat + s.memorySize.toNat

/-- The section takes up this place in memory. -/
def Spans (s : Section) (place : Nat) : Prop := s.address.toNat ≤ place ∧ place < s.exactStop

/-- Of the sections that take up a place, this is the first one. -/
def IsFirst (sections : List Section) (place : Nat) (s : Section) : Prop :=
  ∃ before after, sections = before ++ s :: after ∧ s.Spans place ∧ ∀ t ∈ before, ¬t.Spans place

variable {s : Section} {sections : List Section} {rva start : UInt32}

/-- The distance to the start of a section does not wrap, so testing it is exact. -/
theorem holds_iff : s.holds rva = true ↔ s.Spans rva.toNat := by
  rw [holds, Bool.and_eq_true, decide_eq_true_eq, decide_eq_true_eq, UInt32.le_iff_toNat_le, Spans, exactStop]
  refine and_congr_right fun hle => ?_
  rw [UInt32.lt_iff_toNat_lt, UInt32.toNat_sub_of_le _ _ (UInt32.le_iff_toNat_le.mpr hle)]
  omega

theorem find?_eq_some_iff : find? sections rva = some s ↔ IsFirst sections rva.toNat s := by
  rw [find?, List.find?_eq_some_iff_append, IsFirst]
  simp only [Bool.not_eq_true', ← Bool.not_eq_true, holds_iff]
  constructor
  · rintro ⟨hs, before, after, hsplit, hbefore⟩
    exact ⟨before, after, hsplit, hs, hbefore⟩
  · rintro ⟨before, after, hsplit, hs, hbefore⟩
    exact ⟨hs, before, after, hsplit, hbefore⟩

/-- Behind a place in a section only the end of the section counts. -/
theorem spans_iff_of_find? (hs : find? sections start = some s) (hle : start ≤ rva) :
    s.Spans rva.toNat ↔ rva.toNat < s.exactStop := by
  obtain ⟨-, -, -, hspans, -⟩ := find?_eq_some_iff.mp hs
  exact and_iff_right (Nat.le_trans hspans.1 (UInt32.le_iff_toNat_le.mp hle))

theorem toNat_stop_of_lt (h : s.exactStop < 2 ^ 32) : s.stop.toNat = s.exactStop := by
  rw [stop, UInt32.toNat_add]
  exact Nat.mod_eq_of_lt h

/-- The end of a section that passes the end of the address space comes out before the section. -/
theorem stop_lt_of_le (hs : s.Spans rva.toNat) (h : 2 ^ 32 ≤ s.exactStop) : s.stop < rva := by
  have haddress := s.address.toNat_lt
  have hsize := s.memorySize.toNat_lt
  rw [Spans, exactStop] at hs
  rw [exactStop] at h
  rw [UInt32.lt_iff_toNat_lt, stop, UInt32.toNat_add]
  omega

end Section

end CodeAtlas
