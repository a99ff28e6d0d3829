import CodeAtlas.Database.InlineRange
import Mathlib.Algebra.GroupWithZero.Nat
import Mathlib.Data.List.Chain

namespace CodeAtlas.Database

/-- What the step adds to the place in the code. -/
def InlineStep.codeAdvance (a : InlineStep) : Nat :=
  match a.op with
  | .advance | .codeLength | .advanceAndLine => a.first.toNat
  | .lengthAndAdvance => (UInt32.ofInt a.second).toNat
  | _ => 0

namespace InlineRange

/-- The range starts at or before a place and, if it has a length, ends there or before. -/
structure EndsBy (r : InlineRange) (place : Nat) : Prop where
  offset_le : r.offset.toNat ≤ place
  stop_le : ∀ length, r.length = some length → r.offset.toNat + length.toNat ≤ place

theorem EndsBy.mono {r : InlineRange} {place place' : Nat} (h : r.EndsBy place) (hle : place ≤ place') :
    r.EndsBy place' :=
  ⟨Nat.le_trans h.offset_le hle, fun length hlength => Nat.le_trans (h.stop_le length hlength) hle⟩

/-- Ranges, latest first, that follow each other in the code. One without a length has the next one at its start. -/
structure Follow (rs : List InlineRange) : Prop where
  apart : rs.Pairwise fun next r => r.EndsBy next.offset.toNat
  closed : rs.IsChain fun next r => r.length = none → r.offset = next.offset

theorem follow_nil : Follow [] := ⟨.nil, .nil⟩

theorem follow_cons_iff {next : InlineRange} {rs : List InlineRange} : Follow (next :: rs) ↔
    (∀ r ∈ rs, r.EndsBy next.offset.toNat) ∧ (∀ r ∈ rs.head?, r.length = none → r.offset = next.offset) ∧
      Follow rs := by
  constructor
  · rintro ⟨hapart, hclosed⟩
    obtain ⟨hends, hapart⟩ := List.pairwise_cons.mp hapart
    obtain ⟨hhead, hclosed⟩ := List.isChain_cons.mp hclosed
    exact ⟨hends, hhead, hapart, hclosed⟩
  · rintro ⟨hends, hhead, hapart, hclosed⟩
    exact ⟨List.pairwise_cons.mpr ⟨hends, hapart⟩, List.isChain_cons.mpr ⟨hhead, hclosed⟩⟩

/-- The ranges follow each other and all end at or before a place. -/
structure FollowUpTo (rs : List InlineRange) (place : Nat) : Prop where
  follow : Follow rs
  endsBy : ∀ r ∈ rs, r.EndsBy place

theorem FollowUpTo.mono {rs : List InlineRange} {place place' : Nat} (h : FollowUpTo rs place)
    (hle : place ≤ place') : FollowUpTo rs place' :=
  ⟨h.follow, fun r hr => (h.endsBy r hr).mono hle⟩

/-- The latest range may get another length as long as it ends in time, since no other range depends on it. -/
theorem FollowUpTo.replace_head {r r' : InlineRange} {rs : List InlineRange} {place place' : Nat}
    (h : FollowUpTo (r :: rs) place) (hle : place ≤ place') (hoffset : r'.offset = r.offset) (hends : r'.EndsBy place') :
    FollowUpTo (r' :: rs) place' := by
  obtain ⟨hfollow, hplace⟩ := h
  rw [follow_cons_iff] at hfollow
  refine ⟨follow_cons_iff.mpr (hoffset ▸ hfollow), List.forall_mem_cons.mpr ⟨hends, fun q hq => ?_⟩⟩
  exact (hplace q (List.mem_cons_of_mem r hq)).mono hle

theorem followUpTo_setLength {rs : List InlineRange} {place : Nat} (h : FollowUpTo rs place) (length : UInt32) :
    FollowUpTo (setLength length rs) (place + length.toNat) := by
  cases rs with
  | nil => exact ⟨follow_nil, fun r hr => (List.not_mem_nil hr).elim⟩
  | cons r rs =>
    have hle : place ≤ place + length.toNat := Nat.le_add_right _ _
    have hr := h.endsBy r List.mem_cons_self
    rw [setLength]
    split
    next =>
      refine h.replace_head hle rfl ⟨Nat.le_trans hr.offset_le hle, fun own hown => ?_⟩
      cases hown
      exact Nat.add_le_add_right hr.offset_le _
    next => exact h.mono hle

theorem followUpTo_closeAt {rs : List InlineRange} {stop : UInt32} (h : FollowUpTo rs stop.toNat) :
    FollowUpTo (closeAt stop rs) stop.toNat ∧ ∀ r ∈ (closeAt stop rs).head?, r.length = none → r.offset = stop := by
  cases rs with
  | nil => exact ⟨h, fun r hr => by cases hr⟩
  | cons r rs =>
    have hr := h.endsBy r List.mem_cons_self
    rw [closeAt]
    split
    next hopen =>
      have hle : r.offset ≤ stop := UInt32.le_of_lt hopen.2
      refine ⟨h.replace_head (Nat.le_refl _) rfl ⟨hr.offset_le, fun own hown => ?_⟩, fun q hq hnone => ?_⟩
      · cases hown
        rw [UInt32.toNat_sub_of_le _ _ hle]
        exact Nat.le_of_eq (Nat.add_sub_of_le hr.offset_le)
      · cases hq
        cases hnone
    next hclosed =>
      -- A range that is left open does not start before the stop, nor, as it ends by then, behind it.
      refine ⟨h, fun q hq hnone => ?_⟩
      cases hq
      have hnot : ¬r.offset < stop := fun hlt => hclosed ⟨by rw [hnone]; rfl, hlt⟩
      exact UInt32.le_antisymm (UInt32.le_iff_toNat_le.mpr hr.offset_le) (UInt32.not_lt.mp hnot)

namespace State

/-- Where all code so far was counted from the start of the function, the ranges follow each other up to this place. -/
structure Forward (s : State) : Prop where
  base_eq : s.base = 0
  ranges : FollowUpTo s.ranges s.offset.toNat

theorem forward_begin {s : State} (h : s.Forward) : (s.begin none).Forward := by
  obtain ⟨hbase, hranges⟩ := h
  have hstart : s.base + s.offset = s.offset := by rw [hbase, UInt32.zero_add]
  obtain ⟨hclosed, hhead⟩ := followUpTo_closeAt hranges
  refine ⟨hbase, ?_⟩
  rw [begin, hstart]
  refine ⟨follow_cons_iff.mpr ⟨hclosed.endsBy, hhead, hclosed.follow⟩, List.forall_mem_cons.mpr ⟨?_, hclosed.endsBy⟩⟩
  exact ⟨Nat.le_refl _, fun length hlength => by cases hlength⟩

/-- A step forward in the code, whatever it does to the line. -/
theorem forward_advance {s : State} (h : s.Forward) {n : UInt32} (hlt : s.offset.toNat + n.toNat < 2 ^ 32)
    (line : UInt32) : ({ s with offset := s.offset + n, line := line } : State).Forward := by
  refine ⟨h.base_eq, h.ranges.mono ?_⟩
  show s.offset.toNat ≤ (s.offset + n).toNat
  rw [UInt32.toNat_add, Nat.mod_eq_of_lt hlt]
  exact Nat.le_add_right _ _

theorem forward_step {s : State} {a : InlineStep} (h : s.Forward)
    (hop : a.op ∉ [.codeOffset, .codeOffsetBase, .lengthAndAdvance]) (hlt : s.offset.toNat + a.codeAdvance < 2 ^ 32) :
    (s.step a).Forward ∧ (s.step a).offset.toNat = s.offset.toNat + a.codeAdvance := by
  obtain ⟨op, first, second⟩ := a
  have hadd : s.offset.toNat + first.toNat < 2 ^ 32 → (s.offset + first).toNat = s.offset.toNat + first.toNat := by
    intro hfirst
    rw [UInt32.toNat_add, Nat.mod_eq_of_lt hfirst]
  cases op with
  | codeOffset => exact absurd (by simp) hop
  | codeOffsetBase => exact absurd (by simp) hop
  | lengthAndAdvance => exact absurd (by simp) hop
  | advance => exact ⟨forward_begin (forward_advance h hlt s.line), hadd hlt⟩
  | advanceAndLine => exact ⟨forward_begin (forward_advance h hlt _), hadd hlt⟩
  | codeLength =>
    refine ⟨⟨h.base_eq, ?_⟩, hadd hlt⟩
    show FollowUpTo (setLength first s.ranges) (s.offset + first).toNat
    rw [hadd hlt]
    exact followUpTo_setLength h.ranges first
  | file | lineOffset | lineEndDelta | rangeKind | columnStart | columnEndDelta | columnEnd =>
    exact ⟨⟨h.base_eq, h.ranges⟩, rfl⟩

theorem forward_foldl_step {steps : List InlineStep} {s : State} (h : s.Forward)
    (hops : ∀ a ∈ steps, a.op ∉ [.codeOffset, .codeOffsetBase, .lengthAndAdvance])
    (hlt : s.offset.toNat + (steps.map (·.codeAdvance)).sum < 2 ^ 32) :
    (steps.foldl step s).Forward ∧
      (steps.foldl step s).offset.toNat = s.offset.toNat + (steps.map (·.codeAdvance)).sum := by
  induction steps generalizing s with
  | nil => exact ⟨h, rfl⟩
  | cons a steps ih =>
    obtain ⟨ha, hrest⟩ := List.forall_mem_cons.mp hops
    -- What is left of the sum is counted from the new place, so no later step wraps either.
    rw [List.map_cons, List.sum_cons, ← Nat.add_assoc] at hlt ⊢
    obtain ⟨hstep, hoffset⟩ := forward_step h ha (Nat.lt_of_le_of_lt (Nat.le_add_right _ _) hlt)
    rw [← hoffset] at hlt ⊢
    exact ih hstep hrest hlt

end State

/-- The ranges of a function in the order of the code: each ends before the next one starts, all end in the code that
the steps pass over, and one without a length is the last one or has the next one at its start. -/
structure InOrder (rs : List InlineRange) (total : Nat) : Prop where
  sorted : rs.Pairwise fun r next => r.offset ≤ next.offset
  apart : rs.Pairwise fun r next => ∀ length, r.length = some length → r.offset.toNat + length.toNat ≤ next.offset.toNat
  inside : ∀ r ∈ rs, r.EndsBy total
  closed : ∀ i r, rs[i]? = some r → r.length = none → i + 1 = rs.length ∨
    ∃ next, rs[i + 1]? = some next ∧ next.offset = r.offset

theorem inOrder_list {steps : List InlineStep}
    (hops : ∀ a ∈ steps, a.op ∉ [.codeOffset, .codeOffsetBase, .lengthAndAdvance])
    (hlt : (steps.map (·.codeAdvance)).sum < 2 ^ 32) (line file : UInt32) :
    InOrder (list steps line file) (steps.map (·.codeAdvance)).sum := by
  have hstart : (⟨0, 0, line, file, []⟩ : State).Forward := ⟨rfl, follow_nil, fun r hr => (List.not_mem_nil hr).elim⟩
  have hzero : (0 : UInt32).toNat = 0 := rfl
  obtain ⟨⟨-, ⟨hapart, hclosed⟩, hends⟩, hoffset⟩ :=
    State.forward_foldl_step hstart hops (by simpa using hlt)
  rw [hzero, Nat.zero_add] at hoffset
  rw [hoffset] at hends
  rw [← List.pairwise_reverse] at hapart
  rw [← List.isChain_reverse] at hclosed
  refine ⟨hapart.imp fun h => UInt32.le_iff_toNat_le.mpr h.offset_le, hapart.imp fun h => h.stop_le, fun r hr => ?_,
    fun i r hi hnone => ?_⟩
  · exact hends r (List.mem_reverse.mp hr)
  · obtain ⟨hlt, rfl⟩ := List.getElem?_eq_some_iff.mp hi
    rcases Nat.lt_or_ge (i + 1) (list steps line file).length with hnext | hlast
    · refine .inr ⟨_, List.getElem?_eq_getElem hnext, ?_⟩
      exact (List.isChain_iff_getElem.mp hclosed i hnext hnone).symm
    · exact .inl (by omega)

/-- Of two ranges that start together, the first one stays without a length, as does the last one. -/
theorem inOrder_sampleRanges :
    InOrder (list [⟨.advanceAndLine, 8, 1⟩, ⟨.codeLength, 8, 0⟩, ⟨.advance, 0, 0⟩, ⟨.advance, 0, 0⟩,
      ⟨.advanceAndLine, 4, -2⟩] 20 8) 20 ∧
    list [⟨.advanceAndLine, 8, 1⟩, ⟨.codeLength, 8, 0⟩, ⟨.advance, 0, 0⟩, ⟨.advance, 0, 0⟩,
      ⟨.advanceAndLine, 4, -2⟩] 20 8 = [⟨8, some 8, 21, 8⟩, ⟨16, none, 21, 8⟩, ⟨16, some 4, 21, 8⟩, ⟨20, none, 19, 8⟩] :=
  ⟨inOrder_list (by decide) (by decide) 20 8, by decide⟩

end InlineRange

end CodeAtlas.Database
