import CodeAtlas.Database.AddressMap
import CodeAtlas.Lookup.Sorting.Partition
import CodeAtlas.Proofs.Lookup.Ordered
import Mathlib.Data.List.MinMax
import Mathlib.Data.List.Nodup

namespace CodeAtlas

namespace Bisection

variable {α : Type} [DecidableEq α] {key : α → UInt32} {xs ys : List α} {k : UInt32}

theorem argmax_filter_eq_some_iff (h : (xs.map key).Nodup) {x : α} :
    (xs.filter (key · ≤ k)).argmax (fun x => (key x).toNat) = some x ↔
      x ∈ xs ∧ key x ≤ k ∧ ∀ y ∈ xs, key y ≤ k → key y ≤ key x := by
  simp only [List.argmax_eq_some_iff, List.mem_filter, decide_eq_true_eq, and_imp, and_assoc, ← UInt32.le_iff_toNat_le]
  refine and_congr_right fun hx => and_congr_right fun _ => and_iff_left_of_imp fun hle y hy hyk hxy => ?_
  rw [List.inj_on_of_nodup_map h hx hy (UInt32.le_antisymm hxy (hle y hy hyk))]

theorem argmax_filter_perm (hperm : ys.Perm xs) (h : (xs.map key).Nodup) :
    (ys.filter (key · ≤ k)).argmax (fun x => (key x).toNat) =
      (xs.filter (key · ≤ k)).argmax fun x => (key x).toNat := by
  have hys : (ys.map key).Nodup := (hperm.map key).nodup_iff.mpr h
  refine Option.ext fun x => ?_
  rw [argmax_filter_eq_some_iff hys, argmax_filter_eq_some_iff h]
  simp only [hperm.mem_iff]

/-- Where no two keys are the same, bisection of the sorted elements finds what looking through all of them finds. -/
theorem lastAtMost?_sort_eq_argmax [Sorting] (h : (xs.map key).Nodup) :
    lastAtMost? key (Sorting.sort key xs).toArray k = (xs.filter (key · ≤ k)).argmax fun x => (key x).toNat := by
  refine Option.ext fun x => ?_
  rw [lastAtMost?_eq_some_iff (Sorting.increasing_sort h), argmax_filter_eq_some_iff h]
  simp only [Sorting.mem_sort]

end Bisection

namespace Database

/-- Looks through all moves, in whatever order they are. Without moves an address stays. Otherwise the move with the
greatest source up to the address carries it along, modulo 2^32, or takes it away if its target is zero. -/
def scan? (moves : List Move) (rva : UInt32) : Option UInt32 :=
  if moves = [] then some rva
  else ((moves.filter (·.source ≤ rva)).argmax (·.source.toNat)).bind fun m =>
    if m.target = 0 then none else some (.ofNat (m.target.toNat + (rva.toNat - m.source.toNat)))

namespace AddressMap

variable {sections : List Section} {moves others : List Move}

theorem isEmpty_moves_make [Sorting] : (make sections moves).moves.isEmpty = true ↔ moves = [] := by
  rw [make, List.isEmpty_toArray, List.isEmpty_iff, ← List.length_eq_zero_iff, (Sorting.perm _ _).length_eq,
    List.length_eq_zero_iff]

theorem moved?_make [Sorting] (h : (moves.map (·.source)).Nodup) (rva : UInt32) :
    (make sections moves).moved? rva = scan? moves rva := by
  rw [moved?, scan?]
  by_cases hempty : moves = []
  · rw [if_pos (isEmpty_moves_make.mpr hempty), if_pos hempty]
  · rw [if_neg (mt isEmpty_moves_make.mp hempty), if_neg hempty, make, Bisection.lastAtMost?_sort_eq_argmax h]
    cases hm : (moves.filter (·.source ≤ rva)).argmax (·.source.toNat) with
    | none => rfl
    | some m =>
      have hle : m.source ≤ rva := of_decide_eq_true (List.mem_filter.mp (List.argmax_mem hm)).2
      have hmoved : m.target + (rva - m.source) = .ofNat (m.target.toNat + (rva.toNat - m.source.toNat)) := by
        rw [← UInt32.toNat_inj, UInt32.toNat_add, UInt32.toNat_sub_of_le _ _ hle, UInt32.toNat_ofNat']
      rw [Option.bind_some, ← hmoved]

/-- The order of the moves does not show. -/
theorem scan?_perm (hperm : others.Perm moves) (h : (moves.map (·.source)).Nodup) (rva : UInt32) :
    scan? others rva = scan? moves rva := by
  have hempty : others = [] ↔ moves = [] := by
    rw [← List.length_eq_zero_iff, hperm.length_eq, List.length_eq_zero_iff]
  simp only [scan?, hempty, Bisection.argmax_filter_perm hperm h]

theorem rva?_of_section {m : AddressMap} {number : UInt16} {s : Section} (hpos : 0 < number.toNat)
    (hs : m.sections[number.toNat - 1]? = some s) (offset : UInt32) :
    m.rva? number offset = m.moved? (.ofNat (s.address.toNat + offset.toNat)) := by
  have hne : number ≠ 0 := fun hzero => by
    rw [hzero] at hpos
    exact Nat.lt_irrefl 0 hpos
  have hsum : s.address + offset = .ofNat (s.address.toNat + offset.toNat) := by
    rw [← UInt32.toNat_inj, UInt32.toNat_add, UInt32.toNat_ofNat']
  rw [rva?, if_neg hne, hs, Option.bind_some, hsum]

theorem rva?_eq_none {m : AddressMap} {number : UInt16} (h : number.toNat = 0 ∨ m.sections.length < number.toNat)
    (offset : UInt32) : m.rva? number offset = none := by
  rw [rva?]
  split
  next => rfl
  next hne =>
    have hpos : number.toNat ≠ 0 := fun hzero => hne (UInt16.toNat_inj.mp hzero)
    rw [List.getElem?_eq_none (by omega), Option.bind_none]

/-- Positions in sections are turned into addresses as if the moves were looked through one by one, whatever their
order. -/
structure ScansMoves [Sorting] (sections : List Section) (moves : List Move) : Prop where
  moved?_eq : ∀ others, others.Perm moves → ∀ rva, (make sections others).moved? rva = scan? moves rva
  rva?_eq : ∀ others, others.Perm moves → ∀ (number : UInt16) s, 0 < number.toNat →
    sections[number.toNat - 1]? = some s → ∀ offset,
      (make sections others).rva? number offset = scan? moves (.ofNat (s.address.toNat + offset.toNat))
  rva?_eq_none : ∀ others, others.Perm moves → ∀ number : UInt16,
    number.toNat = 0 ∨ sections.length < number.toNat → ∀ offset, (make sections others).rva? number offset = none

theorem scansMoves_of_nodup [Sorting] (sections : List Section) {moves : List Move} (h : (moves.map (·.source)).Nodup) :
    ScansMoves sections moves := by
  have hmoved : ∀ others, others.Perm moves → ∀ rva, (make sections others).moved? rva = scan? moves rva := by
    intro others hperm rva
    have hothers : (others.map (·.source)).Nodup := (hperm.map _).nodup_iff.mpr h
    rw [moved?_make hothers, scan?_perm hperm h]
  refine ⟨hmoved, fun others hperm number s hpos hs offset => ?_, fun others _ number hout offset => ?_⟩
  · rw [rva?_of_section hpos hs, hmoved others hperm]
  · exact rva?_eq_none hout offset

/-- Three moves that are not in order; the code from `0x2000` on is gone. -/
def unorderedMoves : List Move := [⟨0x2000, 0⟩, ⟨0x1000, 0x5000⟩, ⟨0x3000, 0xFFFFFF00⟩]

open scoped Sorting

theorem scansMoves_unorderedMoves : (unorderedMoves.map (·.source)).Nodup ∧
    ScansMoves [⟨"code", 0x3000, 0x1000, 0, 0, 0⟩] unorderedMoves ∧
    [0xFFF, 0x1000, 0x1FFF, 0x2000, 0x3180].map (scan? unorderedMoves) =
      [none, some 0x5000, some 0x5FFF, none, some 0x80] :=
  ⟨by decide, scansMoves_of_nodup _ (by decide), by decide⟩

end AddressMap

end Database

end CodeAtlas
