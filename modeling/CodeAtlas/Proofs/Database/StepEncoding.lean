import CodeAtlas.Proofs.Bytes.Holds
import CodeAtlas.Proofs.Database.NumberForms
import Mathlib.Algebra.Group.Int.Defs

namespace CodeAtlas.Database

/-- A number in a form that is wide enough for it. -/
structure WrittenNumber where
  value : Nat
  form : NumberForm
  value_lt : value < form.limit

namespace WrittenNumber

def bytes (w : WrittenNumber) : List UInt8 := w.form.bytes w.value

theorem readCompressed?_append (w : WrittenNumber) (rest : List UInt8) :
    readCompressed? (w.bytes ++ rest) = some (.ofNat w.value, rest) := readCompressed?_bytes w.value_lt rest

theorem toNat_ofNat (w : WrittenNumber) : (UInt32.ofNat w.value).toNat = w.value := by
  have hlt := w.value_lt
  have hle := w.form.limit_le
  rw [UInt32.toNat_ofNat']
  omega

end WrittenNumber

theorem toNat_shiftRight_four (n : UInt32) : (n >>> 4).toNat = n.toNat / 2 ^ 4 := by
  rw [UInt32.toNat_shiftRight]
  exact Nat.shiftRight_eq_div_pow n.toNat 4

theorem toNat_and_low_four (n : UInt32) : (n &&& 0xF).toNat = n.toNat % 2 ^ 4 := by
  rw [UInt32.toNat_and]
  exact Nat.and_two_pow_sub_one_eq_mod n.toNat 4

/-- A signed number as it is written, the sign in the lowest bit. -/
def signForm (d : Int) : Nat := 2 * d.natAbs + if d < 0 then 1 else 0

theorem signedOperand_eq (n : UInt32) :
    signedOperand n = if n.toNat % 2 = 0 then ((n.toNat / 2 : Nat) : Int) else -((n.toNat / 2 : Nat) : Int) := by
  have hlow : n &&& 1 = 0 ↔ n.toNat % 2 = 0 := by
    rw [← UInt32.toNat_inj, UInt32.toNat_and]
    exact Iff.of_eq (congrArg (· = 0) (Nat.and_one_is_mod n.toNat))
  have hhalf : (n >>> 1).toNat = n.toNat / 2 := by
    rw [UInt32.toNat_shiftRight]
    exact Nat.shiftRight_eq_div_pow n.toNat 1
  rw [signedOperand, hhalf]
  exact if_congr hlow rfl rfl

theorem signedOperand_of_toNat_eq {n : UInt32} {d : Int} (h : n.toNat = signForm d) : signedOperand n = d := by
  rw [signedOperand_eq, h, signForm]
  split <;> split <;> omega

namespace InlineOp

theorem ofNumber?_number (op : InlineOp) : ofNumber? op.number = some op := by cases op <;> rfl

theorem number_lt (op : InlineOp) : op.number < 2 ^ 7 := by cases op <;> decide

end InlineOp

namespace InlineStep

/-- The operands as they are written. Behind a signed number there is room for four bits. -/
def operands (a : InlineStep) : List Nat :=
  match a.op with
  | .lengthAndAdvance => [a.first.toNat, a.second.toNat]
  | .advanceAndLine => [signForm a.second * 2 ^ 4 + a.first.toNat]
  | _ => [a.first.toNat]

/-- The numbers that make up a step. -/
def numbers (a : InlineStep) : List Nat := a.op.number :: a.operands

/-- The operands fit into the widest form, and only a step with a second operand has one. -/
def Representable (a : InlineStep) : Prop :=
  match a.op with
  | .lengthAndAdvance => a.first.toNat < 2 ^ 29 ∧ 0 ≤ a.second ∧ a.second < 2 ^ 29
  | .advanceAndLine => a.first.toNat < 2 ^ 4 ∧ signForm a.second * 2 ^ 4 < 2 ^ 29
  | _ => a.first.toNat < 2 ^ 29 ∧ a.second = 0

variable {a : InlineStep}

theorem operands_lt (h : a.Representable) : ∀ n ∈ a.operands, n < 2 ^ 29 := by
  unfold Representable at h
  unfold operands
  split at h
  next =>
    rw [List.forall_mem_cons, List.forall_mem_singleton]
    omega
  next =>
    rw [List.forall_mem_singleton]
    omega
  next =>
    rw [List.forall_mem_singleton]
    exact h.1

theorem numbers_lt (h : a.Representable) : ∀ n ∈ a.numbers, n < 2 ^ 29 := by
  have hop := a.op.number_lt
  exact List.forall_mem_cons.mpr ⟨by omega, operands_lt h⟩

/-- The widest form is wide enough for all numbers of steps. -/
theorem exists_written {ns : List Nat} (h : ∀ n ∈ ns, n < 2 ^ 29) :
    ∃ ws : List WrittenNumber, ws.map (·.value) = ns := by
  induction ns with
  | nil => exact ⟨[], rfl⟩
  | cons n ns ih =>
    obtain ⟨hn, hns⟩ := List.forall_mem_cons.mp h
    obtain ⟨ws, rfl⟩ := ih hns
    exact ⟨⟨n, .fourBytes, hn⟩ :: ws, rfl⟩

theorem exists_singleton {os : List WrittenNumber} {n : Nat} (h : os.map (·.value) = [n]) :
    ∃ w, os = [w] ∧ w.value = n := by
  obtain ⟨w, rest, rfl, hw, hrest⟩ := List.map_eq_cons_iff.mp h
  exact ⟨w, by rw [List.map_eq_nil_iff.mp hrest], hw⟩

theorem complete?_of_operands (h : a.Representable) {os : List WrittenNumber} (hos : os.map (·.value) = a.operands)
    (rest : List UInt8) :
    ((readCompressed? (os.flatMap WrittenNumber.bytes ++ rest)).bind fun x => complete? a.op x.1 x.2) =
      some (a, rest) := by
  obtain ⟨op, first, second⟩ := a
  unfold Representable at h
  unfold operands at hos
  split at h
  next heq =>
    cases heq
    obtain ⟨w, ws, rfl, hfirst, hws⟩ := List.map_eq_cons_iff.mp hos
    obtain ⟨v, rfl, hsecond⟩ := exists_singleton hws
    have hv : ((UInt32.ofNat v.value).toNat : Int) = second := by
      rw [v.toNat_ofNat]
      dsimp only at hsecond h
      omega
    have hw : UInt32.ofNat w.value = first := by rw [hfirst, UInt32.ofNat_toNat]
    simp only [List.flatMap_cons, List.flatMap_nil, List.append_nil, List.append_assoc,
      WrittenNumber.readCompressed?_append, Option.bind_some, complete?, Option.map_some, hv, hw]
  next heq =>
    cases heq
    obtain ⟨w, rfl, hvalue⟩ := exists_singleton hos
    have hsecond : signedOperand (UInt32.ofNat w.value >>> 4) = second := by
      refine signedOperand_of_toNat_eq ?_
      rw [toNat_shiftRight_four, w.toNat_ofNat]
      dsimp only at h hvalue
      omega
    have hfirst : UInt32.ofNat w.value &&& 0xF = first := by
      apply UInt32.toNat_inj.mp
      rw [toNat_and_low_four, w.toNat_ofNat]
      dsimp only at h hvalue
      omega
    simp only [List.flatMap_cons, List.flatMap_nil, List.append_nil,
      WrittenNumber.readCompressed?_append, Option.bind_some, complete?, hsecond, hfirst]
  next hlength hline =>
    dsimp only at hos h
    split at hos
    next => exact absurd rfl hlength
    next => exact absurd rfl hline
    next =>
      obtain ⟨w, rfl, hvalue⟩ := exists_singleton hos
      have hfirst : UInt32.ofNat w.value = first := by rw [hvalue, UInt32.ofNat_toNat]
      simp only [List.flatMap_cons, List.flatMap_nil, List.append_nil, WrittenNumber.readCompressed?_append,
        Option.bind_some, complete?, hfirst, h.2]

theorem read?_of_numbers (h : a.Representable) {ns : List WrittenNumber} (hns : ns.map (·.value) = a.numbers)
    (rest : List UInt8) : read? (ns.flatMap WrittenNumber.bytes ++ rest) = some (a, rest) := by
  obtain ⟨o, os, rfl, ho, hos⟩ := List.map_eq_cons_iff.mp hns
  have hop : InlineOp.ofNumber? (UInt32.ofNat o.value).toNat = some a.op := by
    rw [o.toNat_ofNat, ho, InlineOp.ofNumber?_number]
  rw [List.flatMap_cons, List.append_assoc]
  simp only [read?, Option.bind_eq_bind, o.readCompressed?_append, Option.bind_some, hop]
  exact complete?_of_operands h hos rest

theorem list_of_read? {bs rest : List UInt8} (h : read? bs = some (a, rest)) : list bs = a :: list rest := by
  rw [list]
  split
  next hnone => rw [h] at hnone; cases hnone
  next b tail hsome =>
    rw [h] at hsome
    cases hsome
    rfl

theorem list_of_read?_eq_none {bs : List UInt8} (h : read? bs = none) : list bs = [] := by
  rw [list]
  split
  next => rfl
  next hsome => rw [h] at hsome; cases hsome

/-- Zero is the number of no step, so zeros behind the last one end the program. -/
theorem list_replicate_zero (padding : Nat) : list (List.replicate padding 0) = [] := by
  apply list_of_read?_eq_none
  cases padding with
  | zero => rfl
  | succ n => rfl

theorem list_of_numbers {steps : List InlineStep} (hsteps : ∀ a ∈ steps, a.Representable) {ns : List WrittenNumber}
    (hns : ns.map (·.value) = steps.flatMap numbers) (padding : Nat) :
    list (ns.flatMap WrittenNumber.bytes ++ List.replicate padding 0) = steps := by
  induction steps generalizing ns with
  | nil =>
    rw [List.map_eq_nil_iff.mp hns]
    exact list_replicate_zero padding
  | cons a steps ih =>
    obtain ⟨ha, hrest⟩ := List.forall_mem_cons.mp hsteps
    -- The forms are chosen freely, but the numbers alone tell which of them belong to the first step.
    obtain ⟨own, others, rfl, hown, hothers⟩ := List.map_eq_append_iff.mp hns
    rw [List.flatMap_append, List.append_assoc, list_of_read? (read?_of_numbers ha hown _), ih hrest hothers]

/-- The bytes of each step are a piece of what is there, two at least. -/
theorem length_add_two_le_of_read? {bs rest : List UInt8} (h : read? bs = some (a, rest)) :
    rest.length + 2 ≤ bs.length := by
  simp only [read?, Option.bind_eq_bind, Option.bind_eq_some_iff, Prod.exists] at h
  obtain ⟨_, _, h1, op, _, _, _, h2, h⟩ := h
  have l1 := length_lt_of_readCompressed? h1
  have l2 := length_lt_of_readCompressed? h2
  have l3 := length_le_of_complete? h
  omega

theorem two_mul_length_list_le (bs : List UInt8) : 2 * (list bs).length ≤ bs.length := by
  fun_induction list bs with
  | case1 bs h => exact Nat.zero_le _
  | case2 bs a rest h ih =>
    have hrest := length_add_two_le_of_read? h
    rw [List.length_cons]
    omega

end InlineStep

section Positions

variable {data : Bytes} {offset next : Nat} {n : UInt32}

/-- A number is found at an offset if and only if it is written there in one of the three forms. -/
theorem compressedAt?_eq_some_iff : compressedAt? data offset = some (n, next) ↔
    ∃ w : WrittenNumber, data.Holds offset w.bytes ∧ n = .ofNat w.value ∧ next = offset + w.form.width := by
  rw [compressedAt?, Option.map_eq_some_iff]
  constructor
  · rintro ⟨⟨m, rest⟩, hread, heq⟩
    obtain ⟨rfl, rfl⟩ := Prod.mk.inj heq
    obtain ⟨form, hm, hbytes⟩ := readCompressed?_eq_some_iff.mp hread
    have hlength := congrArg List.length hbytes
    rw [List.length_drop, Array.length_toList, List.length_append, form.length_bytes] at hlength
    have hwidth := form.width_cases
    refine ⟨⟨m.toNat, form, hm⟩, ⟨data.toList.take offset, rest, ?_, ?_⟩, UInt32.ofNat_toNat.symm, ?_⟩
    · rw [List.length_take, Array.length_toList]
      omega
    · rw [List.append_assoc, WrittenNumber.bytes, ← hbytes, List.take_append_drop]
    · show data.size - rest.length = offset + form.width
      omega
  · rintro ⟨w, hholds, rfl, rfl⟩
    have hsize := hholds.le_size
    obtain ⟨before, after, rfl, hdata⟩ := hholds
    have hdrop : data.toList.drop before.length = w.bytes ++ after := by
      rw [hdata, List.append_assoc, List.drop_left]
    have hlength := congrArg List.length hdata
    rw [Array.length_toList, List.length_append, List.length_append, WrittenNumber.bytes,
      w.form.length_bytes] at hlength
    refine ⟨_, by rw [hdrop, w.readCompressed?_append], Prod.ext rfl ?_⟩
    show data.size - after.length = before.length + w.form.width
    omega

/-- Reading goes on behind the number that was found. -/
theorem readCompressed?_drop (data : Bytes) (offset : Nat) : readCompressed? (data.toList.drop offset) =
    (compressedAt? data offset).map fun x => (x.1, data.toList.drop x.2) := by
  cases h : compressedAt? data offset with
  | none => exact Option.map_eq_none_iff.mp h
  | some found =>
    obtain ⟨n, next⟩ := found
    obtain ⟨w, ⟨before, after, rfl, hdata⟩, rfl, rfl⟩ := compressedAt?_eq_some_iff.mp h
    have hwidth : before.length + w.form.width = (before ++ w.bytes).length := by
      rw [List.length_append, WrittenNumber.bytes, w.form.length_bytes]
    rw [Option.map_some, hwidth, hdata, List.drop_left, List.append_assoc, List.drop_left,
      w.readCompressed?_append]

/-- Reading at a position that moves behind a number that is found, and only then. -/
def takeNumber (data : Bytes) : StateM Nat (Option UInt32) := fun offset =>
  match compressedAt? data offset with
  | some (n, next) => (some n, next)
  | none => (none, offset)

/-- How taking a number moves the position, whatever the bytes are. -/
structure MovesOn (data : Bytes) (offset : Nat) : Prop where
  inside : offset ≤ data.size → ((takeNumber data).run offset).2 ≤ data.size
  stays : ((takeNumber data).run offset).1 = none → ((takeNumber data).run offset).2 = offset
  advances : ∀ n, ((takeNumber data).run offset).1 = some n →
    ∃ width ∈ [1, 2, 4], ((takeNumber data).run offset).2 = offset + width ∧ offset + width ≤ data.size
  readsOn : readCompressed? (data.toList.drop offset) = ((takeNumber data).run offset).1.map fun n =>
    (n, data.toList.drop ((takeNumber data).run offset).2)

theorem movesOn (data : Bytes) (offset : Nat) : MovesOn data offset := by
  cases h : compressedAt? data offset with
  | none =>
    have hrun : (takeNumber data).run offset = (none, offset) := by simp only [takeNumber, StateT.run, h]
    refine ⟨fun hle => ?_, fun _ => ?_, fun n hn => ?_, ?_⟩
    · rwa [hrun]
    · rw [hrun]
    · rw [hrun] at hn
      cases hn
    · rw [readCompressed?_drop, h, hrun]
      rfl
  | some found =>
    obtain ⟨m, next⟩ := found
    have hrun : (takeNumber data).run offset = (some m, next) := by simp only [takeNumber, StateT.run, h]
    obtain ⟨w, hholds, -, rfl⟩ := compressedAt?_eq_some_iff.mp h
    have hsize := hholds.le_size
    rw [WrittenNumber.bytes, w.form.length_bytes] at hsize
    refine ⟨fun _ => ?_, fun hnone => ?_, fun n _ => ⟨w.form.width, ?_, ?_, hsize⟩, ?_⟩
    · rwa [hrun]
    · rw [hrun] at hnone
      cases hnone
    · simpa using w.form.width_cases
    · rw [hrun]
    · rw [readCompressed?_drop, h, hrun]
      rfl

end Positions

namespace InlineStep

/-- Decoding undoes writing, and on bytes of any kind it moves on and ends. -/
structure UndoesWriting (steps : List InlineStep) : Prop where
  writable : ∃ ns : List WrittenNumber, ns.map (·.value) = steps.flatMap numbers
  list_eq : ∀ ns : List WrittenNumber, ns.map (·.value) = steps.flatMap numbers → ∀ padding,
    list (ns.flatMap WrittenNumber.bytes ++ List.replicate padding 0) = steps
  movesOn : ∀ data offset, MovesOn data offset
  ends : ∀ bs, 2 * (list bs).length ≤ bs.length

theorem undoesWriting {steps : List InlineStep} (h : ∀ a ∈ steps, a.Representable) : UndoesWriting steps where
  writable := exists_written fun n hn => by
    obtain ⟨a, ha, hna⟩ := List.mem_flatMap.mp hn
    exact numbers_lt (h a ha) n hna
  list_eq _ hns padding := list_of_numbers h hns padding
  movesOn := movesOn
  ends := two_mul_length_list_le

/-- Steps with the greatest operands and with a line before the last one. -/
def sampleSteps : List InlineStep :=
  [⟨.codeOffset, 0x1FFFFFFF, 0⟩, ⟨.advanceAndLine, 15, -3⟩, ⟨.lengthAndAdvance, 200, 0x1FFFFFFF⟩]

/-- Their numbers in forms of all three widths, some wider than they have to be. -/
def sampleNumbers : List WrittenNumber :=
  [⟨1, .twoBytes, by decide⟩, ⟨0x1FFFFFFF, .fourBytes, by decide⟩, ⟨11, .fourBytes, by decide⟩,
    ⟨0x7F, .oneByte, by decide⟩, ⟨12, .oneByte, by decide⟩, ⟨200, .twoBytes, by decide⟩,
    ⟨0x1FFFFFFF, .fourBytes, by decide⟩]

theorem undoesWriting_sampleSteps : UndoesWriting sampleSteps ∧
    sampleNumbers.map (·.value) = sampleSteps.flatMap numbers ∧
    list [0x80, 0x01, 0xDF, 0xFF, 0xFF, 0xFF, 0xC0, 0x00, 0x00, 0x0B, 0x7F, 0x0C, 0x80, 0xC8, 0xDF, 0xFF, 0xFF, 0xFF,
      0x00, 0x00] = sampleSteps := by
  have hnumbers : sampleNumbers.map (·.value) = sampleSteps.flatMap numbers := by decide
  have h : UndoesWriting sampleSteps := undoesWriting fun a ha => by
    simp only [sampleSteps, List.mem_cons, List.not_mem_nil, or_false] at ha
    rcases ha with rfl | rfl | rfl
    all_goals
      dsimp only [Representable]
      decide
  exact ⟨h, hnumbers, h.list_eq sampleNumbers hnumbers 2⟩

end InlineStep

end CodeAtlas.Database
