import CodeAtlas.Proofs.Bytes.Reading

namespace CodeAtlas

/-- A use of a cursor. Widths, counts and positions are machine words. -/
inductive Request
  | value (width : UInt64)
  | peek (width : UInt64)
  | values (count width : UInt64)
  | bytes (count : UInt64)
  | cstring
  | skip (count : UInt64)
  | align (alignment : UInt64) (ne_zero : alignment ≠ 0)
  | seek (pos : UInt64)

/-- What a request hands out. -/
inductive Reply
  | number (n : Nat)
  | numbers (ns : List Nat)
  | bytes (bs : Bytes)
  | text (t : Text)
  | nothing

/-- The bytes at a position, as far as there are any. -/
def Bytes.stretch (data : Bytes) (pos count : Nat) : List UInt8 := (data.toList.drop pos).take count

theorem Bytes.toArray_stretch (data : Bytes) (pos count : Nat) :
    (data.stretch pos count).toArray = data.extract pos (pos + count) := by
  apply Array.toList_inj.mp
  rw [Array.toList_extract, List.extract_eq_take_drop, Nat.add_sub_cancel_left, Bytes.stretch]

namespace Request

/-- A position behind the last byte is still one of the data, a later one is not. -/
def within? (data : Bytes) (stop : Nat) : Option Nat := if stop ≤ data.size then some stop else none

/-- Where a request ends that is made at a position, if what it asks for is there. Positions are exact numbers, and
alignment goes to the least multiple that is not before the position. -/
def stop? (data : Bytes) (pos : Nat) : Request → Option Nat
  | value width => within? data (pos + width.toNat)
  | peek _ => some pos
  | values count width => within? data (pos + count.toNat * width.toNat)
  | bytes count => within? data (pos + count.toNat)
  | cstring => if 0 ∈ data.toList.drop pos then some (pos + (data.toList.drop pos).idxOf 0 + 1) else none
  | skip count => within? data (pos + count.toNat)
  | align alignment _ => within? data ((pos + (alignment.toNat - 1)) / alignment.toNat * alignment.toNat)
  | seek target => within? data target.toNat

/-- What the data say at a position, for a request that fits there. Only a peek may look past the end, at a zero. -/
def reply (data : Bytes) (pos : Nat) : Request → Reply
  | value width => .number (leValue (data.stretch pos width.toNat))
  | peek width => .number (if pos + width.toNat ≤ data.size then leValue (data.stretch pos width.toNat) else 0)
  | values count width =>
    .numbers ((List.range count.toNat).map fun i => leValue (data.stretch (pos + i * width.toNat) width.toNat))
  | bytes count => .bytes (data.stretch pos count.toNat).toArray
  | cstring => .text ((data.toList.drop pos).takeWhile (· != 0))
  | _ => .nothing

/-- The replies to requests that all fit, and where the last of them ends. -/
def replies? (data : Bytes) : Nat → List Request → Option (List Reply × Nat)
  | pos, [] => some ([], pos)
  | pos, r :: rs => do
    let stop ← r.stop? data pos
    let (replies, last) ← replies? data stop rs
    some (r.reply data pos :: replies, last)

/-- The number of bytes is known before the request is made. -/
inductive IsPlain : Request → Prop
  | value (width : UInt64) : IsPlain (value width)
  | bytes (count : UInt64) : IsPlain (bytes count)
  | skip (count : UInt64) : IsPlain (skip count)

/-- How many bytes a request of that kind is for. -/
def length : Request → Nat
  | value width => width.toNat
  | bytes count => count.toNat
  | skip count => count.toNat
  | _ => 0

/-- The replies to requests of that kind that all fit. -/
def repliesAt (data : Bytes) : Nat → List Request → List Reply
  | _, [] => []
  | pos, r :: rs => r.reply data pos :: repliesAt data (pos + r.length) rs

theorem IsPlain.stop? {r : Request} (h : r.IsPlain) (data : Bytes) (pos : Nat) :
    r.stop? data pos = within? data (pos + r.length) := by
  cases h <;> rfl

end Request

namespace Cursor

def perform : Request → Cursor → Reply × Cursor
  | .value width, c => (.number (c.value width.toNat).1, (c.value width.toNat).2)
  | .peek width, c => (.number (c.peek width.toNat), c)
  | .values count width, c =>
    let (ns, c) := (Reader.times count.toNat (value width.toNat)).run c
    (.numbers ns, c)
  | .bytes count, c => (.bytes (c.bytes count.toNat).1, (c.bytes count.toNat).2)
  | .cstring, c => (.text c.cstring.1, c.cstring.2)
  | .skip count, c => (.nothing, c.skip count.toNat)
  | .align alignment _, c => (.nothing, c.align alignment.toNat)
  | .seek pos, c => (.nothing, c.seek pos.toNat)

def performAll : List Request → Cursor → List Reply × Cursor
  | [], c => ([], c)
  | r :: rs, c =>
    let (reply, c) := perform r c
    let (replies, c) := performAll rs c
    (reply :: replies, c)

/-- The cursor after the first `n` requests. -/
def after (data : Bytes) (rs : List Request) (n : Nat) : Cursor := (performAll (rs.take n) (ofBytes data)).2

variable {c : Cursor}

@[simp] theorem data_spoil (c : Cursor) : c.spoil.data = c.data := rfl

@[simp] theorem data_advance (n : Nat) (c : Cursor) : (c.advance n).data = c.data := rfl

@[simp] theorem overrun_spoil (c : Cursor) : c.spoil.overrun = true := rfl

@[simp] theorem pos_advance (n : Nat) (c : Cursor) : (c.advance n).pos = c.pos + n := rfl

theorem advance_zero (c : Cursor) : c.advance 0 = c := rfl

theorem spoil_advance (n : Nat) (c : Cursor) : (c.advance n).spoil = c.spoil := rfl

theorem spoil_spoil (c : Cursor) : c.spoil.spoil = c.spoil := rfl

theorem left_spoil (c : Cursor) : c.spoil.left = 0 := Nat.sub_self _

theorem le_left_iff (hc : c.pos ≤ c.data.size) {n : Nat} : n ≤ c.left ↔ c.pos + n ≤ c.data.size := by
  rw [left]
  omega

theorem left_lt_iff (hc : c.pos ≤ c.data.size) {n : Nat} : c.left < n ↔ c.data.size < c.pos + n := by
  rw [left]
  omega

theorem lt_left_iff {n : Nat} : n < c.left ↔ c.pos + n < c.data.size := by
  rw [left]
  omega

theorem bytes_of_le {n : Nat} (h : n ≤ c.left) : c.bytes n = ((c.data.stretch c.pos n).toArray, c.advance n) := by
  rw [bytes, if_pos h, Bytes.toArray_stretch]

theorem bytes_of_lt {n : Nat} (h : c.left < n) : c.bytes n = (#[], c.spoil) := by
  rw [bytes, if_neg (Nat.not_le.mpr h)]

theorem value_of_le {n : Nat} (h : n ≤ c.left) : c.value n = (leValue (c.data.stretch c.pos n), c.advance n) := by
  simp only [value, bytes_of_le h]

theorem value_of_lt {n : Nat} (h : c.left < n) : c.value n = (0, c.spoil) := by
  simp only [value, bytes_of_lt h]
  rfl

theorem left_advance (n : Nat) (c : Cursor) : (c.advance n).left = c.left - n := by
  simp only [left, advance]
  omega

theorem times_value_of_le {count width : Nat} (h : count * width ≤ c.left) :
    (Reader.times count (value width)).run c =
      ((List.range count).map fun i => leValue (c.data.stretch (c.pos + i * width) width),
        c.advance (count * width)) := by
  induction count generalizing c with
  | zero => simp only [Nat.zero_mul, advance_zero, List.range_zero, List.map_nil]; rfl
  | succ count ih =>
    rw [Nat.succ_mul] at h
    have hrest := ih (c := c.advance width) (by rw [left_advance]; omega)
    have hv := value_of_le (c := c) (n := width) (by omega)
    have hindex : ∀ i, c.pos + width + i * width = c.pos + (i + 1) * width := fun i => by rw [Nat.succ_mul]; omega
    change (let p := (Reader.times count (value width)).run (c.value width).2; ((c.value width).1 :: p.1, p.2)) = _
    rw [hv]
    dsimp only
    rw [hrest, advance_advance, List.range_succ_eq_map, List.map_cons, List.map_map, Nat.zero_mul, Nat.add_zero,
      Nat.succ_mul, Nat.add_comm width]
    simp only [Function.comp_def, data_advance, pos_advance, hindex, Nat.succ_eq_add_one]

/-- Once a value is missing, the cursor stays where that has put it. -/
theorem times_value_of_lt {count width : Nat} (h : c.left < count * width) :
    ((Reader.times count (value width)).run c).2 = c.spoil := by
  induction count generalizing c with
  | zero =>
    rw [Nat.zero_mul] at h
    omega
  | succ count ih =>
    rw [Nat.succ_mul] at h
    change ((Reader.times count (value width)).run (c.value width).2).2 = _
    rcases Nat.lt_or_ge c.left width with hw | hw
    · rw [value_of_lt hw]
      dsimp only
      rcases Nat.eq_zero_or_pos count with rfl | hcount
      · rfl
      · have hpos : 0 < count * width := Nat.mul_pos hcount (by omega)
        rw [ih (by rw [left_spoil]; exact hpos), spoil_spoil]
    · rw [value_of_le hw]
      dsimp only
      rw [ih (by rw [left_advance]; omega), spoil_advance]

theorem length_untilNul (data : Bytes) (pos : Nat) :
    (data.untilNul pos).length = (data.toList.drop pos).idxOf 0 := by
  have hnot : (fun b : UInt8 => !(b != 0)) = fun b => b == 0 := by
    funext b
    rw [bne, Bool.not_not]
  rw [Bytes.untilNul_eq_takeWhile, List.takeWhile_eq_take_findIdx_not, hnot, List.length_take]
  exact Nat.min_eq_left List.findIdx_le_length

theorem lt_size_of_untilNul_iff (hc : c.pos ≤ c.data.size) :
    c.pos + (c.data.untilNul c.pos).length < c.data.size ↔ 0 ∈ c.data.toList.drop c.pos := by
  rw [length_untilNul, ← List.idxOf_lt_length_iff, List.length_drop, Array.length_toList]
  omega

theorem cstring_of_mem (hc : c.pos ≤ c.data.size) (h : 0 ∈ c.data.toList.drop c.pos) :
    c.cstring = ((c.data.toList.drop c.pos).takeWhile (· != 0),
      c.advance ((c.data.toList.drop c.pos).idxOf 0 + 1)) := by
  rw [← length_untilNul, ← Bytes.untilNul_eq_takeWhile]
  exact if_pos ((lt_size_of_untilNul_iff hc).mpr h)

theorem cstring_of_not_mem (hc : c.pos ≤ c.data.size) (h : 0 ∉ c.data.toList.drop c.pos) : c.cstring = ([], c.spoil) :=
  if_neg (mt (lt_size_of_untilNul_iff hc).mp h)

/-- The way to the next multiple, as the remainder tells it. -/
theorem roundUp_eq {pos n : Nat} (hn : 0 < n) :
    (pos + (n - 1)) / n * n = if pos % n = 0 then pos else pos + (n - pos % n) := by
  have hmod := Nat.mod_lt pos hn
  have hdiv := Nat.div_add_mod pos n
  have hsplit : (pos + (n - 1)) / n = pos / n + (pos % n + (n - 1)) / n := by
    rw [← Nat.mul_add_div hn, ← Nat.add_assoc, hdiv]
  split
  next hz =>
    rw [hsplit, hz, Nat.zero_add, Nat.div_eq_of_lt (by omega : n - 1 < n), Nat.add_zero, Nat.mul_comm]
    omega
  next hz =>
    have hone : (pos % n + (n - 1)) / n = 1 := by
      rw [show pos % n + (n - 1) = n + (pos % n - 1) by omega, Nat.add_div_left _ hn,
        Nat.div_eq_of_lt (by omega : pos % n - 1 < n)]
    rw [hsplit, hone, Nat.succ_mul, Nat.mul_comm]
    omega

theorem toNat_pos {n : UInt64} (h : n ≠ 0) : 0 < n.toNat :=
  Nat.pos_of_ne_zero fun hz => h (UInt64.toNat_inj.mp hz)

theorem skip_of_le {n : Nat} (h : n ≤ c.left) : c.skip n = c.advance n := if_pos h

theorem skip_of_lt {n : Nat} (h : c.left < n) : c.skip n = c.spoil := if_neg (Nat.not_le.mpr h)

theorem within?_eq_some_iff {data : Bytes} {stop stop' : Nat} :
    Request.within? data stop = some stop' ↔ stop ≤ data.size ∧ stop = stop' := by
  rw [Request.within?]
  split
  next h => simp only [h, Option.some.injEq, true_and]
  next h => simp only [h, reduceCtorEq, false_and]

theorem within?_eq_none_iff {data : Bytes} {stop : Nat} : Request.within? data stop = none ↔ data.size < stop := by
  rw [Request.within?]
  split
  next h => simp only [reduceCtorEq, false_iff, Nat.not_lt, h]
  next h => simp only [true_iff]; omega

/-- A request that fits gets what the data say and goes where it ends. -/
theorem perform_of_stop? (hc : c.pos ≤ c.data.size) {r : Request} {stop : Nat} (h : r.stop? c.data c.pos = some stop) :
    perform r c = (r.reply c.data c.pos, { c with pos := stop }) := by
  cases r with
  | value width =>
    obtain ⟨hle, rfl⟩ := within?_eq_some_iff.mp h
    rw [perform, value_of_le ((le_left_iff hc).mpr hle)]
    rfl
  | peek width =>
    cases h
    rw [perform, peek, Request.reply]
    split
    next hle => rw [value_of_le ((le_left_iff hc).mpr hle)]
    next hlt => rw [value_of_lt ((left_lt_iff hc).mpr (Nat.not_le.mp hlt))]
  | values count width =>
    obtain ⟨hle, rfl⟩ := within?_eq_some_iff.mp h
    simp only [perform, times_value_of_le ((le_left_iff hc).mpr hle)]
    rfl
  | bytes count =>
    obtain ⟨hle, rfl⟩ := within?_eq_some_iff.mp h
    rw [perform, bytes_of_le ((le_left_iff hc).mpr hle)]
    rfl
  | cstring =>
    obtain ⟨hmem, he⟩ := Option.ite_none_right_eq_some.mp h
    cases he
    rw [perform, cstring_of_mem hc hmem]
    rfl
  | skip count =>
    obtain ⟨hle, rfl⟩ := within?_eq_some_iff.mp h
    rw [perform, skip_of_le ((le_left_iff hc).mpr hle)]
    rfl
  | align alignment ne_zero =>
    obtain ⟨hle, rfl⟩ := within?_eq_some_iff.mp h
    rw [perform, align]
    rw [roundUp_eq (toNat_pos ne_zero)] at hle ⊢
    split
    next hz => rfl
    next hz =>
      rw [if_neg hz] at hle
      rw [skip_of_le ((le_left_iff hc).mpr hle)]
      rfl
  | seek target =>
    obtain ⟨hle, rfl⟩ := within?_eq_some_iff.mp h
    rw [perform, seek, if_pos hle]
    rfl

/-- A request that does not fit leaves the cursor at the end and marked. -/
theorem perform_of_stop?_eq_none (hc : c.pos ≤ c.data.size) {r : Request} (h : r.stop? c.data c.pos = none) :
    (perform r c).2 = c.spoil := by
  cases r with
  | value width =>
    have hlt := (left_lt_iff hc).mpr (within?_eq_none_iff.mp h)
    rw [perform, value_of_lt hlt]
  | peek width => cases h
  | values count width =>
    have hlt := (left_lt_iff hc).mpr (within?_eq_none_iff.mp h)
    exact times_value_of_lt hlt
  | bytes count =>
    have hlt := (left_lt_iff hc).mpr (within?_eq_none_iff.mp h)
    rw [perform, bytes_of_lt hlt]
  | cstring =>
    have hmem : 0 ∉ c.data.toList.drop c.pos := by
      intro hmem
      rw [Request.stop?, if_pos hmem] at h
      cases h
    rw [perform, cstring_of_not_mem hc hmem]
  | skip count =>
    have hlt := (left_lt_iff hc).mpr (within?_eq_none_iff.mp h)
    rw [perform, skip_of_lt hlt]
  | align alignment ne_zero =>
    have hlt := within?_eq_none_iff.mp h
    rw [roundUp_eq (toNat_pos ne_zero)] at hlt
    rw [perform, align]
    split at hlt
    next => omega
    next hz => rw [if_neg hz, skip_of_lt ((left_lt_iff hc).mpr hlt)]
  | seek target => rw [perform, seek, if_neg (Nat.not_le.mpr (within?_eq_none_iff.mp h))]

theorem stop?_le (hc : c.pos ≤ c.data.size) {r : Request} {stop : Nat} (h : r.stop? c.data c.pos = some stop) :
    stop ≤ c.data.size := by
  cases r with
  | peek width => exact Option.some.inj h ▸ hc
  | cstring =>
    obtain ⟨hmem, he⟩ := Option.ite_none_right_eq_some.mp h
    have hlt := List.idxOf_lt_length_iff.mpr hmem
    rw [List.length_drop, Array.length_toList] at hlt
    have := Option.some.inj he
    omega
  | value width | values count width | bytes count | skip count | align alignment ne_zero | seek target =>
    obtain ⟨hle, rfl⟩ := within?_eq_some_iff.mp h
    exact hle

theorem data_perform (hc : c.pos ≤ c.data.size) (r : Request) : (perform r c).2.data = c.data := by
  cases h : r.stop? c.data c.pos with
  | some stop => rw [perform_of_stop? hc h]
  | none => rw [perform_of_stop?_eq_none hc h, data_spoil]

theorem pos_perform_le (hc : c.pos ≤ c.data.size) (r : Request) :
    (perform r c).2.pos ≤ (perform r c).2.data.size := by
  rw [data_perform hc]
  cases h : r.stop? c.data c.pos with
  | some stop =>
    rw [perform_of_stop? hc h]
    exact stop?_le hc h
  | none =>
    rw [perform_of_stop?_eq_none hc h]
    exact Nat.le_refl _

/-- The mark is set by exactly the requests that do not fit, and nothing takes it away. -/
theorem overrun_perform_iff (hc : c.pos ≤ c.data.size) (r : Request) :
    (perform r c).2.overrun = true ↔ c.overrun = true ∨ r.stop? c.data c.pos = none := by
  cases h : r.stop? c.data c.pos with
  | some stop =>
    rw [perform_of_stop? hc h]
    simp only [reduceCtorEq, or_false]
  | none =>
    rw [perform_of_stop?_eq_none hc h, overrun_spoil]
    simp only [or_true]

end Cursor

end CodeAtlas
