import CodeAtlas.Text

namespace CodeAtlas

/-- The content of a file or of a part of it. -/
abbrev Bytes := Array UInt8

/-- The value of a byte sequence whose first byte is the least significant one. -/
def leValue : List UInt8 → Nat
  | [] => 0
  | b :: r => b.toNat + 256 * leValue r

namespace Bytes

/-- The `size` bytes from `start` on, if the content holds all of them. -/
def slice? (data : Bytes) (start size : Nat) : Option Bytes :=
  if start + size ≤ data.size then some (data.extract start (start + size)) else none

/-- The next multiple of four. -/
def align4 (n : Nat) : Nat := (n + 3) / 4 * 4

theorem le_align4 (n : Nat) : n ≤ align4 n := by
  simp only [align4]
  omega

/-- The bytes from `start` on. -/
def drop (data : Bytes) (start : Nat) : Bytes := data.extract start data.size

theorem size_of_slice? {data part : Bytes} {start size : Nat}
    (h : data.slice? start size = some part) : part.size = size := by
  rw [slice?] at h
  split at h
  next hb =>
    cases h
    simp only [Array.size_extract]
    omega
  next => cases h

/-- The bytes from `start` on that come before the next NUL, or before the end. -/
def untilNul (data : Bytes) (start : Nat) : Text :=
  if h : start < data.size then
    if data[start] = 0 then [] else data[start] :: untilNul data (start + 1)
  else []
termination_by data.size - start

theorem untilNul_eq_takeWhile (data : Bytes) (start : Nat) :
    data.untilNul start = (data.toList.drop start).takeWhile (· != 0) := by
  fun_induction untilNul data start with
  | case1 start h hz =>
    rw [List.drop_eq_getElem_cons (by simpa using h)]
    simp [hz]
  | case2 start h hz ih =>
    rw [List.drop_eq_getElem_cons (by simpa using h)]
    simp [hz, ih]
  | case3 start h => rw [List.drop_eq_nil_of_le (by simpa using h), List.takeWhile_nil]

/-- A text that a NUL ends, if there is one. -/
def cstringAt? (data : Bytes) (start : Nat) : Option Text :=
  let text := data.untilNul start
  if start + text.length < data.size then some text else none

/-- The little-endian value of `width` bytes at `start`. -/
def valueAt? (data : Bytes) (start width : Nat) : Option Nat :=
  (data.slice? start width).map fun part => leValue part.toList

def u16At? (data : Bytes) (start : Nat) : Option UInt16 := (data.valueAt? start 2).map .ofNat

def u32At? (data : Bytes) (start : Nat) : Option UInt32 := (data.valueAt? start 4).map .ofNat

/-- The sixteen bytes of a stored identifier. -/
def guidAt? (data : Bytes) (start : Nat) : Option (Vector UInt8 16) :=
  (data.slice? start 16).map fun part => .ofFn fun i => part.getD i 0

end Bytes

end CodeAtlas
