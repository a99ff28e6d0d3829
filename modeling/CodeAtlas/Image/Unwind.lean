import CodeAtlas.Bytes.Cursor
import CodeAtlas.Failure

namespace CodeAtlas

/-- A record of the exception table: a range of code and where its unwind information is. -/
structure UnwindRecord where
  start : UInt32
  stop : UInt32
  info : UInt32
deriving Repr, DecidableEq

/-- The addresses that a function spans. -/
structure Extent where
  start : UInt32
  stop : UInt32
deriving Repr, DecidableEq

namespace UnwindRecord

def entrySize : Nat := 12

def read : Reader UnwindRecord := do
  let start ← Reader.u32
  let stop ← Reader.u32
  let info ← Reader.u32
  pure ⟨start, stop, info⟩

/-- The record that unwind information is chained to, after the unwind codes, whose number is padded to be even. -/
def chained? (info : Bytes) : Option UnwindRecord := do
  let head ← info.slice? 0 4
  let versionAndFlags := head.getD 0 0
  let codes := (head.getD 2 0).toNat
  let version := versionAndFlags &&& 7
  if version ≠ 1 ∧ version ≠ 2 then none
  else if (versionAndFlags >>> 3) &&& 4 = 0 then none
  else read.decode? (info.drop (4 + (codes + codes % 2) * 2))

/-- How many addresses are not in `visited`. -/
def unvisited (visited : List UInt32) : Nat :=
  (List.range UInt32.size).countP fun a => UInt32.ofNat a ∉ visited

theorem countP_lt_of_mem {l : List Nat} {p q : Nat → Bool} (hpq : ∀ x ∈ l, p x → q x) {x : Nat} (hx : x ∈ l)
    (hq : q x = true) (hp : p x = false) : l.countP p < l.countP q := by
  induction l with
  | nil => cases hx
  | cons y l ih =>
    have hle : l.countP p ≤ l.countP q := List.countP_mono_left fun z hz => hpq z (List.mem_cons_of_mem _ hz)
    rw [List.countP_cons, List.countP_cons]
    rcases List.mem_cons.mp hx with rfl | hx
    · simp only [hp, hq, Bool.false_eq_true, ↓reduceIte]
      omega
    · have hlt := ih (fun z hz => hpq z (List.mem_cons_of_mem _ hz)) hx
      have hy := hpq y List.mem_cons_self
      cases hpy : p y with
      | false => simp only [Bool.false_eq_true, ↓reduceIte]; omega
      | true => simp only [hy hpy, ↓reduceIte]; omega

theorem unvisited_cons_lt {a : UInt32} {visited : List UInt32} (h : a ∉ visited) :
    unvisited (a :: visited) < unvisited visited := by
  refine countP_lt_of_mem (x := a.toNat) (fun x _ hx => ?_) (List.mem_range.mpr a.toNat_lt_size) ?_ ?_
  · simp only [List.mem_cons, not_or, decide_eq_true_eq] at hx ⊢
    exact hx.2
  · simpa using h
  · simp

/-- Follows the chain of a record until it ends or comes back to unwind information that was already used. -/
def followChain (info? : UInt32 → Option Bytes) (visited : List UInt32) (r : UnwindRecord) : UnwindRecord :=
  if _h : r.info ∈ visited then r
  else
    match (info? r.info).bind chained? with
    | none => r
    | some next => followChain info? (r.info :: visited) next
termination_by unvisited visited
decreasing_by exact unvisited_cons_lt _h

/-- The record at the end of the chain, which all parts of one function share. -/
def canonical (info? : UInt32 → Option Bytes) (r : UnwindRecord) : UnwindRecord := followChain info? [] r

/-- The whole records of an exception table. -/
def table (data : Bytes) : List UnwindRecord :=
  ((Reader.times (data.size / entrySize) read).run (.ofBytes data)).1

/-- From the start of the first record to the end of the last one. -/
def extent (run : List UnwindRecord) : Option Extent :=
  match run.head?, run.getLast? with
  | some first, some last => some ⟨first.start, last.stop⟩
  | _, _ => none

/-- Neighbours in the table that chain to the same function are parts of it. The table has to hold whole records. -/
def extents (info? : UInt32 → Option Bytes) (data : Bytes) : Except Failure (List Extent) :=
  if data.size % entrySize ≠ 0 then .error (.unevenExceptionTable data.size)
  else
    let keyed := (table data).map fun r => (r, (canonical info? r).start)
    let runs := keyed.splitBy fun a b => a.2 == b.2
    .ok (runs.filterMap fun run => extent (run.map (·.1)))

end UnwindRecord

end CodeAtlas
