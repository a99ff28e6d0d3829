import CodeAtlas.Proofs.Bytes.Holds
import CodeAtlas.Proofs.Database.FunctionRecords
import Mathlib.Data.List.Forall2
import Mathlib.Data.List.Nodup

namespace CodeAtlas

namespace Database

namespace PathTable

variable {α β : Type}

/-- Paths that are all different stay so. -/
def KeepsDistinct (act : StateM PathTable α) : Prop :=
  ∀ t : PathTable, t.paths.toList.Nodup → (act.run t).2.paths.toList.Nodup

theorem keepsDistinct_pure (a : α) : KeepsDistinct (pure a) := fun _ h => h

theorem KeepsDistinct.bind {act : StateM PathTable α} {f : α → StateM PathTable β} (h : KeepsDistinct act)
    (hf : ∀ a, KeepsDistinct (f a)) : KeepsDistinct (act >>= f) :=
  fun t ht => hf _ _ (h t ht)

theorem KeepsDistinct.mapM {f : α → StateM PathTable β} (h : ∀ x, KeepsDistinct (f x)) (xs : List α) :
    KeepsDistinct (xs.mapM f) := by
  induction xs with
  | nil => exact keepsDistinct_pure []
  | cons x xs ih =>
    rw [List.mapM_cons]
    exact (h x).bind fun b => ih.bind fun bs => keepsDistinct_pure _

end PathTable

namespace FunctionTable

open PathTable

variable {strings : Option Strings} {names : FunctionNames}

end FunctionTable

/-- What the number of a file stands for: the string at the offset that the files of the module record for a checksum.
There is no number where the module has no such checksum, where there are no strings or where no string ends there. -/
structure Numbers (db : Database) (paths : PathTable) (files : List (UInt32 × UInt32)) (file : UInt32)
    (number : Option Nat) : Prop where
  path : ∀ i, number = some i → i < paths.paths.size ∧ ∃ s offset path, db.strings = some s ∧
    files.lookup file = some offset ∧ s.buffer.Holds offset.toNat (path ++ [0]) ∧ 0 ∉ path ∧ paths.get? i = some path
  none_iff : number = none ↔ files.lookup file = none ∨ db.strings = none ∨
    ∃ s offset, db.strings = some s ∧ files.lookup file = some offset ∧ 0 ∉ s.buffer.toList.drop offset.toNat

/-- A span that says of code what a record of a module says, with the number of the file. -/
structure Shows (db : Database) (paths : PathTable) (files : List (UInt32 × UInt32)) (s : LineSpan) (r : LineRecord) :
    Prop where
  bounds : s.start = r.start ∧ s.stop = r.stop
  line : s.line = r.line
  file : Numbers db paths files r.file s.file

namespace FunctionTable

section Functions

variable {db : Database} {modules : ModuleList}

end Functions

end FunctionTable

end Database

end CodeAtlas
