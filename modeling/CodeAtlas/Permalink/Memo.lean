import CodeAtlas.Permalink.Toolchain

namespace CodeAtlas.Permalink

/-- The answers given so far, absent ones included, latest first. -/
structure Memo where
  answers : List (Text × Option Permalink)
deriving Repr, DecidableEq

namespace Memo

def empty : Memo := ⟨[]⟩

def size (m : Memo) : Nat := m.answers.length

/-- Each distinct path is put to `ask` once, and its first answer stands from then on. A path to which `ask` has no
answer is tried as a path of the Rust toolchain. -/
def resolve (ask : Text → StateM σ (Option Permalink)) (path : Text) :
    StateT Memo (StateM σ) (Option Permalink) := do
  let m ← get
  match m.answers.lookup path with
  | some answer => pure answer
  | none =>
    let answer := (← ask path) <|> ofRustc? path
    set (⟨(path, answer) :: m.answers⟩ : Memo)
    pure answer

end Memo

end CodeAtlas.Permalink
