import CodeAtlas.Permalink
import CodeAtlas.Text.Numeral

namespace CodeAtlas.Permalink

open Text

/-- What follows `/rustc/` is the revision, in hexadecimal digits, then a path below the compiler's sources. -/
def ofToolchainPath? (separator : UInt8) (p : Text) : Option Permalink := do
  let rest ← prefixed? (separator :: "rustc" ++ [separator]) p
  let (rev, path) ← cut? [separator] rest
  if rev = [] ∨ path = [] ∨ ¬ rev.all fun b => (digitValue? 16 b).isSome then none
  else some (git "github.com/rust-lang/rust" (path.map fun b => if b = separator then code '/' else b) rev)

/-- The Rust standard library is built with paths that hold its revision, with either separator. -/
def ofRustc? (p : Text) : Option Permalink :=
  ofToolchainPath? (code '/') p <|> ofToolchainPath? (code '\\') p

end CodeAtlas.Permalink
