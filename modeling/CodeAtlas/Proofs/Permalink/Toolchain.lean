import CodeAtlas.Permalink.Toolchain
import CodeAtlas.Proofs.Text.Numeral
import CodeAtlas.Proofs.Text.Pieces

namespace CodeAtlas.Permalink

open Text HexDigit

/-- Hexadecimal digits in either case. -/
def IsHexadecimal (t : Text) : Prop := ∃ ds : List HexDigit, ds.map byte = t

/-- Where the toolchain's sources were when it was built, with the separator of that system. -/
def toolchainPath (separator : UInt8) (rev path : Text) : Text :=
  separator :: ("rustc" ++ separator :: (rev ++ separator :: path))

structure IsToolchainPath (separator : UInt8) (p rev path : Text) : Prop where
  text : p = toolchainPath separator rev path
  hasRevision : rev ≠ []
  hexadecimal : IsHexadecimal rev
  hasPath : path ≠ []

def toolchain (path rev : Text) : Permalink := git "github.com/rust-lang/rust" path rev

/-- Paths with either separator are mapped, and no others. Backslashes that separate become slashes; between slashes a
backslash is part of a name. -/
structure MapsToolchainPaths : Prop where
  isSome_iff : ∀ p, (ofRustc? p).isSome ↔
    ∃ rev path, IsToolchainPath (code '/') p rev path ∨ IsToolchainPath (code '\\') p rev path
  slash : ∀ p rev path, IsToolchainPath (code '/') p rev path → ofRustc? p = some (toolchain path rev)
  backslash : ∀ p rev path, IsToolchainPath (code '\\') p rev path →
    ofRustc? p = some (toolchain (replace (code '\\') (code '/') path) rev)
  alike : ∀ rev path, IsHexadecimal rev → code '\\' ∉ path →
    ofRustc? (replace (code '/') (code '\\') (toolchainPath (code '/') rev path)) =
      ofRustc? (toolchainPath (code '/') rev path)

/-- The separators of the two systems. -/
def IsSeparator (b : UInt8) : Prop := b = code '/' ∨ b = code '\\'

variable {a b separator : UInt8} {p rev path t : Text} {link : Permalink}

theorem isHexadecimal_iff : IsHexadecimal t ↔ ∀ b ∈ t, (digitValue? 16 b).isSome :=
  areDigits_hexDigit.forall_isSome_iff.symm

/-- A revision holds nothing but digits, so that the first separator ends it. -/
theorem IsHexadecimal.notMem (h : IsHexadecimal rev) (hs : IsSeparator separator) : separator ∉ rev := by
  intro hmem
  have hsome := isHexadecimal_iff.mp h separator hmem
  rcases hs with rfl | rfl <;> exact absurd hsome (by decide)

/-- With the other separator everywhere it is the path on the other system. -/
theorem replace_toolchainPath (h : a ∉ rev) (ha : a ∉ ofString "rustc") :
    replace a b (toolchainPath a rev path) = toolchainPath b rev (replace a b path) := by
  have hrustc := replace_of_notMem (b := b) ha
  have hrev := replace_of_notMem (b := b) h
  rw [replace] at hrustc hrev ⊢
  rw [toolchainPath, toolchainPath, List.map_cons, List.map_append, List.map_cons, List.map_append, List.map_cons,
    hrustc, hrev, if_pos rfl, replace]

theorem prefixed?_eq_some_toolchainPath_iff : prefixed? (separator :: "rustc" ++ [separator]) p = some t ↔
    p = separator :: ("rustc" ++ separator :: t) := by
  rw [prefixed?_eq_some_iff, List.append_assoc, List.singleton_append, List.cons_append]

theorem ofToolchainPath?_eq_some_iff (hs : IsSeparator separator) :
    ofToolchainPath? separator p = some link ↔ ∃ rev path, IsToolchainPath separator p rev path ∧
      toolchain (replace separator (code '/') path) rev = link := by
  rw [ofToolchainPath?]
  simp only [Option.bind_eq_bind, Option.bind_eq_some_iff, Prod.exists, prefixed?_eq_some_toolchainPath_iff,
    cut?_singleton_eq_some_iff, Option.ite_none_left_eq_some, Option.some_inj, not_or, Classical.not_not, List.all_eq_true,
    ← isHexadecimal_iff]
  constructor
  · rintro ⟨_, rfl, rev, path, ⟨rfl, -⟩, ⟨hrev, hpath, hhex⟩, rfl⟩
    exact ⟨rev, path, ⟨rfl, hrev, hhex, hpath⟩, rfl⟩
  · rintro ⟨rev, path, h, rfl⟩
    exact ⟨_, h.text, rev, path, ⟨rfl, h.hexadecimal.notMem hs⟩, ⟨h.hasRevision, h.hasPath, h.hexadecimal⟩, rfl⟩

theorem ofToolchainPath?_toolchainPath (h : separator ∉ rev) : ofToolchainPath? separator (toolchainPath separator rev path) =
    if rev = [] ∨ path = [] ∨ ¬rev.all fun b => (digitValue? 16 b).isSome then none
    else some (toolchain (replace separator (code '/') path) rev) := by
  have hstart : prefixed? (separator :: "rustc" ++ [separator]) (toolchainPath separator rev path) =
      some (rev ++ separator :: path) := prefixed?_eq_some_toolchainPath_iff.mpr rfl
  have hcut : cut? [separator] (rev ++ separator :: path) = some (rev, path) := cut?_singleton_eq_some_iff.mpr ⟨rfl, h⟩
  simp only [ofToolchainPath?, Option.bind_eq_bind, hstart, hcut, Option.bind_some]
  rfl

theorem ofToolchainPath?_of_ne (h : a ≠ b) (t : Text) : ofToolchainPath? a (b :: t) = none := by
  rw [ofToolchainPath?, List.cons_append, prefixed?, if_neg h]
  rfl

theorem ofRustc?_eq (p : Text) : ofRustc? p = (ofToolchainPath? (code '/') p).or (ofToolchainPath? (code '\\') p) := by
  rw [ofRustc?, Option.orElse_eq_orElse, Option.orElse_eq_or]

/-- The first byte tells which system a path is from. -/
theorem ofRustc?_toolchainPath (hs : IsSeparator separator) (rev path : Text) :
    ofRustc? (toolchainPath separator rev path) = ofToolchainPath? separator (toolchainPath separator rev path) := by
  have hother : ∀ {a}, a ≠ separator → ofToolchainPath? a (toolchainPath separator rev path) = none := fun ha =>
    ofToolchainPath?_of_ne ha _
  rw [ofRustc?_eq]
  rcases hs with rfl | rfl
  · rw [hother (by decide : code '\\' ≠ code '/'), Option.or_none]
  · rw [hother (by decide : code '/' ≠ code '\\'), Option.none_or]

theorem ofRustc?_eq_some_iff : ofRustc? p = some link ↔ ∃ separator, IsSeparator separator ∧
    ∃ rev path, IsToolchainPath separator p rev path ∧ toolchain (replace separator (code '/') path) rev = link := by
  constructor
  · intro h
    rw [ofRustc?_eq, Option.or_eq_some_iff] at h
    rcases h with hslash | ⟨-, hbackslash⟩
    · exact ⟨code '/', .inl rfl, (ofToolchainPath?_eq_some_iff (.inl rfl)).mp hslash⟩
    · exact ⟨code '\\', .inr rfl, (ofToolchainPath?_eq_some_iff (.inr rfl)).mp hbackslash⟩
  · rintro ⟨separator, hs, rev, path, h, rfl⟩
    have hread := (ofToolchainPath?_eq_some_iff hs).mpr ⟨rev, path, h, rfl⟩
    rw [h.text] at hread ⊢
    rw [ofRustc?_toolchainPath hs, hread]

theorem mapsToolchainPaths : MapsToolchainPaths where
  isSome_iff p := by
    simp only [Option.isSome_iff_exists, ofRustc?_eq_some_iff]
    constructor
    · rintro ⟨_, _, rfl | rfl, rev, path, h, -⟩
      · exact ⟨rev, path, .inl h⟩
      · exact ⟨rev, path, .inr h⟩
    · rintro ⟨rev, path, hslash | hbackslash⟩
      · exact ⟨_, _, .inl rfl, rev, path, hslash, rfl⟩
      · exact ⟨_, _, .inr rfl, rev, path, hbackslash, rfl⟩
  slash p rev path h := by
    have hread := ofRustc?_eq_some_iff.mpr ⟨_, .inl rfl, rev, path, h, rfl⟩
    rwa [replace_self] at hread
  backslash p rev path h := ofRustc?_eq_some_iff.mpr ⟨_, .inr rfl, rev, path, h, rfl⟩
  alike rev path hrev hpath := by
    have hslash : IsSeparator (code '/') := .inl rfl
    have hbackslash : IsSeparator (code '\\') := .inr rfl
    -- Without a revision or a path both are refused.
    have hempty : replace (code '/') (code '\\') path = [] ↔ path = [] := List.map_eq_nil_iff
    rw [replace_toolchainPath (hrev.notMem hslash) (by decide), ofRustc?_toolchainPath hslash,
      ofRustc?_toolchainPath hbackslash, ofToolchainPath?_toolchainPath (hrev.notMem hslash),
      ofToolchainPath?_toolchainPath (hrev.notMem hbackslash), replace_replace hpath, replace_self]
    simp only [hempty]

example : ofRustc? "\\rustc\\1F\\library/std\\src" = some (toolchain "library/std/src" "1F") := by decide

end CodeAtlas.Permalink
