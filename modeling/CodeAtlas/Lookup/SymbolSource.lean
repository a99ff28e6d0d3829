import CodeAtlas.DebugId
import CodeAtlas.Lookup.Answer
import CodeAtlas.Text.Numeral

namespace CodeAtlas

/-- Symbols by address: an identity, the symbols with their names, and the answer to an address, which may have
effects. -/
structure SymbolSource (m : Type → Type) where
  debugId : DebugId
  symbols : List (UInt32 × Text)
  lookup : Address → m (Option Answer)

namespace SymbolSource

/-- The answers to several addresses, one after the other. -/
def lookupAll [Monad m] (source : SymbolSource m) (addresses : List Address) : m (List (Option Answer)) :=
  addresses.mapM source.lookup

end SymbolSource

/-- The name of code that nothing names. -/
def placeholderName (rva : UInt32) : Text := "fun_" ++ Text.hex rva.toNat

/-- Leaves out each element whose key is that of the element before it. -/
def dropRepeats (key : α → UInt32) : List α → List α
  | [] => []
  | a :: rest =>
    match dropRepeats key rest with
    | [] => [a]
    | b :: kept => if key a = key b then a :: kept else a :: b :: kept

/-- The first of the elements that have one key, in the order of the keys. -/
def firstPerKey (key : α → UInt32) (xs : List α) : List α := dropRepeats key (xs.mergeSort fun a b => key a ≤ key b)

end CodeAtlas
