import CodeAtlas.Mangled.Decorated

namespace CodeAtlas

/-- Spells out the names of the Itanium scheme, or refuses them. The scheme is known to a library of the system, which
is given a name up to its first NUL. -/
class Demangler where
  demangle? : Text → Option Text

namespace Demangler

/-- Refuses every name. -/
@[reducible]
def refusing : Demangler := ⟨fun _ => none⟩

scoped instance : Demangler := refusing

end Demangler

namespace Mangled

open Text

/-- The readable form of a symbol name, which may have an underscore more before it than the scheme asks for. A name in
no known scheme, or one that is malformed, stays as it is. -/
def readable [Demangler] (name : Text) : Text :=
  if startsWith "_Z" name then (Demangler.demangle? (before 0 name)).getD name
  else if startsWith "__Z" name then (Demangler.demangle? (before 0 (name.drop 1))).getD name
  else if startsWith "?" name then (undecorate? name).getD name
  else name

end Mangled

end CodeAtlas
