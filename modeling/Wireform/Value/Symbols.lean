/-!
# Names in use

The distinct names that a read has met, each of them kept once.
-/

namespace Wireform

structure Symbols where
  names : List String

namespace Symbols

def empty : Symbols := ⟨[]⟩

def intern (s : Symbols) (name : String) : Symbols :=
  if s.names.contains name then s else ⟨name :: s.names⟩

def size (s : Symbols) : Nat := s.names.length

end Symbols

end Wireform
