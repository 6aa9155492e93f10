/-!
The version of the library.
-/
namespace TextSearch

structure Version where
  major : Nat
  minor : Nat
  patch : Nat
  deriving DecidableEq, Repr

def version : Version := ⟨0, 1, 0⟩

end TextSearch
