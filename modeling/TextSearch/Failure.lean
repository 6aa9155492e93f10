/-!
Why an operation may fail, and the texts it gives to say so.
-/
namespace TextSearch

inductive Failure where
  | invalidUtf8
  | outOfMemory
  | unknown
  deriving DecidableEq, Repr

namespace Failure

def message : Failure → String
  | invalidUtf8 => "Invalid UTF-8 string"
  | outOfMemory => "std::bad_alloc"
  | unknown => "Unknown error"

def ofStatus (code : Int32) : Option Failure :=
  if code = -10 then some outOfMemory
  else if code = -12 then some invalidUtf8
  else if code = -1 then some unknown
  else none

end Failure

end TextSearch
