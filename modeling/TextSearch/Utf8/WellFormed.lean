import TextSearch.Utf8.Encoding

/-!
The strict form of the encoding: no overlong sequences, no surrogates, nothing past U+10FFFF.
-/
namespace TextSearch
namespace Utf8

/-- Bytes that are a sequence of shortest encodings of scalar values. -/
def wellFormedBytes : List UInt8 → Bool
  | [] => true
  | a :: rest =>
    if a ≤ 0x7F then wellFormedBytes rest
    else if 0xC2 ≤ a && a ≤ 0xDF then
      match rest with
      | b :: rest => isContinuation b && wellFormedBytes rest
      | _ => false
    else if 0xE0 ≤ a && a ≤ 0xEF then
      match rest with
      | b :: c :: rest =>
        isContinuation b && isContinuation c && !(a == 0xE0 && b < 0xA0) && !(a == 0xED && 0xA0 ≤ b) &&
          wellFormedBytes rest
      | _ => false
    else if 0xF0 ≤ a && a ≤ 0xF4 then
      match rest with
      | b :: c :: d :: rest =>
        isContinuation b && isContinuation c && isContinuation d && !(a == 0xF0 && b < 0x90) &&
          !(a == 0xF4 && 0x90 ≤ b) && wellFormedBytes rest
      | _ => false
    else false

def wellFormed (t : Text) : Bool := wellFormedBytes t.toList

end Utf8
end TextSearch
