import MipsAsm.Word.Basic

/-!
Bytes in memory order, four to a word, the first in the low eight bits.
-/

set_option autoImplicit false

namespace MipsAsm.Word

def ofBytes (a b c d : UInt8) : Word := d.toBitVec ++ c.toBitVec ++ b.toBitVec ++ a.toBitVec

/-- The words that hold the bytes, the last one filled up with zeros. -/
def ofByteList : List UInt8 → List Word
  | [] => []
  | [a] => [ofBytes a 0 0 0]
  | [a, b] => [ofBytes a b 0 0]
  | [a, b, c] => [ofBytes a b c 0]
  | a :: b :: c :: d :: rest => ofBytes a b c d :: ofByteList rest

/-- The words of a string with a zero byte behind it. -/
def ofString (bytes : List UInt8) : List Word := ofByteList (bytes ++ [0])

end MipsAsm.Word
