import MipsAsm.Text.Numeral

/-!
Machine words and their written form: eight hexadecimal digits.
-/

set_option autoImplicit false

namespace MipsAsm

abbrev Byte := BitVec 8

abbrev Half := BitVec 16

abbrev Word := BitVec 32

namespace Word

/-- Eight lowercase hexadecimal digits. -/
def hex (w : Word) : Text := Numeral.hex 8 w.toNat

/-- The value of a text of hexadecimal digits. -/
def hexValue (digits : Text) : Nat :=
  digits.foldl (fun value c => 16 * value + (Numeral.hexDigit? c).getD 0) 0

/-- Reads a word written as exactly eight hexadecimal digits of either case, behind an optional mark,
with blanks around it. -/
def ofHex? (t : Text) : Option Word :=
  let body := Text.trim t
  let digits := (Numeral.dropHexMark? body).getD body
  if digits.length = 8 ∧ digits.all (Numeral.hexDigit? · |>.isSome) then
    some (BitVec.ofNat 32 (hexValue digits))
  else none

end Word

/-- The low sixteen bits of an integer in two's complement. -/
def Half.ofInt (value : Int) : Half := BitVec.ofInt 16 value

end MipsAsm
