import MipsAsm.Fault

/-!
Numeric and memory operands.
-/

set_option autoImplicit false

namespace MipsAsm

namespace Immediate

/-- The greatest magnitude of an immediate. -/
def limit : Nat := 0x7FFFFFFFFFFFFFFF

/-- Splits off one sign; `true` stands for minus. -/
def splitSign : Text → Bool × Text
  | '-' :: rest => (true, rest)
  | '+' :: rest => (false, rest)
  | t => (false, t)

/-- Decimal digits, or hexadecimal digits behind the mark. -/
def magnitude (t : Text) : Except Numeral.ReadError Nat :=
  match Numeral.dropHexMark? t with
  | some digits => Numeral.readDigits 16 limit digits
  | none => Numeral.readDigits 10 limit t

/-- An optional sign and a magnitude, with blanks around them. -/
def read (t : Text) : Except Fault Int :=
  let signed := splitSign (Text.trim t)
  match magnitude signed.2 with
  | .ok n => .ok (if signed.1 then -(n : Int) else n)
  | .error _ => .error (.malformed (.immediate t))

end Immediate

/-- The two texts of an operand `offset(base)`. -/
structure MemoryOperand where
  offset : Text
  base : Text
  deriving DecidableEq, Repr

/-- Splits at the first opening parenthesis; the last character closes it. No offset means zero. -/
def MemoryOperand.read (t : Text) : Except Fault MemoryOperand :=
  let body := Text.trim t
  let offset := Text.trim (body.takeWhile (· ≠ '('))
  match body.dropWhile (· ≠ '(') with
  | [] => .error (.malformed (.memory t))
  | _ :: rest =>
    match Text.dropLast? ')' rest with
    | none => .error (.malformed (.memory t))
    | some base => .ok ⟨if offset.isEmpty then "0".toList else offset, Text.trim base⟩

end MipsAsm
