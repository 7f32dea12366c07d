import MipsAsm.Text.Basic

/-!
Numerals of radix two to sixteen. Reading scans from the left and stops at the first character that is
no digit or that takes the value past the limit; writing uses lowercase digits.
-/

set_option autoImplicit false

namespace MipsAsm.Numeral

inductive ReadError
  | empty
  | invalidDigit
  | tooLarge
  deriving DecidableEq, Repr

def ReadError.message : ReadError → Text
  | .empty => "cannot parse integer from empty string".toList
  | .invalidDigit => "invalid digit found in string".toList
  | .tooLarge => "number too large to fit in target type".toList

def hexDigit? (c : Char) : Option Nat :=
  if '0' ≤ c ∧ c ≤ '9' then some (c.toNat - '0'.toNat)
  else if 'a' ≤ c ∧ c ≤ 'f' then some (c.toNat - 'a'.toNat + 10)
  else if 'A' ≤ c ∧ c ≤ 'F' then some (c.toNat - 'A'.toNat + 10)
  else none

def digit? (radix : Nat) (c : Char) : Option Nat := (hexDigit? c).filter (· < radix)

/-- Reads digits behind a numeral of value `value`, which never exceeds `limit`. -/
def extend (radix limit value : Nat) : Text → Except ReadError Nat
  | [] => .ok value
  | c :: rest =>
    match digit? radix c with
    | none => .error .invalidDigit
    | some d =>
      let next := radix * value + d
      if limit < next then .error .tooLarge else extend radix limit next rest

/-- One or more digits without a sign. -/
def readDigits (radix limit : Nat) (t : Text) : Except ReadError Nat :=
  if t.isEmpty then .error .empty else extend radix limit 0 t

/-- One or more digits behind an optional plus sign. A sign alone is an invalid digit. -/
def readNat (radix limit : Nat) : Text → Except ReadError Nat
  | ['+'] => .error .invalidDigit
  | '+' :: rest => readDigits radix limit rest
  | t => readDigits radix limit t

/-- What follows the mark `0x` or `0X` at the start of a text. -/
def dropHexMark? : Text → Option Text
  | '0' :: 'x' :: rest => some rest
  | '0' :: 'X' :: rest => some rest
  | _ => none

/-- An address below `2 ^ 32`: decimal, or hexadecimal behind the mark. -/
def readAddress (t : Text) : Except ReadError Nat :=
  let body := Text.trim t
  match dropHexMark? body with
  | some digits => readNat 16 0xFFFFFFFF digits
  | none => readNat 10 0xFFFFFFFF body

def decimal (n : Nat) : Text := Nat.toDigits 10 n

def integer : Int → Text
  | .ofNat n => decimal n
  | .negSucc n => '-' :: decimal (n + 1)

/-- Hexadecimal digits, with zeros in front up to `width` digits. -/
def hex (width n : Nat) : Text := (Nat.toDigits 16 n).leftpad width '0'

/-- Hexadecimal behind the mark `0x`, with at least `width` digits. -/
def markedHex (width n : Nat) : Text := "0x".toList ++ hex width n

end MipsAsm.Numeral
