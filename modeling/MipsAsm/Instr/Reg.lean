import MipsAsm.Text.Numeral
import MipsAsm.Word.Basic

/-!
Registers. A register operand is one of 32 names, or a dollar sign and a decimal number.
-/

set_option autoImplicit false

namespace MipsAsm

/-- A register number as an instruction record holds it; the machine has those below 32. -/
structure Reg where
  number : Byte
  deriving DecidableEq, Repr

namespace Reg

def zero : Reg := ⟨0⟩

/-- The register names in the order of their numbers. -/
def names : List Text :=
  ["$zero", "$at", "$v0", "$v1", "$a0", "$a1", "$a2", "$a3",
    "$t0", "$t1", "$t2", "$t3", "$t4", "$t5", "$t6", "$t7",
    "$s0", "$s1", "$s2", "$s3", "$s4", "$s5", "$s6", "$s7",
    "$t8", "$t9", "$k0", "$k1", "$gp", "$sp", "$fp", "$ra"].map String.toList

def name (r : Reg) : Text := (names[r.number.toNat]?).getD "$?".toList

def ofName? (t : Text) : Option Reg := (names.idxOf? t).map fun n => ⟨BitVec.ofNat 8 n⟩

/-- A dollar sign and the register's number, behind an optional plus sign. -/
def ofNumber? : Text → Option Reg
  | '$' :: digits =>
    match Numeral.readNat 10 31 digits with
    | .ok n => some ⟨BitVec.ofNat 8 n⟩
    | .error _ => none
  | _ => none

/-- Reads a trimmed register operand. -/
def ofText? (t : Text) : Option Reg := (ofName? t).or (ofNumber? t)

end Reg

end MipsAsm
