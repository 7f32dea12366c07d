import MipsAsm.Instr.Mnemonic
import MipsAsm.Instr.Reg

/-!
Instruction records, one constructor per format. The fields are as wide as their storage, so a record
may name a register or an index that no word can hold.
-/

set_option autoImplicit false

namespace MipsAsm

inductive Instr
  | register (mnemonic : Mnemonic) (rs rt rd shamt funct : Byte)
  | immediate (mnemonic : Mnemonic) (rs rt : Byte) (imm : Half)
  | jump (mnemonic : Mnemonic) (index : Word)
  | syscall (code : Word)
  deriving DecidableEq, Repr

namespace Instr

def mnemonic : Instr → Mnemonic
  | register m .. => m
  | immediate m .. => m
  | jump m _ => m
  | syscall _ => .syscall

/-- The letter or word that names the record's format in messages. -/
def formatName : Instr → Text
  | register .. => "R".toList
  | immediate .. => "I".toList
  | jump .. => "J".toList
  | syscall _ => "Syscall".toList

/-- The record's entries in decimal, the mnemonic first where it is free. -/
def entries : Instr → List (Text × Text)
  | register m rs rt rd shamt funct =>
    [("mnemonic".toList, m.title), ("rs".toList, Numeral.decimal rs.toNat),
      ("rt".toList, Numeral.decimal rt.toNat), ("rd".toList, Numeral.decimal rd.toNat),
      ("shamt".toList, Numeral.decimal shamt.toNat), ("funct".toList, Numeral.decimal funct.toNat)]
  | immediate m rs rt imm =>
    [("mnemonic".toList, m.title), ("rs".toList, Numeral.decimal rs.toNat),
      ("rt".toList, Numeral.decimal rt.toNat), ("imm".toList, Numeral.decimal imm.toNat)]
  | jump m index => [("mnemonic".toList, m.title), ("index".toList, Numeral.decimal index.toNat)]
  | syscall code => [("code".toList, Numeral.decimal code.toNat)]

/-- The record spelled out, for the message about a record that no word stands for. -/
def describe (r : Instr) : Text :=
  r.formatName ++ " \x7b ".toList ++ Text.namedList r.entries ++ " \x7d".toList

end Instr

end MipsAsm
