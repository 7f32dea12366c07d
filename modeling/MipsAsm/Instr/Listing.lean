import MipsAsm.Instr.Codec
import MipsAsm.Source.InstrText

/-!
Instruction records as text: a listing of all fields, and assembler text where the assembler has
text for the record.
-/

set_option autoImplicit false

namespace MipsAsm.Instr

/-- The fields in hexadecimal, each with the digits that its bits need. -/
def columns (r : Instr) : List (Text × Text) :=
  let opcode := ("opcode".toList, Numeral.hex 2 r.mnemonic.opcode.toNat)
  match r with
  | register _ rs rt rd shamt funct =>
    [opcode, ("rs".toList, Numeral.hex 2 rs.toNat), ("rt".toList, Numeral.hex 2 rt.toNat),
      ("rd".toList, Numeral.hex 2 rd.toNat), ("shmt".toList, Numeral.hex 2 shamt.toNat),
      ("funct".toList, Numeral.hex 2 funct.toNat)]
  | immediate _ rs rt imm =>
    [opcode, ("rs(base)".toList, Numeral.hex 2 rs.toNat), ("rt".toList, Numeral.hex 2 rt.toNat),
      ("immediate(offset)".toList, Numeral.hex 4 imm.toNat)]
  | jump _ index => [opcode, ("index".toList, Numeral.hex 7 index.toNat)]
  | syscall code =>
    [opcode, ("code".toList, Numeral.hex 6 code.toNat),
      ("funct".toList, Numeral.hex 2 Mnemonic.syscall.funct.toNat)]

/-- The mnemonic and the columns between braces. -/
def listing (r : Instr) : Text :=
  r.mnemonic.name ++ " \x7b".toList ++ Text.namedList r.columns ++ "\x7d".toList

def regText (number : Byte) : Text := Reg.name ⟨number⟩

/-- The operands of an immediate instruction in the order of its mnemonic. -/
def immediateOperands (m : Mnemonic) (rs rt : Byte) (imm : Half) : List Text :=
  match m with
  | .lui => [regText rt, Numeral.markedHex 1 imm.toNat]
  | .lw | .sw => [regText rt, Numeral.integer imm.toInt ++ "(".toList ++ regText rs ++ ")".toList]
  | .beq | .bne => [regText rs, regText rt, Numeral.integer imm.toInt]
  | .addiu => [regText rt, regText rs, Numeral.integer imm.toInt]
  | _ => [regText rt, regText rs, Numeral.markedHex 1 imm.toNat]

/-- The record as the assembler reads it. There is none with a shift amount or a syscall code. -/
def toInstrText? : Instr → Option InstrText
  | register m rs rt rd shamt _ =>
    if shamt = 0 then some ⟨m.name, [regText rd, regText rs, regText rt]⟩ else none
  | immediate m rs rt imm => some ⟨m.name, immediateOperands m rs rt imm⟩
  | jump m index => some ⟨m.name, [Numeral.markedHex 8 (index <<< 2).toNat]⟩
  | syscall code => if code = 0 then some ⟨Mnemonic.syscall.name, []⟩ else none

def assemblerText? (r : Instr) : Option Text := r.toInstrText?.map InstrText.render

/-- The listing of a word written in hexadecimal. -/
def listingOfHex (t : Text) : Except Fault Text := do
  return (← decode (← Word.written t)).listing

end MipsAsm.Instr
