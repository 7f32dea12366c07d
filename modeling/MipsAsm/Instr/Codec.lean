import MipsAsm.Instr.Lookup

/-!
Words and instruction records. `decode` reads the fields of the mnemonic's format, `encode` packs them;
the `rs` bits of `lui` mean nothing, so both treat them as zero.
-/

set_option autoImplicit false

namespace MipsAsm

def Field.readByte (f : Field) (w : Word) : Byte := (f.read w).setWidth 8

namespace Instr

/-- The source register of an immediate instruction, which `lui` does not have. -/
def sourceOf (m : Mnemonic) (rs : Byte) : Byte := if m = .lui then 0 else rs

def decode (w : Word) : Except Fault Instr := do
  let m ← Mnemonic.coded (Field.opcode.readByte w) (Field.funct.readByte w)
  return match m.format with
  | .register =>
    register m (Field.rs.readByte w) (Field.rt.readByte w) (Field.rd.readByte w)
      (Field.shamt.readByte w) (Field.funct.readByte w)
  | .immediate =>
    immediate m (sourceOf m (Field.rs.readByte w)) (Field.rt.readByte w)
      ((Field.immediate.read w).setWidth 16)
  | .jump => jump m (Field.index.read w)
  | .syscall => syscall (Field.code.read w)

/-- The record's format is that of its mnemonic, and so is its function code. -/
def Consistent : Instr → Prop
  | register m _ _ _ _ funct => m.format = .register ∧ funct = m.funct
  | immediate m .. => m.format = .immediate
  | jump m _ => m.format = .jump
  | syscall _ => True

instance : DecidablePred Consistent
  | register m _ _ _ _ funct => inferInstanceAs (Decidable (m.format = .register ∧ funct = m.funct))
  | immediate m .. => inferInstanceAs (Decidable (m.format = .immediate))
  | jump m _ => inferInstanceAs (Decidable (m.format = .jump))
  | syscall _ => inferInstanceAs (Decidable True)

/-- The fields of the record's word. -/
def parts : Instr → List (Field × Word)
  | register _ rs rt rd shamt funct =>
    [(.opcode, 0), (.rs, rs.setWidth 32), (.rt, rt.setWidth 32), (.rd, rd.setWidth 32),
      (.shamt, shamt.setWidth 32), (.funct, funct.setWidth 32)]
  | immediate m rs rt imm =>
    [(.opcode, m.opcode.setWidth 32), (.rs, (sourceOf m rs).setWidth 32), (.rt, rt.setWidth 32),
      (.immediate, imm.setWidth 32)]
  | jump m index => [(.opcode, m.opcode.setWidth 32), (.index, index)]
  | syscall code => [(.code, code), (.funct, Mnemonic.syscall.funct.setWidth 32)]

def encode (r : Instr) : Except Fault Word :=
  if r.Consistent then (Field.pack r.parts).mapError .field
  else .error (.malformed (.unencodable r))

end Instr

end MipsAsm
