import MipsAsm.Instr.Codec
import MipsAsm.Program.SymInstr
import MipsAsm.Program.Symbols

/-!
Resolution: a symbolic instruction at an address becomes an instruction record. Branches and jumps look
up text labels, address halves look up data labels.
-/

set_option autoImplicit false

namespace MipsAsm

/-- The offset in words from behind the branch to its target, rounded toward zero. -/
def branchOffset (address target : Word) : Int := ((target.toNat : Int) - (address.toNat + 4)).tdiv 4

/-- Bits 2 to 27 of a jump's target. -/
def jumpIndex (target : Word) : Word := (target >>> 2) &&& 0x03FFFFFF

namespace SymInstr

def resolveImm (symbols : Symbols) (s : Signedness) : Imm → Except Fault Half
  | .value value => do
    s.check value
    return Half.ofInt value
  | .high label => do return ((← symbols.lookup .data label) >>> 16).setWidth 16
  | .low label => do return (← symbols.lookup .data label).setWidth 16

def resolveOffset (symbols : Symbols) (address : Word) : Target → Except Fault Half
  | .label name => do
    let offset := branchOffset address (← symbols.lookup .text name)
    Signedness.signed.check offset
    return Half.ofInt offset
  | .value offset => do
    Signedness.signed.check offset
    return Half.ofInt offset

/-- A jump's address: a label's, or an integer below `2 ^ 32`. -/
def resolveAddress (symbols : Symbols) : Target → Except Fault Word
  | .label name => symbols.lookup .text name
  | .value value =>
    if 0 ≤ value ∧ value < 0x100000000 then .ok (BitVec.ofInt 32 value)
    else .error (.immediateOutOfRange value 32)

def resolve (symbols : Symbols) (address : Word) : SymInstr → Except Fault Instr
  | syscall => .ok (.syscall 0)
  | register m rd rs rt => .ok (.register m rs.number rt.number rd.number 0 m.funct)
  | immediate m rt rs imm => do
    return .immediate m rs.number rt.number (← resolveImm symbols m.signedness imm)
  | branch m rs rt target => do
    return .immediate m rs.number rt.number (← resolveOffset symbols address target)
  | jump m target => do
    let destination ← resolveAddress symbols target
    if destination.toNat % 4 ≠ 0 then throw (.malformed (.misalignedJump destination))
    return .jump m (jumpIndex destination)

/-- The word of the instruction at an address. -/
def word (symbols : Symbols) (address : Word) (i : SymInstr) : Except Fault Word := do
  (← i.resolve symbols address).encode

end SymInstr

end MipsAsm
