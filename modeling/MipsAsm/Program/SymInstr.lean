import MipsAsm.Instr.Lookup
import MipsAsm.Source.InstrText
import MipsAsm.Source.Operand

/-!
Symbolic instructions: machine instructions whose operands are read and checked, with labels that have
no address yet.
-/

set_option autoImplicit false

namespace MipsAsm

/-- Where control goes: a label, a branch's offset in words, or a jump's address. -/
inductive Target
  | label (name : Text)
  | value (value : Int)
  deriving DecidableEq, Repr

/-- A sixteen-bit operand: an integer, or half of a data label's address. -/
inductive Imm
  | value (value : Int)
  | high (label : Text)
  | low (label : Text)
  deriving DecidableEq, Repr

inductive SymInstr
  | register (mnemonic : Mnemonic) (rd rs rt : Reg)
  | syscall
  | immediate (mnemonic : Mnemonic) (rt rs : Reg) (imm : Imm)
  | branch (mnemonic : Mnemonic) (rs rt : Reg) (target : Target)
  | jump (mnemonic : Mnemonic) (target : Target)
  deriving DecidableEq, Repr

namespace Signedness

/-- The integers that sixteen bits stand for. -/
def Fits : Signedness → Int → Prop
  | signed, value => -0x8000 ≤ value ∧ value < 0x8000
  | unsigned, value => 0 ≤ value ∧ value < 0x10000

instance (s : Signedness) (value : Int) : Decidable (s.Fits value) := by
  cases s <;> unfold Fits <;> infer_instance

def check (s : Signedness) (value : Int) : Except Fault Unit :=
  if s.Fits value then .ok () else .error (.immediateOutOfRange value 16)

end Signedness

def Target.read (t : Text) : Except Fault Target :=
  if Text.isIdentifier t then .ok (.label t) else (Immediate.read t).map .value

namespace Imm

/-- The label in `mark`, label, closing parenthesis. -/
def halfLabel? (mark : String) (t : Text) : Option Text := do
  let rest ← Text.dropMark? mark.toList t
  let label ← Text.dropLast? ')' rest
  let name := Text.trim label
  if Text.isIdentifier name then some name else none

/-- A numeric operand must fit the mnemonic's immediate. -/
def read (s : Signedness) (t : Text) : Except Fault Imm :=
  match halfLabel? "%hi(" t, halfLabel? "%lo(" t with
  | some label, _ => .ok (.high label)
  | none, some label => .ok (.low label)
  | none, none => do
    let value ← Immediate.read t
    s.check value
    return .value value

end Imm

namespace SymInstr

/-- Reads the operands that the mnemonic's form asks for, from left to right; a memory operand is taken
apart before its registers are read. -/
def read (i : InstrText) : Except Fault SymInstr := do
  let m ← Mnemonic.named i.mnemonic
  match m.operandForm, i.operands with
  | .empty, [] => return syscall
  | .empty, _ => throw (i.miscount 0 "")
  | .rdRsRt, [rd, rs, rt] =>
    return register m (← Reg.named rd) (← Reg.named rs) (← Reg.named rt)
  | .rdRsRt, _ => throw (i.miscount 3 "rd, rs, rt")
  | .rtRsImm, [rt, rs, imm] =>
    return immediate m (← Reg.named rt) (← Reg.named rs) (← Imm.read m.signedness imm)
  | .rtRsImm, _ => throw (i.miscount 3 "rt, rs, imm")
  | .rtImm, [rt, imm] =>
    return immediate m (← Reg.named rt) Reg.zero (← Imm.read m.signedness imm)
  | .rtImm, _ => throw (i.miscount 2 "rt, imm")
  | .rtOffsetBase, [rt, memory] =>
    let place ← MemoryOperand.read memory
    return immediate m (← Reg.named rt) (← Reg.named place.base) (← Imm.read m.signedness place.offset)
  | .rtOffsetBase, _ => throw (i.miscount 2 "rt, offset(base)")
  | .rsRtTarget, [rs, rt, target] =>
    return branch m (← Reg.named rs) (← Reg.named rt) (← Target.read target)
  | .rsRtTarget, _ => throw (i.miscount 3 "rs, rt, target")
  | .target, [target] => return jump m (← Target.read target)
  | .target, _ => throw (i.miscount 1 "target")

end SymInstr

end MipsAsm
