import MipsAsm.Fault

/-!
An instruction as it is written: a mnemonic and operand texts between commas.
-/

set_option autoImplicit false

namespace MipsAsm

structure InstrText where
  mnemonic : Text
  operands : List Text
  deriving DecidableEq, Repr

namespace InstrText

/-- The mnemonic ends at the first blank; the operands stand between commas and are trimmed. -/
def read (t : Text) : Except Fault InstrText :=
  let line := Text.trim t
  let halves := Text.splitBlank line
  if halves.1.isEmpty then .error (.malformed .emptyInstruction)
  else if halves.2.isEmpty then .ok ⟨halves.1, []⟩
  else
    let operands := (halves.2.splitOn ',').map Text.trim
    if operands.any (·.isEmpty) then .error (.malformed (.emptyOperand line))
    else .ok ⟨halves.1, operands⟩

def render (i : InstrText) : Text :=
  if i.operands.isEmpty then i.mnemonic
  else i.mnemonic ++ " ".toList ++ Text.joined ", ".toList i.operands

/-- The fault of an instruction that needs `count` operands and has another number of them. -/
def miscount (i : InstrText) (count : Nat) (form : String) : Fault :=
  .malformed (.operandCount i.mnemonic count form.toList)

end InstrText

end MipsAsm
