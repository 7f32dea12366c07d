import MipsAsm.Fault

/-!
Looking up mnemonics, registers and words by what is written, with a fault for what is not found.
-/

set_option autoImplicit false

namespace MipsAsm

def Mnemonic.named (t : Text) : Except Fault Mnemonic :=
  match ofName? t with
  | some m => .ok m
  | none => .error (.unknownMnemonic t)

def Mnemonic.coded (opcode funct : Byte) : Except Fault Mnemonic :=
  match ofCodes? opcode funct with
  | some m => .ok m
  | none => .error (.unknownCodes opcode funct)

/-- A register operand, with blanks around it. -/
def Reg.named (t : Text) : Except Fault Reg :=
  let body := Text.trim t
  match ofText? body with
  | some r => .ok r
  | none => .error (.unknownRegister body)

def Word.written (t : Text) : Except Fault Word :=
  match ofHex? t with
  | some w => .ok w
  | none => .error (.malformed (.hexWord t))

end MipsAsm
