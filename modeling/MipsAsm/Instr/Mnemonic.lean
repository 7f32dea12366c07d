import MipsAsm.Word.Basic

/-!
The fifteen machine instructions: their names, codes, formats and operand forms.
-/

set_option autoImplicit false

namespace MipsAsm

inductive Mnemonic
  | add | sub | and | or | slt | syscall
  | addiu | andi | beq | bne | lui | lw | ori | sw
  | j
  deriving DecidableEq, Repr

inductive Format
  | register
  | immediate
  | jump
  | syscall
  deriving DecidableEq, Repr

/-- What a mnemonic's operands are, in the order in which they are written. -/
inductive OperandForm
  | rdRsRt
  | empty
  | rtRsImm
  | rsRtTarget
  | rtImm
  | rtOffsetBase
  | target
  deriving DecidableEq, Repr

/-- How a sixteen-bit immediate stands for an integer. -/
inductive Signedness
  | signed
  | unsigned
  deriving DecidableEq, Repr

namespace Mnemonic

def all : List Mnemonic :=
  [add, sub, and, or, slt, syscall, addiu, andi, beq, bne, lui, lw, ori, sw, j]

def name : Mnemonic → Text
  | add => "add".toList
  | sub => "sub".toList
  | and => "and".toList
  | or => "or".toList
  | slt => "slt".toList
  | syscall => "syscall".toList
  | addiu => "addiu".toList
  | andi => "andi".toList
  | beq => "beq".toList
  | bne => "bne".toList
  | lui => "lui".toList
  | lw => "lw".toList
  | ori => "ori".toList
  | sw => "sw".toList
  | j => "j".toList

/-- The name with its first letter in upper case. -/
def title (m : Mnemonic) : Text := m.name.modifyHead Char.toUpper

def format : Mnemonic → Format
  | add | sub | and | or | slt => .register
  | syscall => .syscall
  | addiu | andi | beq | bne | lui | lw | ori | sw => .immediate
  | j => .jump

/-- The top six bits. -/
def opcode : Mnemonic → Byte
  | add | sub | and | or | slt | syscall => 0x00
  | j => 0x02
  | beq => 0x04
  | bne => 0x05
  | addiu => 0x09
  | andi => 0x0C
  | ori => 0x0D
  | lui => 0x0F
  | lw => 0x23
  | sw => 0x2B

/-- The low six bits where the opcode is zero, and zero elsewhere. -/
def funct : Mnemonic → Byte
  | syscall => 0x0C
  | add => 0x20
  | sub => 0x22
  | and => 0x24
  | or => 0x25
  | slt => 0x2A
  | _ => 0x00

def operandForm : Mnemonic → OperandForm
  | add | sub | and | or | slt => .rdRsRt
  | syscall => .empty
  | addiu | andi | ori => .rtRsImm
  | beq | bne => .rsRtTarget
  | lui => .rtImm
  | lw | sw => .rtOffsetBase
  | j => .target

def signedness : Mnemonic → Signedness
  | addiu | beq | bne | lw | sw => .signed
  | _ => .unsigned

def ofName? (t : Text) : Option Mnemonic := all.find? (·.name = t)

/-- Finds a mnemonic by its codes. The second code matters only where the first is zero. -/
def ofCodes? (opcode funct : Byte) : Option Mnemonic :=
  all.find? fun m => m.opcode = opcode ∧ (opcode = 0 → m.funct = funct)

end Mnemonic

end MipsAsm
