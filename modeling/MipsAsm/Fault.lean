import MipsAsm.Instr.Basic
import MipsAsm.Word.Field

/-!
What can go wrong with one instruction, word or line. A fault is a cause with the texts and numbers it
speaks of; its wording is `Fault.message` and nowhere else.
-/

set_option autoImplicit false

namespace MipsAsm

/-- The ways in which a piece of text, or a record, fails to be what its place asks for. -/
inductive Defect
  /-- Not eight hexadecimal digits. -/
  | hexWord (text : Text)
  | emptyInstruction
  /-- Nothing between two commas, or beside one. -/
  | emptyOperand (line : Text)
  | operandCount (mnemonic : Text) (count : Nat) (form : Text)
  /-- Something other than an identifier before a colon. -/
  | labelName (name : Text)
  /-- Not a complete string literal. -/
  | literal (text : Text)
  /-- A character that no backslash may precede. -/
  | escape (c : Char)
  /-- Not an integer of 64 bits. -/
  | immediate (text : Text)
  /-- Not of the form `offset(base)`. -/
  | memory (text : Text)
  /-- Something other than an identifier where an address is loaded. -/
  | addressLabel (text : Text)
  | misalignedJump (target : Word)
  /-- A record whose mnemonic has another format or function code. -/
  | unencodable (record : Instr)
  | labelledSegment
  | instructionInData (mnemonic : Text)
  /-- A defect described by its finder. -/
  | note (text : Text)
  deriving DecidableEq, Repr

inductive Fault
  | unknownMnemonic (name : Text)
  | unknownCodes (opcode funct : Byte)
  | undefinedLabel (name : Text)
  | duplicateLabel (name : Text)
  | malformed (defect : Defect)
  | immediateOutOfRange (value : Int) (bits : Nat)
  | unknownRegister (text : Text)
  | unsupportedDirective (text : Text)
  | field (error : FieldError)
  deriving DecidableEq, Repr

open Text Numeral

def Defect.message : Defect → Text
  | hexWord t => "expected 8 hex digits, got ".toList ++ quoted t
  | emptyInstruction => "empty instruction".toList
  | emptyOperand line => "empty operand in ".toList ++ quoted line
  | operandCount m count form =>
    quoted m ++ " expects ".toList ++ decimal count ++ " operand(s): ".toList ++ m ++ " ".toList ++ form
  | labelName name => "invalid label name ".toList ++ quoted name
  | literal t => "expected a quoted string, got ".toList ++ quoted t
  | escape c => "unknown escape ".toList ++ quoted ['\\', c]
  | immediate t => "bad immediate ".toList ++ quoted t
  | memory t => "expected offset(base), got ".toList ++ quoted t
  | addressLabel t => quoted "la".toList ++ " needs a label, got ".toList ++ quoted t
  | misalignedJump target =>
    "jump target ".toList ++ markedHex 8 target.toNat ++ " is not word aligned".toList
  | unencodable record =>
    quoted record.mnemonic.name ++ " cannot be encoded as ".toList ++ record.describe
  | labelledSegment => "label on a section directive".toList
  | instructionInData m => "instruction ".toList ++ quoted m ++ " in .data".toList
  | note t => t

def FieldError.message : FieldError → Text
  | overflow name value width =>
    "value ".toList ++ markedHex 1 value.toNat ++ " overflows the ".toList ++ decimal width ++
      "-bit ".toList ++ quoted name ++ " field".toList
  | outsideWord name => "the ".toList ++ quoted name ++ " field does not lie in a word".toList

def Fault.message : Fault → Text
  | unknownMnemonic name => "unknown mnemonic ".toList ++ quoted name
  | unknownCodes opcode funct =>
    "unknown opcode ".toList ++ markedHex 2 opcode.toNat ++ " / funct ".toList ++
      markedHex 2 funct.toNat
  | undefinedLabel name => "undefined label ".toList ++ quoted name
  | duplicateLabel name =>
    "label ".toList ++ quoted name ++ " is already defined in this section".toList
  | malformed defect => "malformed operand: ".toList ++ defect.message
  | immediateOutOfRange value bits =>
    "immediate ".toList ++ integer value ++ " does not fit in ".toList ++ decimal bits ++
      " bits".toList
  | unknownRegister t => "unknown register ".toList ++ quoted t
  | unsupportedDirective t => "unsupported directive ".toList ++ quoted t
  | field error => error.message

end MipsAsm
