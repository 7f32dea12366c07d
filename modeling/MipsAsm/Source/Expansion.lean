import MipsAsm.Source.InstrText
import MipsAsm.Source.Operand

/-!
Pseudo-instructions. Each stands for one or two machine instructions that use `$at` for what they need
in between; any other instruction stands for itself.
-/

set_option autoImplicit false

namespace MipsAsm.InstrText

def zeroReg : Text := "$zero".toList

def scratchReg : Text := "$at".toList

/-- Loads an integer of 32 bits, signed or unsigned, in one instruction if sixteen signed bits hold it. -/
def loadImmediate (rd imm : Text) : Except Fault (List InstrText) := do
  let value ← Immediate.read imm
  if value < -0x80000000 ∨ 0x100000000 ≤ value then throw (.immediateOutOfRange value 32)
  if -0x8000 ≤ value ∧ value < 0x8000 then return [⟨"addiu".toList, [rd, zeroReg, imm]⟩]
  let word : Word := BitVec.ofInt 32 value
  return [⟨"lui".toList, [scratchReg, Numeral.markedHex 4 (word.toNat / 0x10000)]⟩,
    ⟨"ori".toList, [rd, scratchReg, Numeral.markedHex 4 (word.toNat % 0x10000)]⟩]

/-- Loads a data label's address by its two halves. -/
def loadAddress (rd label : Text) : Except Fault (List InstrText) :=
  if Text.isIdentifier label then
    .ok [⟨"lui".toList, [scratchReg, "%hi(".toList ++ label ++ ")".toList]⟩,
      ⟨"ori".toList, [rd, scratchReg, "%lo(".toList ++ label ++ ")".toList]⟩]
  else .error (.malformed (.addressLabel label))

def expand (i : InstrText) : Except Fault (List InstrText) :=
  if i.mnemonic = "li".toList then
    match i.operands with
    | [rd, imm] => loadImmediate rd imm
    | _ => .error (i.miscount 2 "rd, imm")
  else if i.mnemonic = "la".toList then
    match i.operands with
    | [rd, label] => loadAddress rd label
    | _ => .error (i.miscount 2 "rd, label")
  else if i.mnemonic = "move".toList then
    match i.operands with
    | [rd, rs] => .ok [⟨"add".toList, [rd, zeroReg, rs]⟩]
    | _ => .error (i.miscount 2 "rd, rs")
  else if i.mnemonic = "blt".toList then
    match i.operands with
    | [rs, rt, target] =>
      .ok [⟨"slt".toList, [scratchReg, rs, rt]⟩, ⟨"bne".toList, [scratchReg, zeroReg, target]⟩]
    | _ => .error (i.miscount 3 "rs, rt, label")
  else .ok [i]

end MipsAsm.InstrText
