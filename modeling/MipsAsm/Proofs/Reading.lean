import MipsAsm.Program.SymInstr
import MipsAsm.Proofs.Codec
import MipsAsm.Proofs.Registers

/-!
Reading symbolic instructions, as a relation: one rule for each operand form. What is read names machine
registers only, and its mnemonic has the format of its constructor.
-/

set_option autoImplicit false

namespace MipsAsm

open Outcome

/-- The format of the mnemonics with an operand form. -/
def OperandForm.format : OperandForm → Format
  | rdRsRt => .register
  | empty => .syscall
  | rtRsImm | rsRtTarget | rtImm | rtOffsetBase => .immediate
  | target => .jump

/-- How many operands are written. -/
def OperandForm.arity : OperandForm → Nat
  | empty => 0
  | target => 1
  | rtImm | rtOffsetBase => 2
  | rdRsRt | rtRsImm | rsRtTarget => 3

theorem Mnemonic.format_eq (m : Mnemonic) : m.format = m.operandForm.format := by
  cases m <;> rfl

theorem Mnemonic.format_of_form {m : Mnemonic} {form : OperandForm} (h : m.operandForm = form) :
    m.format = form.format := by
  rw [m.format_eq, h]

theorem Mnemonic.eq_lui_iff (m : Mnemonic) : m = .lui ↔ m.operandForm = .rtImm := by
  cases m <;> decide

theorem Mnemonic.ne_lui_of_form {m : Mnemonic} {form : OperandForm} (h : m.operandForm = form)
    (hForm : form ≠ .rtImm) : m ≠ .lui := by
  rw [Ne, m.eq_lui_iff, h]
  exact hForm

theorem Mnemonic.named_eq_ok_iff {t : Text} {m : Mnemonic} : Mnemonic.named t = .ok m ↔ t = m.name := by
  have hNames : ∀ m ∈ Mnemonic.all, Mnemonic.named m.name = .ok m := by decide +kernel
  constructor
  · intro h
    unfold Mnemonic.named at h
    split at h
    · rename_i found hFound
      cases h
      rw [Mnemonic.ofName?] at hFound
      have hName := List.find?_some hFound
      exact (of_decide_eq_true hName).symm
    · cases h
  · rintro rfl
    exact hNames m m.mem_all

theorem Mnemonic.name_inj {m n : Mnemonic} : m.name = n.name ↔ m = n := by
  constructor
  · intro hName
    have hNamed : Mnemonic.named n.name = .ok m := named_eq_ok_iff.mpr hName.symm
    rw [named_eq_ok_iff.mpr rfl] at hNamed
    exact (Except.ok.inj hNamed).symm
  · rintro rfl
    rfl

namespace SymInstr

/-- How the operands of each form are read. -/
inductive Reads : InstrText → SymInstr → Prop
  | syscall : Reads ⟨Mnemonic.syscall.name, []⟩ .syscall
  | register {m : Mnemonic} {rd rs rt : Text} {d s t : Reg} (hForm : m.operandForm = .rdRsRt)
      (hRd : Reg.named rd = .ok d) (hRs : Reg.named rs = .ok s) (hRt : Reg.named rt = .ok t) :
      Reads ⟨m.name, [rd, rs, rt]⟩ (.register m d s t)
  | immediate {m : Mnemonic} {rt rs imm : Text} {t s : Reg} {i : Imm} (hForm : m.operandForm = .rtRsImm)
      (hRt : Reg.named rt = .ok t) (hRs : Reg.named rs = .ok s)
      (hImm : Imm.read m.signedness imm = .ok i) : Reads ⟨m.name, [rt, rs, imm]⟩ (.immediate m t s i)
  | upper {m : Mnemonic} {rt imm : Text} {t : Reg} {i : Imm} (hForm : m.operandForm = .rtImm)
      (hRt : Reg.named rt = .ok t) (hImm : Imm.read m.signedness imm = .ok i) :
      Reads ⟨m.name, [rt, imm]⟩ (.immediate m t .zero i)
  | memory {m : Mnemonic} {rt memory : Text} {place : MemoryOperand} {t s : Reg} {i : Imm}
      (hForm : m.operandForm = .rtOffsetBase) (hPlace : MemoryOperand.read memory = .ok place)
      (hRt : Reg.named rt = .ok t) (hBase : Reg.named place.base = .ok s)
      (hImm : Imm.read m.signedness place.offset = .ok i) :
      Reads ⟨m.name, [rt, memory]⟩ (.immediate m t s i)
  | branch {m : Mnemonic} {rs rt target : Text} {s t : Reg} {goal : Target}
      (hForm : m.operandForm = .rsRtTarget) (hRs : Reg.named rs = .ok s) (hRt : Reg.named rt = .ok t)
      (hTarget : Target.read target = .ok goal) : Reads ⟨m.name, [rs, rt, target]⟩ (.branch m s t goal)
  | jump {m : Mnemonic} {target : Text} {goal : Target} (hForm : m.operandForm = .target)
      (hTarget : Target.read target = .ok goal) : Reads ⟨m.name, [target]⟩ (.jump m goal)

theorem Reads.read_eq {i : InstrText} {s : SymInstr} (h : Reads i s) : read i = .ok s := by
  cases h with
  | syscall => rfl
  | register hForm hRd hRs hRt =>
    refine bind_eq_ok.mpr ⟨_, Mnemonic.named_eq_ok_iff.mpr rfl, ?_⟩
    simp [hForm, hRd, hRs, hRt]
  | immediate hForm hRt hRs hImm =>
    refine bind_eq_ok.mpr ⟨_, Mnemonic.named_eq_ok_iff.mpr rfl, ?_⟩
    simp [hForm, hRt, hRs, hImm]
  | upper hForm hRt hImm =>
    refine bind_eq_ok.mpr ⟨_, Mnemonic.named_eq_ok_iff.mpr rfl, ?_⟩
    simp [hForm, hRt, hImm]
  | memory hForm hPlace hRt hBase hImm =>
    refine bind_eq_ok.mpr ⟨_, Mnemonic.named_eq_ok_iff.mpr rfl, ?_⟩
    simp [hForm, hPlace, hRt, hBase, hImm]
  | branch hForm hRs hRt hTarget =>
    refine bind_eq_ok.mpr ⟨_, Mnemonic.named_eq_ok_iff.mpr rfl, ?_⟩
    simp [hForm, hRs, hRt, hTarget]
  | jump hForm hTarget =>
    refine bind_eq_ok.mpr ⟨_, Mnemonic.named_eq_ok_iff.mpr rfl, ?_⟩
    simp [hForm, hTarget]

theorem reads_of_read_eq {i : InstrText} {s : SymInstr} (h : read i = .ok s) : Reads i s := by
  obtain ⟨mnemonic, operands⟩ := i
  obtain ⟨m, hNamed, hOperands⟩ := bind_eq_ok.mp h
  obtain rfl : mnemonic = m.name := Mnemonic.named_eq_ok_iff.mp hNamed
  dsimp only at hOperands
  split at hOperands
  · rename_i hForm
    have hSyscall : m = .syscall := by
      revert hForm
      cases m <;> decide
    obtain rfl : SymInstr.syscall = s := pure_eq_ok.mp hOperands
    subst hSyscall
    exact .syscall
  · cases hOperands
  · rename_i hForm
    simp only [bind_eq_ok, pure_eq_ok] at hOperands
    obtain ⟨d, hRd, s, hRs, t, hRt, rfl⟩ := hOperands
    exact .register hForm hRd hRs hRt
  · cases hOperands
  · rename_i hForm
    simp only [bind_eq_ok, pure_eq_ok] at hOperands
    obtain ⟨t, hRt, s, hRs, i, hImm, rfl⟩ := hOperands
    exact .immediate hForm hRt hRs hImm
  · cases hOperands
  · rename_i hForm
    simp only [bind_eq_ok, pure_eq_ok] at hOperands
    obtain ⟨t, hRt, i, hImm, rfl⟩ := hOperands
    exact .upper hForm hRt hImm
  · cases hOperands
  · rename_i hForm
    simp only [bind_eq_ok, pure_eq_ok] at hOperands
    obtain ⟨place, hPlace, t, hRt, s, hBase, i, hImm, rfl⟩ := hOperands
    exact .memory hForm hPlace hRt hBase hImm
  · cases hOperands
  · rename_i hForm
    simp only [bind_eq_ok, pure_eq_ok] at hOperands
    obtain ⟨s, hRs, t, hRt, goal, hTarget, rfl⟩ := hOperands
    exact .branch hForm hRs hRt hTarget
  · cases hOperands
  · rename_i hForm
    simp only [bind_eq_ok, pure_eq_ok] at hOperands
    obtain ⟨goal, hTarget, rfl⟩ := hOperands
    exact .jump hForm hTarget
  · cases hOperands

theorem Reads.length_operands {i : InstrText} {s : SymInstr} (h : Reads i s) :
    ∃ m : Mnemonic, i.mnemonic = m.name ∧ i.operands.length = m.operandForm.arity := by
  cases h with
  | syscall => exact ⟨.syscall, rfl, rfl⟩
  | register hForm => exact ⟨_, rfl, by rw [hForm]; rfl⟩
  | immediate hForm => exact ⟨_, rfl, by rw [hForm]; rfl⟩
  | upper hForm => exact ⟨_, rfl, by rw [hForm]; rfl⟩
  | memory hForm => exact ⟨_, rfl, by rw [hForm]; rfl⟩
  | branch hForm => exact ⟨_, rfl, by rw [hForm]; rfl⟩
  | jump hForm => exact ⟨_, rfl, by rw [hForm]; rfl⟩

/-- The mnemonic has the format of the constructor, the registers are machine registers, and `lui` has
no source register. -/
def Valid : SymInstr → Prop
  | register m d s t =>
    m.format = .register ∧ d.number.toNat < 32 ∧ s.number.toNat < 32 ∧ t.number.toNat < 32
  | syscall => True
  | immediate m t s _ =>
    m.format = .immediate ∧ t.number.toNat < 32 ∧ s.number.toNat < 32 ∧ (m = .lui → s.number = 0)
  | branch m s t _ =>
    m.format = .immediate ∧ m ≠ .lui ∧ s.number.toNat < 32 ∧ t.number.toNat < 32
  | jump m _ => m.format = .jump

theorem Reads.valid {i : InstrText} {s : SymInstr} (h : Reads i s) : s.Valid := by
  cases h with
  | syscall => trivial
  | register hForm hRd hRs hRt =>
    exact ⟨Mnemonic.format_of_form hForm, Reg.named_lt hRd, Reg.named_lt hRs, Reg.named_lt hRt⟩
  | immediate hForm hRt hRs =>
    have hLui := Mnemonic.ne_lui_of_form hForm (by decide)
    exact ⟨Mnemonic.format_of_form hForm, Reg.named_lt hRt, Reg.named_lt hRs,
      fun hEq => absurd hEq hLui⟩
  | upper hForm hRt =>
    exact ⟨Mnemonic.format_of_form hForm, Reg.named_lt hRt, by decide, fun _ => rfl⟩
  | memory hForm _ hRt hBase =>
    have hLui := Mnemonic.ne_lui_of_form hForm (by decide)
    exact ⟨Mnemonic.format_of_form hForm, Reg.named_lt hRt, Reg.named_lt hBase,
      fun hEq => absurd hEq hLui⟩
  | branch hForm hRs hRt =>
    have hLui := Mnemonic.ne_lui_of_form hForm (by decide)
    exact ⟨Mnemonic.format_of_form hForm, hLui, Reg.named_lt hRs, Reg.named_lt hRt⟩
  | jump hForm => exact Mnemonic.format_of_form hForm

theorem fits_of_immRead {s : Signedness} {t : Text} {v : Int} (h : Imm.read s t = .ok (.value v)) :
    s.Fits v := by
  unfold Imm.read at h
  split at h
  · cases h
  · cases h
  · obtain ⟨value, -, h⟩ := bind_eq_ok.mp h
    obtain ⟨u, hCheck, h⟩ := bind_eq_ok.mp h
    cases h
    exact Signedness.check_eq_ok.mp hCheck

/-- A numeric immediate has been checked against its sixteen bits. -/
theorem Reads.fits {i : InstrText} {m : Mnemonic} {t s : Reg} {v : Int}
    (h : Reads i (.immediate m t s (.value v))) : m.signedness.Fits v := by
  cases h with
  | immediate _ _ _ hImm => exact fits_of_immRead hImm
  | upper _ _ hImm => exact fits_of_immRead hImm
  | memory _ _ _ _ hImm => exact fits_of_immRead hImm

end SymInstr

end MipsAsm
