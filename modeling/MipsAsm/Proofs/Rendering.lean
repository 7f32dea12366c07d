import MipsAsm.Proofs.Resolution
import MipsAsm.Proofs.Tokens
import MipsAsm.Source.Expansion

/-!
The assembler text of a record. It is written in operand characters, blanks and commas, it stands for
itself when pseudo-instructions are expanded, and it resolves to the record wherever it is placed.
-/

set_option autoImplicit false

namespace MipsAsm

open Text Numeral Outcome

namespace Numeral

theorem integer_ne_nil (value : Int) : integer value ≠ [] := by
  cases value with
  | ofNat n => exact Nat.toDigits_ne_nil
  | negSucc n => exact List.cons_ne_nil _ _

theorem paren_not_mem_integer (value : Int) : '(' ∉ integer value := by
  have hDecimal (n : Nat) : '(' ∉ decimal n := by
    intro hMem
    cases Nat.isDigit_of_mem_toDigits (by decide) (by decide) hMem
  cases value with
  | ofNat n => exact hDecimal n
  | negSucc n =>
    intro hMem
    rcases List.mem_cons.mp hMem with hSign | hDigits
    · cases hSign
    · exact hDecimal (n + 1) hDigits

theorem isNameStart_of_isDigit {c : Char} (h : c.isDigit = true) : isNameStart c = false := by
  have hCode : 48 ≤ c.toNat ∧ c.toNat ≤ 57 := Char.isDigit_iff_toNat.mp h
  have hLetter : c.isAlpha = false := by
    rw [← Bool.not_eq_true, isAlpha_iff]
    omega
  have hUnderscore : c ≠ '_' := by
    rintro rfl
    exact absurd hCode (by decide)
  have hDot : c ≠ '.' := by
    rintro rfl
    exact absurd hCode (by decide)
  simp [isNameStart, hLetter, hUnderscore, hDot]

theorem isIdentifier_integer (value : Int) : isIdentifier (integer value) = false := by
  cases value with
  | ofNat n =>
    change isIdentifier (decimal n) = false
    cases hDigits : decimal n with
    | nil => rfl
    | cons c rest =>
      have hMem : c ∈ decimal n := hDigits ▸ List.mem_cons_self
      have hDigit := Nat.isDigit_of_mem_toDigits (by decide) (by decide) hMem
      rw [isIdentifier, isNameStart_of_isDigit hDigit, Bool.false_and]
  | negSucc n => rfl

end Numeral

namespace Signedness

/-- How sixteen bits are written as an operand. -/
def text : Signedness → Half → Text
  | signed, imm => integer imm.toInt
  | unsigned, imm => markedHex 1 imm.toNat

theorem plain_text (s : Signedness) (imm : Half) : Plain (s.text imm) := by
  cases s with
  | signed => exact plain_integer _
  | unsigned => exact plain_markedHex _ _

theorem text_ne_nil (s : Signedness) (imm : Half) : s.text imm ≠ [] := by
  cases s with
  | signed => exact integer_ne_nil _
  | unsigned => exact List.cons_ne_nil _ _

theorem paren_not_mem_text (s : Signedness) (imm : Half) : '(' ∉ s.text imm := by
  cases s with
  | signed => exact paren_not_mem_integer _
  | unsigned =>
    intro hMem
    rcases List.mem_append.mp hMem with hMark | hDigits
    · exact absurd hMark (by decide)
    · cases allDigits_hex 1 imm.toNat '(' hDigits

theorem read_text (s : Signedness) (imm : Half) : Immediate.read (s.text imm) = .ok (s.value imm) := by
  have hFits := s.fits_value imm
  cases s with
  | signed =>
    obtain ⟨hLow, hHigh⟩ := hFits
    refine Immediate.read_integer ?_
    simp only [value] at hLow hHigh
    rw [Immediate.limit]
    omega
  | unsigned =>
    obtain ⟨-, hHigh⟩ := hFits
    refine Immediate.read_markedHex 1 ?_
    simp only [value] at hHigh
    rw [Immediate.limit]
    omega

theorem isIdentifier_text (s : Signedness) (imm : Half) : isIdentifier (s.text imm) = false := by
  cases s with
  | signed => exact isIdentifier_integer _
  | unsigned => rfl

theorem immRead_text (s : Signedness) (imm : Half) : Imm.read s (s.text imm) = .ok (.value (s.value imm)) :=
  Imm.read_value (s.read_text imm) (s.fits_value imm)

theorem targetRead_text (s : Signedness) (imm : Half) :
    Target.read (s.text imm) = .ok (.value (s.value imm)) :=
  Target.read_value (s.isIdentifier_text imm) (s.read_text imm)

end Signedness

theorem Mnemonic.plain_name (m : Mnemonic) : Plain m.name := by
  cases m <;> decide

theorem Mnemonic.name_ne_nil (m : Mnemonic) : m.name ≠ [] := by
  cases m <;> decide

theorem Mnemonic.expand_name (m : Mnemonic) (operands : List Text) :
    InstrText.expand ⟨m.name, operands⟩ = .ok [⟨m.name, operands⟩] := by
  have hName : m.name ≠ "li".toList ∧ m.name ≠ "la".toList ∧ m.name ≠ "move".toList ∧
      m.name ≠ "blt".toList := by
    cases m <;> decide
  obtain ⟨hLi, hLa, hMove, hBlt⟩ := hName
  rw [InstrText.expand, if_neg hLi, if_neg hLa, if_neg hMove, if_neg hBlt]

/-- Whatever is read as one instruction stands for itself. -/
theorem SymInstr.Reads.expand_eq {i : InstrText} {s : SymInstr} (h : Reads i s) : i.expand = .ok [i] := by
  cases h <;> exact Mnemonic.expand_name _ _

/-- The mnemonic and the operands are texts of operand characters. -/
structure InstrText.Plain (i : InstrText) : Prop where
  mnemonic : Text.Plain i.mnemonic
  mnemonic_ne_nil : i.mnemonic ≠ []
  operands : ∀ operand ∈ i.operands, Text.Plain operand ∧ operand ≠ []

namespace InstrText

theorem Plain.wellFormed {i : InstrText} (h : i.Plain) : i.WellFormed where
  mnemonic_ne_nil := h.mnemonic_ne_nil
  mnemonic_not_blank := h.mnemonic.not_blank
  operand_ne_nil operand hOperand := (h.operands operand hOperand).2
  operand_trimmed operand hOperand := trimmed_of_forall (h.operands operand hOperand).1.not_blank
  operand_comma operand hOperand := (h.operands operand hOperand).1.not_mem (by decide)

theorem Plain.not_mem_render {i : InstrText} (h : i.Plain) {c : Char} (hChar : isOperandChar c = false)
    (hMark : c ∉ ", ".toList) : c ∉ i.render := by
  intro hMem
  obtain hName | hSep | ⟨operand, hOperand, hc⟩ := mem_render hMem
  · exact h.mnemonic.not_mem hChar hName
  · exact hMark hSep
  · exact (h.operands operand hOperand).1.not_mem hChar hc

end InstrText

namespace Instr

theorem immediateOperands_eq (m : Mnemonic) (rs rt : Byte) (imm : Half) :
    immediateOperands m rs rt imm =
      match m.operandForm with
      | .rtImm => [regText rt, m.signedness.text imm]
      | .rtOffsetBase => [regText rt, m.signedness.text imm ++ "(".toList ++ regText rs ++ ")".toList]
      | .rsRtTarget => [regText rs, regText rt, m.signedness.text imm]
      | _ => [regText rt, regText rs, m.signedness.text imm] := by
  cases m <;> rfl

theorem regText_written {number : Byte} (h : number.toNat < 32) :
    Plain (regText number) ∧ regText number ≠ [] :=
  ⟨Reg.plain_name h, Reg.name_ne_nil h⟩

theorem immediateOperands_written (m : Mnemonic) {rs rt : Byte} (hRs : rs.toNat < 32)
    (hRt : rt.toNat < 32) (imm : Half) :
    ∀ operand ∈ immediateOperands m rs rt imm, Plain operand ∧ operand ≠ [] := by
  have hImm : Plain (m.signedness.text imm) ∧ m.signedness.text imm ≠ [] :=
    ⟨m.signedness.plain_text imm, m.signedness.text_ne_nil imm⟩
  have hMemory : Plain (m.signedness.text imm ++ "(".toList ++ regText rs ++ ")".toList) ∧
      m.signedness.text imm ++ "(".toList ++ regText rs ++ ")".toList ≠ [] := by
    have hMarks : Plain "(".toList ∧ Plain ")".toList := by decide
    refine ⟨((hImm.1.append hMarks.1).append (regText_written hRs).1).append hMarks.2, ?_⟩
    exact List.append_ne_nil_of_right_ne_nil _ (List.cons_ne_nil _ _)
  have hRsText := regText_written hRs
  have hRtText := regText_written hRt
  rw [immediateOperands_eq]
  split
  · exact List.forall_mem_cons.mpr ⟨hRtText, List.forall_mem_singleton.mpr hImm⟩
  · exact List.forall_mem_cons.mpr ⟨hRtText, List.forall_mem_singleton.mpr hMemory⟩
  · exact List.forall_mem_cons.mpr
      ⟨hRsText, List.forall_mem_cons.mpr ⟨hRtText, List.forall_mem_singleton.mpr hImm⟩⟩
  · exact List.forall_mem_cons.mpr
      ⟨hRtText, List.forall_mem_cons.mpr ⟨hRsText, List.forall_mem_singleton.mpr hImm⟩⟩

theorem toInstrText?_plain {d : Instr} (hFits : d.Fits) (hCanonical : d.canonical = d) {i : InstrText}
    (h : d.toInstrText? = some i) : i.Plain := by
  cases d with
  | register m rs rt rd shamt funct =>
    obtain ⟨hRs, hRt, hRd, -⟩ := hFits
    obtain ⟨-, hText⟩ := Option.ite_none_right_eq_some.mp h
    cases hText
    refine ⟨m.plain_name, m.name_ne_nil, ?_⟩
    simp [regText_written hRs, regText_written hRt, regText_written hRd]
  | immediate m rs rt imm =>
    obtain ⟨hRs, hRt⟩ := hFits
    have hSource : sourceOf m rs = rs := by
      injection hCanonical
    cases h
    rw [hSource] at hRs
    exact ⟨m.plain_name, m.name_ne_nil, immediateOperands_written m hRs hRt imm⟩
  | jump m index =>
    cases h
    refine ⟨m.plain_name, m.name_ne_nil, List.forall_mem_singleton.mpr ⟨?_, ?_⟩⟩
    · exact plain_markedHex _ _
    · exact List.cons_ne_nil _ _
  | syscall code =>
    obtain ⟨-, hText⟩ := Option.ite_none_right_eq_some.mp h
    cases hText
    exact ⟨Mnemonic.syscall.plain_name, Mnemonic.syscall.name_ne_nil, by simp⟩

theorem reads_register {m : Mnemonic} {rs rt rd : Byte} (hFormat : m.format = .register)
    (hRs : rs.toNat < 32) (hRt : rt.toNat < 32) (hRd : rd.toNat < 32) :
    SymInstr.Reads ⟨m.name, [regText rd, regText rs, regText rt]⟩ (.register m ⟨rd⟩ ⟨rs⟩ ⟨rt⟩) := by
  have hForm : m.operandForm = .rdRsRt := by
    cases m <;> first | rfl | cases hFormat
  exact .register hForm (Reg.named_name hRd) (Reg.named_name hRs) (Reg.named_name hRt)

theorem reads_immediate {m : Mnemonic} {rs rt : Byte} (hFormat : m.format = .immediate)
    (hRs : rs.toNat < 32) (hRt : rt.toNat < 32) (hSource : sourceOf m rs = rs) (imm : Half) :
    ∃ s, SymInstr.Reads ⟨m.name, immediateOperands m rs rt imm⟩ s ∧
      ∀ symbols address, s.resolve symbols address = .ok (.immediate m rs rt imm) := by
  have hNamedRs : Reg.named (regText rs) = .ok ⟨rs⟩ := Reg.named_name hRs
  have hNamedRt : Reg.named (regText rt) = .ok ⟨rt⟩ := Reg.named_name hRt
  have hImm := m.signedness.immRead_text imm
  have hTarget := m.signedness.targetRead_text imm
  have hValue (symbols : Symbols) :
      SymInstr.resolveImm symbols m.signedness (.value (m.signedness.value imm)) = .ok imm := by
    refine bind_eq_ok.mpr ⟨(), Signedness.check_eq_ok.mpr (m.signedness.fits_value imm), ?_⟩
    exact pure_eq_ok.mpr (m.signedness.ofInt_value imm)
  rw [immediateOperands_eq]
  split
  · rename_i hForm
    have hLui : m = .lui := m.eq_lui_iff.mpr hForm
    have hZero : rs = 0 := by rw [← hSource, hLui]; rfl
    subst hZero
    refine ⟨_, .upper hForm hNamedRt hImm, fun symbols address => ?_⟩
    exact bind_eq_ok.mpr ⟨imm, hValue symbols, rfl⟩
  · rename_i hForm
    have hPlace := MemoryOperand.read_written (m.signedness.plain_text imm) (Reg.plain_name (r := ⟨rs⟩) hRs)
      (m.signedness.text_ne_nil imm) (m.signedness.paren_not_mem_text imm)
    refine ⟨_, .memory hForm hPlace hNamedRt hNamedRs hImm, fun symbols address => ?_⟩
    exact bind_eq_ok.mpr ⟨imm, hValue symbols, rfl⟩
  · rename_i hForm
    have hSigned : m.signedness = .signed := by
      revert hForm
      cases m <;> decide
    refine ⟨_, .branch hForm hNamedRs hNamedRt hTarget, fun symbols address => ?_⟩
    refine bind_eq_ok.mpr ⟨imm, ?_, rfl⟩
    rw [hSigned] at hValue ⊢
    exact hValue symbols
  · rename_i hUpper hMemory hBranch
    have hForm : m.operandForm = .rtRsImm := by
      revert hFormat hUpper hMemory hBranch
      cases m <;> decide
    refine ⟨_, .immediate hForm hNamedRt hNamedRs hImm, fun symbols address => ?_⟩
    exact bind_eq_ok.mpr ⟨imm, hValue symbols, rfl⟩

theorem toNat_shiftLeft_two {index : Word} (h : index.toNat < 2 ^ 26) :
    (index <<< 2).toNat = 4 * index.toNat := by
  rw [BitVec.toNat_shiftLeft, Nat.shiftLeft_eq]
  omega

theorem reads_jump {m : Mnemonic} {index : Word} (hFormat : m.format = .jump)
    (hIndex : index.toNat < 2 ^ 26) :
    ∃ s, SymInstr.Reads ⟨m.name, [markedHex 8 (index <<< 2).toNat]⟩ s ∧
      ∀ symbols address, s.resolve symbols address = .ok (.jump m index) := by
  have hAddress := toNat_shiftLeft_two hIndex
  have hForm : m.operandForm = .target := by
    revert hFormat
    cases m <;> decide
  have hTarget : Target.read (markedHex 8 (index <<< 2).toNat) = .ok (.value (index <<< 2).toNat) := by
    refine Target.read_value rfl (Immediate.read_markedHex 8 ?_)
    rw [Immediate.limit]
    omega
  refine ⟨_, .jump hForm hTarget, fun symbols address => ?_⟩
  have hResolve : SymInstr.resolveAddress symbols (.value (index <<< 2).toNat) = .ok (index <<< 2) := by
    rw [SymInstr.resolveAddress, if_pos (by omega), BitVec.ofInt_natCast, BitVec.ofNat_toNat,
      BitVec.setWidth_eq]
  have hAligned : ¬(index <<< 2).toNat % 4 ≠ 0 := by omega
  have hJump : jumpIndex (index <<< 2) = index := by
    apply BitVec.eq_of_toNat_eq
    rw [toNat_jumpIndex]
    omega
  refine bind_eq_ok.mpr ⟨index <<< 2, hResolve, ?_⟩
  rw [if_neg hAligned, hJump]
  rfl

/-- The text of a record resolves to the record, whatever the labels and the address are. -/
theorem exists_reads {d : Instr} (hConsistent : d.Consistent) (hFits : d.Fits)
    (hCanonical : d.canonical = d) {i : InstrText} (h : d.toInstrText? = some i) :
    ∃ s, SymInstr.Reads i s ∧ ∀ symbols address, s.resolve symbols address = .ok d := by
  cases d with
  | register m rs rt rd shamt funct =>
    obtain ⟨hFormat, hFunct⟩ := hConsistent
    obtain ⟨hRs, hRt, hRd, -⟩ := hFits
    obtain ⟨hShamt, hText⟩ := Option.ite_none_right_eq_some.mp h
    cases hText
    subst hShamt hFunct
    exact ⟨_, reads_register hFormat hRs hRt hRd, fun _ _ => rfl⟩
  | immediate m rs rt imm =>
    obtain ⟨hRs, hRt⟩ := hFits
    have hSource : sourceOf m rs = rs := by
      injection hCanonical
    cases h
    rw [hSource] at hRs
    exact reads_immediate hConsistent hRs hRt hSource imm
  | jump m index =>
    cases h
    exact reads_jump hConsistent hFits
  | syscall code =>
    obtain ⟨hCode, hText⟩ := Option.ite_none_right_eq_some.mp h
    cases hText
    subst hCode
    exact ⟨_, .syscall, fun _ _ => rfl⟩

theorem exists_reads_word {d : Instr} (hConsistent : d.Consistent) (hFits : d.Fits)
    (hCanonical : d.canonical = d) {i : InstrText} (h : d.toInstrText? = some i) {w : Word}
    (hEncode : d.encode = .ok w) :
    ∃ s, SymInstr.Reads i s ∧ ∀ symbols address, s.word symbols address = .ok w := by
  obtain ⟨s, hReads, hResolve⟩ := exists_reads hConsistent hFits hCanonical h
  exact ⟨s, hReads, fun symbols address => bind_eq_ok.mpr ⟨d, hResolve symbols address, hEncode⟩⟩

end Instr

end MipsAsm
