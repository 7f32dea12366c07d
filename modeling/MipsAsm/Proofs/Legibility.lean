import MipsAsm.Proofs.Reading

/-!
The characters of operands. Whatever is read as a register, an integer, a target or a memory operand is
made of blanks, letters, digits and a few marks. None of them starts a comment or a literal, or ends a
label or an operand.
-/

set_option autoImplicit false

namespace MipsAsm

open Outcome

namespace Text

def isLegible (c : Char) : Bool := isBlank c || isOperandChar c || "+%_.".toList.contains c

/-- A text of characters that may stand in an operand. -/
def Legible (t : Text) : Prop := ∀ c ∈ t, isLegible c = true

instance (t : Text) : Decidable (Legible t) := List.decidableBAll _ t

theorem Legible.not_mem {t : Text} (h : Legible t) {c : Char} (hChar : isLegible c = false) : c ∉ t := by
  intro hc
  rw [h c hc] at hChar
  cases hChar

theorem Legible.append {front back : Text} (hFront : Legible front) (hBack : Legible back) :
    Legible (front ++ back) := by
  intro c hc
  rcases List.mem_append.mp hc with hc | hc
  · exact hFront c hc
  · exact hBack c hc

theorem legible_cons {c : Char} {t : Text} (hHead : isLegible c = true) (hTail : Legible t) :
    Legible (c :: t) :=
  List.forall_mem_cons.mpr ⟨hHead, hTail⟩

theorem Plain.legible {t : Text} (h : Plain t) : Legible t := by
  intro c hc
  simp [isLegible, h c hc]

theorem legible_of_trim {t : Text} (h : Legible (trim t)) : Legible t := by
  intro c hc
  rcases isBlank_or_mem_trim hc with hBlank | hMem
  · simp [isLegible, hBlank]
  · exact h c hMem

theorem isLegible_of_isNamePart {c : Char} (h : isNamePart c = true) : isLegible c = true := by
  simp only [isNamePart, Bool.or_eq_true, beq_iff_eq] at h
  rcases h with (hAlphanum | rfl) | rfl
  · simp [isLegible, isOperandChar, hAlphanum]
  · decide
  · decide

theorem legible_of_isIdentifier {t : Text} (h : isIdentifier t = true) : Legible t :=
  fun c hc => isLegible_of_isNamePart (isNamePart_of_isIdentifier h c hc)

theorem eq_of_dropLast? {last : Char} {t init : Text} (h : dropLast? last t = some init) :
    t = init ++ [last] := by
  unfold dropLast? at h
  split at h
  · rename_i hLast
    cases h
    obtain ⟨front, rfl⟩ := List.getLast?_eq_some_iff.mp hLast
    rw [List.dropLast_concat]
  · cases h

theorem eq_of_dropMark? {mark t rest : Text} (h : dropMark? mark t = some rest) : t = mark ++ rest := by
  induction mark generalizing t with
  | nil =>
    cases h
    rfl
  | cons m mark ih =>
    cases t with
    | nil => cases h
    | cons c t =>
      rw [dropMark?] at h
      split at h
      · rename_i hEq
        rw [hEq, List.cons_append, ih h]
      · cases h

end Text

open Text

namespace Immediate

theorem legible_of_magnitude {t : Text} {n : Nat} (h : magnitude t = .ok n) : Legible t := by
  unfold magnitude at h
  split at h
  · rename_i digits hMark
    have hDigits := ((Numeral.readDigits_eq_ok_iff (by decide) digits).mp h).2.1.plain.legible
    unfold Numeral.dropHexMark? at hMark
    split at hMark
    · cases hMark
      exact legible_cons (by decide) (legible_cons (by decide) hDigits)
    · cases hMark
      exact legible_cons (by decide) (legible_cons (by decide) hDigits)
    · cases hMark
  · exact ((Numeral.readDigits_eq_ok_iff (by decide) t).mp h).2.1.plain.legible

theorem legible_of_splitSign {t : Text} (h : Legible (splitSign t).2) : Legible t := by
  unfold splitSign at h
  split at h
  · exact legible_cons (by decide) h
  · exact legible_cons (by decide) h
  · exact h

theorem legible_of_read {t : Text} {v : Int} (h : read t = .ok v) : Legible t := by
  simp only [read] at h
  split at h
  · rename_i n hMagnitude
    exact legible_of_trim (legible_of_splitSign (legible_of_magnitude hMagnitude))
  · cases h

end Immediate

namespace Reg

theorem Spells.legible {t : Text} {n : Nat} (h : Spells t n) : Legible t := by
  cases h with
  | name hName => exact (plain_of_mem_names (List.mem_of_getElem? hName)).legible
  | number hNumber =>
    apply legible_cons (by decide)
    cases hNumber with
    | bare hDigits => exact (hDigits.allDigits (by decide)).plain.legible
    | plus hDigits => exact legible_cons (by decide) (hDigits.allDigits (by decide)).plain.legible

theorem legible_of_named {t : Text} {r : Reg} (h : named t = .ok r) : Legible t :=
  legible_of_trim (named_eq_ok_iff.mp h).legible

end Reg

theorem Target.legible_of_read {t : Text} {target : Target} (h : Target.read t = .ok target) : Legible t := by
  unfold Target.read at h
  split at h
  · rename_i hName
    exact legible_of_isIdentifier hName
  · obtain ⟨value, hRead, -⟩ := map_eq_ok.mp h
    exact Immediate.legible_of_read hRead

namespace Imm

theorem legible_of_halfLabel? {mark : String} (hMark : Legible mark.toList) {t name : Text}
    (h : halfLabel? mark t = some name) : Legible t := by
  obtain ⟨rest, hRest, h⟩ := Option.bind_eq_some_iff.mp h
  obtain ⟨label, hLabel, h⟩ := Option.bind_eq_some_iff.mp h
  obtain ⟨hName, -⟩ := Option.ite_none_right_eq_some.mp h
  have hClose : Legible [')'] := by decide
  rw [eq_of_dropMark? hRest, eq_of_dropLast? hLabel]
  exact hMark.append ((legible_of_trim (legible_of_isIdentifier hName)).append hClose)

theorem legible_of_read {s : Signedness} {t : Text} {imm : Imm} (h : Imm.read s t = .ok imm) : Legible t := by
  unfold Imm.read at h
  split at h
  · rename_i hHigh
    exact legible_of_halfLabel? (by decide) hHigh
  · rename_i hLow
    exact legible_of_halfLabel? (by decide) hLow
  · obtain ⟨value, hValue, -⟩ := bind_eq_ok.mp h
    exact Immediate.legible_of_read hValue

end Imm

namespace MemoryOperand

/-- The offset stands before the first opening parenthesis, and the base between it and the last character. -/
theorem exists_of_read {t : Text} {place : MemoryOperand} (h : MemoryOperand.read t = .ok place) :
    ∃ rest base, trim t = (trim t).takeWhile (fun c => decide (c ≠ '(')) ++ '(' :: rest ∧
      Text.dropLast? ')' rest = some base ∧
      place = ⟨if (trim ((trim t).takeWhile fun c => decide (c ≠ '('))).isEmpty then "0".toList
        else trim ((trim t).takeWhile fun c => decide (c ≠ '(')), trim base⟩ := by
  rw [MemoryOperand.read] at h
  cases hRest : (trim t).dropWhile (fun c => decide (c ≠ '(')) with
  | nil =>
    simp only [hRest] at h
    cases h
  | cons mark rest =>
    have hMark : mark = '(' := by
      have hNot := List.head?_dropWhile_not (fun c => decide (c ≠ '(')) (trim t)
      rw [hRest] at hNot
      simpa using hNot
    simp only [hRest] at h
    rw [hMark] at hRest
    cases hLast : Text.dropLast? ')' rest with
    | none =>
      simp only [hLast] at h
      cases h
    | some base =>
      simp only [hLast] at h
      refine ⟨rest, base, ?_, hLast, (Except.ok.inj h).symm⟩
      rw [← hRest, List.takeWhile_append_dropWhile]

theorem legible_of_read {t : Text} {place : MemoryOperand} (h : MemoryOperand.read t = .ok place)
    (hOffset : Legible place.offset) (hBase : Legible place.base) : Legible t := by
  obtain ⟨rest, base, hBody, hLast, rfl⟩ := exists_of_read h
  have hFront : Legible ((trim t).takeWhile fun c => decide (c ≠ '(')) := by
    apply legible_of_trim
    dsimp only at hOffset
    split at hOffset
    · rename_i hEmpty
      rw [List.isEmpty_iff.mp hEmpty]
      exact nofun
    · exact hOffset
  have hClose : Legible [')'] := by decide
  apply legible_of_trim
  rw [hBody, eq_of_dropLast? hLast]
  exact hFront.append (legible_cons (by decide) ((legible_of_trim hBase).append hClose))

end MemoryOperand

/-- The operands of an instruction that is read are legible. -/
theorem SymInstr.Reads.legible {i : InstrText} {s : SymInstr} (h : Reads i s) :
    ∀ operand ∈ i.operands, Legible operand := by
  cases h with
  | syscall => exact nofun
  | register _ hRd hRs hRt =>
    have hRegs := And.intro (Reg.legible_of_named hRd)
      (And.intro (Reg.legible_of_named hRs) (Reg.legible_of_named hRt))
    simpa using hRegs
  | immediate _ hRt hRs hImm =>
    simpa using And.intro (Reg.legible_of_named hRt)
      (And.intro (Reg.legible_of_named hRs) (Imm.legible_of_read hImm))
  | upper _ hRt hImm => simpa using And.intro (Reg.legible_of_named hRt) (Imm.legible_of_read hImm)
  | memory _ hPlace hRt hBase hImm =>
    have hMemory := MemoryOperand.legible_of_read hPlace (Imm.legible_of_read hImm)
      (Reg.legible_of_named hBase)
    simpa using And.intro (Reg.legible_of_named hRt) hMemory
  | branch _ hRs hRt hTarget =>
    simpa using And.intro (Reg.legible_of_named hRs)
      (And.intro (Reg.legible_of_named hRt) (Target.legible_of_read hTarget))
  | jump _ hTarget => simpa using Target.legible_of_read hTarget

end MipsAsm
