import MipsAsm.Proofs.Legibility
import MipsAsm.Proofs.Lines
import MipsAsm.Proofs.Rendering

/-!
The shapes of expansions. An instruction expands to one or two instructions that stand for themselves,
and what they have besides the instruction's own operands is written without blanks. An instruction that
can be read is printed as a line that holds it and nothing else.
-/

set_option autoImplicit false

namespace MipsAsm

open Outcome Text

namespace Text

/-- A text that no blank breaks. -/
structure Unbroken (t : Text) : Prop where
  ne_nil : t ≠ []
  not_blank : ∀ c ∈ t, isBlank c = false

theorem Plain.unbroken {t : Text} (h : Plain t) (hNe : t ≠ []) : Unbroken t := ⟨hNe, h.not_blank⟩

theorem unbroken_half {mark label : Text} (hMark : (mark.all fun c => !isBlank c) = true)
    (hLabel : isIdentifier label = true) : Unbroken (mark ++ label ++ ")".toList) where
  ne_nil := List.append_ne_nil_of_right_ne_nil _ (List.cons_ne_nil _ _)
  not_blank c hc := by
    rw [List.mem_append, List.mem_append] at hc
    rcases hc with (hc | hc) | hc
    · exact not_blank_of_all hMark c hc
    · exact isBlank_of_isIdentifier hLabel c hc
    · rw [List.mem_singleton.mp hc]
      rfl

end Text

namespace InstrText

def pseudoNames : List Text := ["li", "la", "move", "blt"].map String.toList

theorem not_mem_pseudoNames {name : Text} :
    name ∉ pseudoNames ↔ name ≠ "li".toList ∧ name ≠ "la".toList ∧ name ≠ "move".toList ∧
      name ≠ "blt".toList := by
  simp [pseudoNames]

/-- The shapes of an expansion. -/
inductive Expands : InstrText → List InstrText → Prop
  | self {i : InstrText} (hName : i.mnemonic ∉ pseudoNames) : Expands i [i]
  | short (rd imm : Text) : Expands ⟨"li".toList, [rd, imm]⟩ [⟨"addiu".toList, [rd, zeroReg, imm]⟩]
  | long (rd imm : Text) (high low : Nat) :
      Expands ⟨"li".toList, [rd, imm]⟩
        [⟨"lui".toList, [scratchReg, Numeral.markedHex 4 high]⟩,
          ⟨"ori".toList, [rd, scratchReg, Numeral.markedHex 4 low]⟩]
  | address (rd : Text) {label : Text} (hLabel : isIdentifier label = true) :
      Expands ⟨"la".toList, [rd, label]⟩
        [⟨"lui".toList, [scratchReg, "%hi(".toList ++ label ++ ")".toList]⟩,
          ⟨"ori".toList, [rd, scratchReg, "%lo(".toList ++ label ++ ")".toList]⟩]
  | move (rd rs : Text) : Expands ⟨"move".toList, [rd, rs]⟩ [⟨"add".toList, [rd, zeroReg, rs]⟩]
  | less (rs rt target : Text) :
      Expands ⟨"blt".toList, [rs, rt, target]⟩
        [⟨"slt".toList, [scratchReg, rs, rt]⟩, ⟨"bne".toList, [scratchReg, zeroReg, target]⟩]

theorem expands_of_loadImmediate {rd imm : Text} {instrs : List InstrText}
    (h : loadImmediate rd imm = .ok instrs) : Expands ⟨"li".toList, [rd, imm]⟩ instrs := by
  obtain ⟨value, -, h⟩ := bind_eq_ok.mp h
  by_cases hWide : value < -0x80000000 ∨ 0x100000000 ≤ value
  · rw [if_pos hWide] at h
    cases h
  · rw [if_neg hWide] at h
    split at h
    · cases h
      exact .short rd imm
    · cases h
      exact .long rd imm _ _

theorem expands_of_loadAddress {rd label : Text} {instrs : List InstrText}
    (h : loadAddress rd label = .ok instrs) : Expands ⟨"la".toList, [rd, label]⟩ instrs := by
  unfold loadAddress at h
  split at h
  · rename_i hLabel
    cases h
    exact .address rd hLabel
  · cases h

theorem expands_of_expand {i : InstrText} {instrs : List InstrText} (h : i.expand = .ok instrs) :
    Expands i instrs := by
  obtain ⟨mnemonic, operands⟩ := i
  simp only [expand] at h
  split at h
  · rename_i hLi
    subst hLi
    split at h
    · exact expands_of_loadImmediate h
    · cases h
  split at h
  · rename_i hLa
    subst hLa
    split at h
    · exact expands_of_loadAddress h
    · cases h
  split at h
  · rename_i hMove
    subst hMove
    split at h
    · cases h
      exact .move _ _
    · cases h
  split at h
  · rename_i hBlt
    subst hBlt
    split at h
    · cases h
      exact .less _ _ _
    · cases h
  · rename_i hLi hLa hMove hBlt
    cases h
    exact .self (not_mem_pseudoNames.mpr ⟨hLi, hLa, hMove, hBlt⟩)

theorem expand_of_not_mem {i : InstrText} (h : i.mnemonic ∉ pseudoNames) : i.expand = .ok [i] := by
  obtain ⟨hLi, hLa, hMove, hBlt⟩ := not_mem_pseudoNames.mp h
  rw [expand, if_neg hLi, if_neg hLa, if_neg hMove, if_neg hBlt]

namespace Expands

variable {i : InstrText} {instrs : List InstrText}

theorem length_eq (h : Expands i instrs) : instrs.length = 1 ∨ instrs.length = 2 := by
  cases h with
  | self => exact .inl rfl
  | short => exact .inl rfl
  | long => exact .inr rfl
  | address => exact .inr rfl
  | move => exact .inl rfl
  | less => exact .inr rfl

theorem expand_eq (h : Expands i instrs) : ∀ c ∈ instrs, c.expand = .ok [c] := by
  cases h with
  | self hName => exact List.forall_mem_singleton.mpr (expand_of_not_mem hName)
  | short => exact List.forall_mem_singleton.mpr (Mnemonic.addiu.expand_name _)
  | long =>
    exact List.forall_mem_cons.mpr
      ⟨Mnemonic.lui.expand_name _, List.forall_mem_singleton.mpr (Mnemonic.ori.expand_name _)⟩
  | address =>
    exact List.forall_mem_cons.mpr
      ⟨Mnemonic.lui.expand_name _, List.forall_mem_singleton.mpr (Mnemonic.ori.expand_name _)⟩
  | move => exact List.forall_mem_singleton.mpr (Mnemonic.add.expand_name _)
  | less =>
    exact List.forall_mem_cons.mpr
      ⟨Mnemonic.slt.expand_name _, List.forall_mem_singleton.mpr (Mnemonic.bne.expand_name _)⟩

/-- What an expansion adds to the instruction's own operands is written without blanks. -/
theorem operand_cases (h : Expands i instrs) :
    ∀ c ∈ instrs, ∀ operand ∈ c.operands, operand ∈ i.operands ∨ Unbroken operand := by
  have hZero : Unbroken zeroReg := Plain.unbroken (by decide) (by decide)
  have hScratch : Unbroken scratchReg := Plain.unbroken (by decide) (by decide)
  have hHex (n : Nat) : Unbroken (Numeral.markedHex 4 n) :=
    (Numeral.plain_markedHex 4 n).unbroken (List.cons_ne_nil _ _)
  cases h with
  | self => exact List.forall_mem_singleton.mpr (fun operand hOperand => .inl hOperand)
  | short => simp [hZero]
  | long => simp [hScratch, hHex]
  | address rd hLabel =>
    refine List.forall_mem_cons.mpr ⟨?_, List.forall_mem_singleton.mpr ?_⟩
    · exact List.forall_mem_cons.mpr
        ⟨.inr hScratch, List.forall_mem_singleton.mpr (.inr (unbroken_half (by decide) hLabel))⟩
    · exact List.forall_mem_cons.mpr ⟨.inl List.mem_cons_self, List.forall_mem_cons.mpr
        ⟨.inr hScratch, List.forall_mem_singleton.mpr (.inr (unbroken_half (by decide) hLabel))⟩⟩
  | move => simp [hZero]
  | less => simp [hZero, hScratch]

end Expands

/-- The operands can stand on one line of a source. -/
def OneLine (i : InstrText) : Prop := ∀ operand ∈ i.operands, operand ≠ [] ∧ Trimmed operand ∧ '\n' ∉ operand

theorem Expands.oneLine {i : InstrText} {instrs : List InstrText} (h : Expands i instrs) (hLine : i.OneLine) :
    ∀ c ∈ instrs, c.OneLine := by
  intro c hc operand hOperand
  rcases h.operand_cases c hc operand hOperand with hOwn | hNew
  · exact hLine operand hOwn
  · refine ⟨hNew.ne_nil, trimmed_of_forall hNew.not_blank, fun hFeed => ?_⟩
    cases hNew.not_blank '\n' hFeed

theorem oneLine_of_read {t : Text} {i : InstrText} (hFeed : '\n' ∉ t) (h : read t = .ok i) : i.OneLine := by
  have hWellFormed := wellFormed_of_read h
  intro operand hOperand
  exact ⟨hWellFormed.operand_ne_nil operand hOperand, hWellFormed.operand_trimmed operand hOperand,
    fun hMem => hFeed (mem_of_mem_operand h hOperand hMem)⟩

end InstrText

namespace SymInstr.Reads

variable {i : InstrText} {s : SymInstr} (h : Reads i s) (hLine : i.OneLine)

include h hLine

theorem wellFormed : i.WellFormed := by
  obtain ⟨m, hName, -⟩ := h.length_operands
  constructor
  · rw [hName]
    exact m.name_ne_nil
  · rw [hName]
    exact m.plain_name.not_blank
  · exact fun operand hOperand => (hLine operand hOperand).1
  · exact fun operand hOperand => (hLine operand hOperand).2.1
  · exact fun operand hOperand => (h.legible operand hOperand).not_mem (by decide)

theorem not_mem_render {c : Char} (hChar : isOperandChar c = false) (hMark : c ∉ ", ".toList)
    (hLegible : c = '\n' ∨ isLegible c = false) : c ∉ i.render := by
  obtain ⟨m, hName, -⟩ := h.length_operands
  intro hMem
  obtain hMem | hMem | ⟨operand, hOperand, hMem⟩ := InstrText.mem_render hMem
  · rw [hName] at hMem
    exact m.plain_name.not_mem hChar hMem
  · exact hMark hMem
  · rcases hLegible with rfl | hLegible
    · exact (hLine operand hOperand).2.2 hMem
    · exact (h.legible operand hOperand).not_mem hLegible hMem

theorem unmarked_render : Unmarked i.render where
  ne_nil := (h.wellFormed hLine).render_ne_nil
  trimmed := (h.wellFormed hLine).trimmed_render
  not_dot hDot := by
    obtain ⟨m, hName, -⟩ := h.length_operands
    have hHead : i.render.head? = m.name.head? := by
      rw [InstrText.render, hName]
      split
      · rfl
      · rw [List.append_assoc, List.head?_append_of_ne_nil _ m.name_ne_nil]
    rw [hHead] at hDot
    exact m.plain_name.not_mem (c := '.') (by decide) (List.mem_of_mem_head? hDot)
  not_mem c hc := by
    have hChars : ("\n#:\"".toList.all fun c => decide (isOperandChar c = false ∧ c ∉ ", ".toList ∧
        (c = '\n' ∨ isLegible c = false))) = true := by
      decide
    obtain ⟨hChar, hMark, hLegible⟩ := of_decide_eq_true (List.all_eq_true.mp hChars c hc)
    exact h.not_mem_render hLine hChar hMark hLegible

end SymInstr.Reads

end MipsAsm
