import MipsAsm.Proofs.Placement
import MipsAsm.Proofs.Resolution

/-!
Control transfer: where assembled branches and jumps go. Every text address is a whole number of words
away from every other, so the offset of a branch to a label is exact; a jump keeps bits 2 to 27 of its
label's address and takes the others from the address behind it.
-/

set_option autoImplicit false

namespace MipsAsm

open Outcome

/-- Where the branch `w` at address `p` goes when it is taken. -/
def branchDestination (p w : Word) : Int := p.toNat + 4 + 4 * (w.setWidth 16).toInt

/-- Where the jump `w` at address `p` goes. -/
def jumpDestination (p w : Word) : Word := (p + 4).extractLsb' 28 4 ++ w.setWidth 26 ++ 0#2

theorem toNat_jumpDestination (p w : Word) :
    (jumpDestination p w).toNat = 2 ^ 28 * ((p + 4).toNat / 2 ^ 28) + 4 * (w.setWidth 26).toNat := by
  have hTop : ((p + 4).extractLsb' 28 4).toNat = (p + 4).toNat / 2 ^ 28 := by
    rw [BitVec.extractLsb'_toNat, Nat.shiftRight_eq_div_pow]
    omega
  have hIndex := (w.setWidth 26).isLt
  rw [jumpDestination, BitVec.toNat_append, BitVec.toNat_append, BitVec.toNat_zero, Nat.or_zero,
    ← Nat.shiftLeft_add_eq_or_of_lt hIndex, Nat.shiftLeft_eq, Nat.shiftLeft_eq, hTop]
  omega

theorem toNat_wordAddress (base : Word) (n : Nat) :
    (wordAddress base n).toNat = (base.toNat + 4 * n) % 2 ^ 32 := by
  rw [wordAddress, BitVec.toNat_add, BitVec.toNat_ofNat, Nat.add_mod_mod]

/-- The offset to a target that is a whole number of words away is exact. -/
theorem four_mul_branchOffset {p t : Word} (h : t.toNat % 4 = p.toNat % 4) :
    4 * branchOffset p t = (t.toNat : Int) - (p.toNat + 4) := by
  refine Int.mul_tdiv_cancel' ?_
  omega

namespace Instr

theorem setWidth_of_encode {m : Mnemonic} {rs rt : Byte} {imm : Half} {w : Word}
    (h : (immediate m rs rt imm).encode = .ok w) : w.setWidth 16 = imm := by
  obtain ⟨hConsistent, hFits, hWord⟩ := encode_eq_ok_iff.mp h
  have hRead : Field.immediate.read w = imm.setWidth 32 := by
    rw [← hWord]
    exact read_parts hConsistent hFits (.immediate, imm.setWidth 32) (by simp [parts])
  apply BitVec.eq_of_toNat_eq
  calc
    (w.setWidth 16).toNat = (Field.immediate.read w).toNat :=
      (Field.toNat_read_low (f := Field.immediate) rfl (by decide) w).symm
    _ = (imm.setWidth 32).toNat := by rw [hRead]
    _ = imm.toNat := BitVec.toNat_setWidth_of_le (by decide)

theorem toNat_setWidth_of_encode {m : Mnemonic} {index w : Word} (h : (jump m index).encode = .ok w) :
    (w.setWidth 26).toNat = index.toNat := by
  obtain ⟨hConsistent, hFits, hWord⟩ := encode_eq_ok_iff.mp h
  have hRead : Field.index.read w = index := by
    rw [← hWord]
    exact read_parts hConsistent hFits (.index, index) (by simp [parts])
  rw [← hRead]
  exact (Field.toNat_read_low (f := Field.index) rfl (by decide) w).symm

end Instr

namespace SymInstr

theorem exists_branch_of_read {m : Mnemonic} {rs rt name : Text} {s : SymInstr}
    (hForm : m.operandForm = .rsRtTarget) (hName : Text.isIdentifier name = true)
    (h : read ⟨m.name, [rs, rt, name]⟩ = .ok s) : ∃ r r', s = .branch m r r' (.label name) := by
  obtain ⟨found, hNamed, hOperands⟩ := bind_eq_ok.mp h
  obtain rfl : m = found := Mnemonic.name_inj.mp (Mnemonic.named_eq_ok_iff.mp hNamed)
  simp only [hForm, Target.read, hName, if_true, bind_eq_ok, pure_eq_ok] at hOperands
  obtain ⟨r, -, r', -, goal, ⟨⟩, rfl⟩ := hOperands
  exact ⟨r, r', rfl⟩

theorem eq_jump_of_read {m : Mnemonic} {name : Text} {s : SymInstr}
    (hForm : m.operandForm = .target) (hName : Text.isIdentifier name = true)
    (h : read ⟨m.name, [name]⟩ = .ok s) : s = .jump m (.label name) := by
  obtain ⟨found, hNamed, hOperands⟩ := bind_eq_ok.mp h
  obtain rfl : m = found := Mnemonic.name_inj.mp (Mnemonic.named_eq_ok_iff.mp hNamed)
  simp only [hForm, Target.read, hName, if_true, bind_eq_ok, pure_eq_ok] at hOperands
  obtain ⟨goal, ⟨⟩, rfl⟩ := hOperands
  rfl

theorem exists_offset_of_resolve {m : Mnemonic} {r r' : Reg} {name : Text} {symbols : Symbols} {p : Word}
    {d : Instr} (h : (branch m r r' (.label name)).resolve symbols p = .ok d) :
    ∃ t, symbols.get? .text name = some t ∧ Signedness.signed.Fits (branchOffset p t) ∧
      d = .immediate m r.number r'.number (Half.ofInt (branchOffset p t)) := by
  obtain ⟨imm, hOffset, hRecord⟩ := bind_eq_ok.mp h
  obtain ⟨t, hLookup, hImm⟩ := bind_eq_ok.mp hOffset
  obtain ⟨u, hFits, hHalf⟩ := bind_eq_ok.mp hImm
  rw [← pure_eq_ok.mp hHalf] at hRecord
  exact ⟨t, Symbols.lookup_eq_ok_iff.mp hLookup, Signedness.check_eq_ok.mp hFits,
    (pure_eq_ok.mp hRecord).symm⟩

/-- A branch to a label that is a whole number of words away goes to the label. -/
theorem branchDestination_of_word {m : Mnemonic} {r r' : Reg} {name : Text} {symbols : Symbols}
    {p w : Word} (h : (branch m r r' (.label name)).word symbols p = .ok w) :
    ∃ t, symbols.get? .text name = some t ∧
      (t.toNat % 4 = p.toNat % 4 → branchDestination p w = t.toNat) := by
  obtain ⟨d, hResolve, hEncode⟩ := bind_eq_ok.mp h
  obtain ⟨t, hGet, hFits, rfl⟩ := exists_offset_of_resolve hResolve
  have hValue := Signedness.value_ofInt hFits
  refine ⟨t, hGet, fun hAligned => ?_⟩
  have hExact := four_mul_branchOffset hAligned
  rw [branchDestination, Instr.setWidth_of_encode hEncode]
  change (Half.ofInt (branchOffset p t)).toInt = _ at hValue
  omega

/-- A jump to a label keeps the low 28 bits of the label's address. -/
theorem index_of_word {m : Mnemonic} {name : Text} {symbols : Symbols} {p w : Word}
    (h : (jump m (.label name)).word symbols p = .ok w) :
    ∃ t, symbols.get? .text name = some t ∧ t.toNat % 4 = 0 ∧
      4 * (w.setWidth 26).toNat = t.toNat % 2 ^ 28 := by
  obtain ⟨d, hResolve, hEncode⟩ := bind_eq_ok.mp h
  obtain ⟨t, hLookup, hJump⟩ := bind_eq_ok.mp hResolve
  split at hJump
  · cases hJump
  · rename_i hAligned
    obtain rfl := pure_eq_ok.mp hJump
    refine ⟨t, Symbols.lookup_eq_ok_iff.mp hLookup, by omega, ?_⟩
    rw [Instr.toNat_setWidth_of_encode hEncode, toNat_jumpIndex]
    omega

end SymInstr

theorem jumpDestination_eq_iff {p w t : Word} (hIndex : 4 * (w.setWidth 26).toNat = t.toNat % 2 ^ 28) :
    jumpDestination p w = t ↔ t.toNat / 2 ^ 28 = (p + 4).toNat / 2 ^ 28 := by
  rw [← BitVec.toNat_inj, toNat_jumpDestination]
  omega

theorem wordCount_le_of_declares {lines above : List SourceLine} {segment segment' : Segment} {name : Text}
    (h : Declares lines segment name above) : wordCount segment' above ≤ wordCount segment' lines := by
  obtain ⟨line, rest, rfl, -⟩ := h
  rw [wordCount, wordCount, List.map_append, List.sum_append]
  exact Nat.le_add_right _ _

section Labels

variable {bases : Bases} {lines : List SourceLine} {layout : Layout} {m : Mnemonic} {name : Text}
  {s : SymInstr} {k : Nat} {w : Word} (hTracks : layout.Tracks bases lines)
  (hWord : s.word layout.symbols (wordAddress bases.text k) = .ok w)

include hTracks in
/-- A text label stands at one of the addresses of the text, or right behind them. -/
theorem exists_wordAddress_of_get? {t : Word} (h : layout.symbols.get? .text name = some t) :
    ∃ n ≤ wordCount .text lines, t = wordAddress bases.text n := by
  obtain ⟨above, hDeclares, hAddress⟩ := (hTracks.symbols _ _ _).mp h
  exact ⟨wordCount .text above, wordCount_le_of_declares hDeclares, hAddress⟩

include hTracks hWord

theorem branch_reaches_label {rs rt : Text} (hForm : m.operandForm = .rsRtTarget)
    (hName : Text.isIdentifier name = true) (hRead : SymInstr.read ⟨m.name, [rs, rt, name]⟩ = .ok s) :
    ∃ t, layout.symbols.get? .text name = some t ∧
      branchDestination (wordAddress bases.text k) w = t.toNat := by
  obtain ⟨r, r', rfl⟩ := SymInstr.exists_branch_of_read hForm hName hRead
  obtain ⟨t, hGet, hExact⟩ := SymInstr.branchDestination_of_word hWord
  obtain ⟨n, -, hAddress⟩ := exists_wordAddress_of_get? hTracks hGet
  refine ⟨t, hGet, hExact ?_⟩
  rw [hAddress, toNat_wordAddress, toNat_wordAddress]
  omega

theorem jump_reaches_label (hForm : m.operandForm = .target) (hName : Text.isIdentifier name = true)
    (hRead : SymInstr.read ⟨m.name, [name]⟩ = .ok s) (hk : k < wordCount .text lines) :
    ∃ t, layout.symbols.get? .text name = some t ∧ t.toNat % 4 = 0 ∧
      4 * (w.setWidth 26).toNat = t.toNat % 2 ^ 28 ∧
      (jumpDestination (wordAddress bases.text k) w = t ↔
        t.toNat / 2 ^ 28 = (wordAddress bases.text k + 4).toNat / 2 ^ 28) ∧
      ((∀ n ≤ wordCount .text lines,
          (wordAddress bases.text n).toNat / 2 ^ 28 = bases.text.toNat / 2 ^ 28) →
        jumpDestination (wordAddress bases.text k) w = t) := by
  obtain rfl := SymInstr.eq_jump_of_read hForm hName hRead
  obtain ⟨t, hGet, hAligned, hIndex⟩ := SymInstr.index_of_word hWord
  obtain ⟨n, hn, hAddress⟩ := exists_wordAddress_of_get? hTracks hGet
  have hIff := jumpDestination_eq_iff (p := wordAddress bases.text k) hIndex
  refine ⟨t, hGet, hAligned, hIndex, hIff, fun hRegion => hIff.mpr ?_⟩
  rw [hAddress, hRegion n hn, wordAddress_succ, hRegion (k + 1) hk]

end Labels

theorem control_transfers_reach_labels {bases : Bases} {source : Text} {image : Image}
    (h : assemble bases source = .ok image) :
    ∃ lines, SourceLine.readAll source = .ok lines ∧
      ∀ k i, (lines.flatMap SourceLine.concrete)[k]? = some i →
        ∃ w, image.text[k]? = some w ∧
          (∀ m rs rt name, m = .beq ∨ m = .bne → i = ⟨Mnemonic.name m, [rs, rt, name]⟩ →
            Text.isIdentifier name = true →
            ∃ t, image.symbols.get? .text name = some t ∧
              branchDestination (wordAddress bases.text k) w = t.toNat) ∧
          (∀ name, i = ⟨Mnemonic.j.name, [name]⟩ → Text.isIdentifier name = true →
            ∃ t, image.symbols.get? .text name = some t ∧ t.toNat % 4 = 0 ∧
              4 * (w.setWidth 26).toNat = t.toNat % 2 ^ 28 ∧
              (jumpDestination (wordAddress bases.text k) w = t ↔
                t.toNat / 2 ^ 28 = (wordAddress bases.text k + 4).toNat / 2 ^ 28) ∧
              ((∀ n ≤ image.text.length,
                  (wordAddress bases.text n).toNat / 2 ^ 28 = bases.text.toNat / 2 ^ 28) →
                jumpDestination (wordAddress bases.text k) w = t)) := by
  obtain ⟨lines, hLines, layout, hTracks, -, hSymbols, hWords⟩ := exists_tracks h
  have hLength : image.text.length = wordCount .text lines := by
    rw [← hWords.length_eq, ← hTracks.text.read.length_eq, length_flatMap_concrete]
  refine ⟨lines, hLines, fun k i hk => ?_⟩
  obtain ⟨s, w, hRead, hw, hWord⟩ := exists_word_at hTracks hWords hk
  have hBound : k < image.text.length := (List.getElem?_eq_some_iff.mp hw).1
  rw [hLength] at hBound
  rw [hSymbols] at hWord
  rw [hSymbols, hLength]
  refine ⟨w, hw, ?_, ?_⟩
  · rintro m rs rt name hMnemonic rfl hName
    have hForm : m.operandForm = .rsRtTarget := by
      rcases hMnemonic with rfl | rfl <;> rfl
    exact branch_reaches_label hTracks hWord hForm hName hRead
  · rintro name rfl hName
    exact jump_reaches_label hTracks hWord rfl hName hRead hBound

theorem control_transfers_reach_labels_loop :
    ∃ source image lines, assemble {} source = .ok image ∧ SourceLine.readAll source = .ok lines ∧
      (lines.flatMap SourceLine.concrete)[2]? =
        some ⟨"bne".toList, ["$at".toList, "$zero".toList, "a".toList]⟩ ∧
      ∃ w t, image.text[2]? = some w ∧ image.symbols.get? .text "a".toList = some t ∧
        branchDestination 0x00400008 w = t.toNat := by
  have hAssemble : ∃ image lines,
      assemble {} "a: beq $t0, $t1, a\nblt $t0, $t1, a\nj a".toList = .ok image ∧
      SourceLine.readAll "a: beq $t0, $t1, a\nblt $t0, $t1, a\nj a".toList = .ok lines ∧
      (lines.flatMap SourceLine.concrete)[2]? =
        some ⟨"bne".toList, ["$at".toList, "$zero".toList, "a".toList]⟩ := ⟨_, _, rfl, rfl, rfl⟩
  obtain ⟨image, lines, hImage, hLines, hBranch⟩ := hAssemble
  obtain ⟨lines', hLines', hLand⟩ := control_transfers_reach_labels hImage
  obtain rfl : lines = lines' := by
    rw [hLines] at hLines'
    exact Except.ok.inj hLines'
  obtain ⟨w, hw, hBranches, -⟩ := hLand 2 _ hBranch
  obtain ⟨t, hGet, hDestination⟩ := hBranches .bne _ _ "a".toList (.inr rfl) rfl rfl
  exact ⟨_, image, lines, hImage, hLines, hBranch, w, t, hw, hGet, hDestination⟩

end MipsAsm
