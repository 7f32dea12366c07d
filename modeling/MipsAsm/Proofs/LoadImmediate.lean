import MipsAsm.Proofs.SingleLine

/-!
Loading an integer. Whatever way the integer is spelled, the one or two words that are made for it put it
into the register: sixteen signed bits at once, or two unsigned halves, the lower behind the upper. An
integer that no word of 32 bits stands for is rejected.
-/

set_option autoImplicit false

namespace MipsAsm

open Outcome Text

/-- The words of an instruction whose first word has the address `base`. -/
def InstrText.words (symbols : Symbols) (base : Word) (i : InstrText) : Except Fault (List Word) :=
  i.expand >>= (inTurn SymInstr.read (fun s k => s.word symbols (wordAddress base k)) · 0)

theorem assembleLine_eq_words (bases : Bases) (line : Text) :
    assembleLine bases line = InstrText.read (content line) >>= InstrText.words .empty bases.text := by
  rw [assembleLine_eq, concreteOf, bind_assoc]
  rfl

theorem SymInstr.Reads.exists_word_of_value {i : InstrText} {m : Mnemonic} {t r : Reg} {v : Int}
    (h : Reads i (.immediate m t r (.value v))) (symbols : Symbols) (p : Word) :
    ∃ w imm, (SymInstr.immediate m t r (.value v)).word symbols p = .ok w ∧
      Instr.decode w = .ok (.immediate m r.number t.number imm) ∧ m.signedness.value imm = v := by
  obtain ⟨w, hWord⟩ := h.exists_word_iff.mpr ⟨nofun, nofun, nofun⟩
  obtain ⟨d, hResolve, hDecode⟩ := h.valid.decode_word hWord
  obtain ⟨imm, hImm, hRecord⟩ := bind_eq_ok.mp hResolve
  obtain rfl := pure_eq_ok.mp hRecord
  exact ⟨w, imm, hWord, hDecode, Signedness.value_of_checked hImm⟩

theorem Imm.read_markedHex {n : Nat} (h : n < 0x10000) :
    Imm.read .unsigned (Numeral.markedHex 4 n) = .ok (.value n) := by
  have hLimit : n ≤ Immediate.limit := by
    unfold Immediate.limit
    omega
  exact read_value (Immediate.read_markedHex 4 hLimit) ⟨by omega, by omega⟩

namespace InstrText

variable {rd imm : Text} {r : Reg} {v : Int} (hReg : Reg.named rd = .ok r) (hImm : Immediate.read imm = .ok v)
  (symbols : Symbols) (base : Word)

theorem words_eq_ok {i : InstrText} {concrete : List InstrText} {ws : List Word}
    (hExpand : i.expand = .ok concrete)
    (hWords : List.Forall₂ (fun placed w => ∃ s, SymInstr.read placed.1 = .ok s ∧
      s.word symbols (wordAddress base placed.2) = .ok w) concrete.zipIdx ws) :
    words symbols base i = .ok ws := by
  refine bind_eq_ok.mpr ⟨concrete, hExpand, mapM_eq_ok_iff.mpr ?_⟩
  exact hWords.imp fun placed w hWord => bind_eq_ok.mpr hWord

include hImm

theorem expand_li :
    expand ⟨"li".toList, [rd, imm]⟩ =
      if v < -0x80000000 ∨ 0x100000000 ≤ v then .error (.immediateOutOfRange v 32)
      else if -0x8000 ≤ v ∧ v < 0x8000 then .ok [⟨Mnemonic.addiu.name, [rd, zeroReg, imm]⟩]
      else
        .ok [⟨Mnemonic.lui.name, [scratchReg, Numeral.markedHex 4 ((BitVec.ofInt 32 v).toNat / 0x10000)]⟩,
          ⟨Mnemonic.ori.name, [rd, scratchReg, Numeral.markedHex 4 ((BitVec.ofInt 32 v).toNat % 0x10000)]⟩] := by
  change loadImmediate rd imm = _
  rw [loadImmediate, hImm]
  change (if v < -0x80000000 ∨ 0x100000000 ≤ v then _ else _) = _
  split
  · rfl
  split
  · rfl
  · rfl

include hReg

theorem words_li_short (hShort : -0x8000 ≤ v ∧ v < 0x8000) :
    ∃ w half, words symbols base ⟨"li".toList, [rd, imm]⟩ = .ok [w] ∧
      Instr.decode w = .ok (.immediate .addiu 0 r.number half) ∧ half.toInt = v := by
  have hExpand : expand ⟨"li".toList, [rd, imm]⟩ = .ok [⟨Mnemonic.addiu.name, [rd, zeroReg, imm]⟩] := by
    rw [expand_li hImm, if_neg (by omega), if_pos hShort]
  have hReads : SymInstr.Reads ⟨Mnemonic.addiu.name, [rd, zeroReg, imm]⟩
      (.immediate .addiu r .zero (.value v)) :=
    .immediate rfl hReg (by decide +kernel) (Imm.read_value hImm hShort)
  obtain ⟨w, half, hWord, hDecode, hValue⟩ := hReads.exists_word_of_value symbols (wordAddress base 0)
  exact ⟨w, half, words_eq_ok symbols base hExpand (.cons ⟨_, hReads.read_eq, hWord⟩ .nil), hDecode, hValue⟩

theorem words_li_long (hShort : ¬(-0x8000 ≤ v ∧ v < 0x8000))
    (hWide : -0x80000000 ≤ v ∧ v < 0x100000000) :
    ∃ w w' hi lo, words symbols base ⟨"li".toList, [rd, imm]⟩ = .ok [w, w'] ∧
      Instr.decode w = .ok (.immediate .lui 0 1 hi) ∧
      Instr.decode w' = .ok (.immediate .ori 1 r.number lo) ∧
      (hi.toNat * 0x10000 + lo.toNat : Int) = v % 0x100000000 := by
  have hExpand : expand ⟨"li".toList, [rd, imm]⟩ = _ := expand_li hImm
  rw [if_neg (by omega), if_neg hShort] at hExpand
  have hValue : ((BitVec.ofInt 32 v).toNat : Int) = v % 0x100000000 := by
    rw [BitVec.toNat_ofInt]
    omega
  generalize (BitVec.ofInt 32 v).toNat = n at hExpand hValue
  have hUpper : SymInstr.Reads ⟨Mnemonic.lui.name, [scratchReg, Numeral.markedHex 4 (n / 0x10000)]⟩
      (.immediate .lui ⟨1⟩ .zero (.value (n / 0x10000 : Nat))) :=
    .upper rfl SymInstr.named_scratchReg (Imm.read_markedHex (by omega))
  have hLower : SymInstr.Reads ⟨Mnemonic.ori.name, [rd, scratchReg, Numeral.markedHex 4 (n % 0x10000)]⟩
      (.immediate .ori r ⟨1⟩ (.value (n % 0x10000 : Nat))) :=
    .immediate rfl hReg SymInstr.named_scratchReg (Imm.read_markedHex (by omega))
  obtain ⟨w, hi, hWord, hDecode, hHigh⟩ := hUpper.exists_word_of_value symbols (wordAddress base 0)
  obtain ⟨w', lo, hWord', hDecode', hLow⟩ := hLower.exists_word_of_value symbols (wordAddress base 1)
  refine ⟨w, w', hi, lo, ?_, hDecode, hDecode', ?_⟩
  · exact words_eq_ok symbols base hExpand
      (.cons ⟨_, hUpper.read_eq, hWord⟩ (.cons ⟨_, hLower.read_eq, hWord'⟩ .nil))
  · have hHighNat : (hi.toNat : Int) = (n / 0x10000 : Nat) := hHigh
    have hLowNat : (lo.toNat : Int) = (n % 0x10000 : Nat) := hLow
    omega

end InstrText

/-- The integer that `li` names is what its words put into the register. -/
theorem li_loads_its_operand {rd imm : Text} {r : Reg} {v : Int} (hReg : Reg.named rd = .ok r)
    (hImm : Immediate.read imm = .ok v) (symbols : Symbols) (base : Word) :
    (-0x8000 ≤ v ∧ v ≤ 0x7FFF →
      ∃ w half, InstrText.words symbols base ⟨"li".toList, [rd, imm]⟩ = .ok [w] ∧
        Instr.decode w = .ok (.immediate .addiu 0 r.number half) ∧ half.toInt = v) ∧
    (¬(-0x8000 ≤ v ∧ v ≤ 0x7FFF) → -0x80000000 ≤ v ∧ v ≤ 0xFFFFFFFF →
      ∃ w w' hi lo, InstrText.words symbols base ⟨"li".toList, [rd, imm]⟩ = .ok [w, w'] ∧
        Instr.decode w = .ok (.immediate .lui 0 1 hi) ∧
        Instr.decode w' = .ok (.immediate .ori 1 r.number lo) ∧
        (hi.toNat * 0x10000 + lo.toNat : Int) = v % 0x100000000) ∧
    (¬(-0x80000000 ≤ v ∧ v ≤ 0xFFFFFFFF) →
      InstrText.words symbols base ⟨"li".toList, [rd, imm]⟩ = .error (.immediateOutOfRange v 32)) ∧
    ∀ bases line, InstrText.read (content line) = .ok ⟨"li".toList, [rd, imm]⟩ →
      assembleLine bases line = InstrText.words .empty bases.text ⟨"li".toList, [rd, imm]⟩ := by
  refine ⟨fun hShort => ?_, fun hShort hWide => ?_, fun hWide => ?_, fun bases line hLine => ?_⟩
  · exact InstrText.words_li_short hReg hImm symbols base (by omega)
  · exact InstrText.words_li_long hReg hImm symbols base (by omega) (by omega)
  · rw [InstrText.words, InstrText.expand_li hImm, if_pos (by omega)]
    rfl
  · rw [assembleLine_eq_words, hLine]
    rfl

theorem li_loads_its_operand_negative :
    Reg.named "$t0".toList = .ok ⟨8⟩ ∧ Immediate.read " -32769".toList = .ok (-32769) ∧
      ∃ w w' hi lo,
        InstrText.words .empty 0x00400000 ⟨"li".toList, ["$t0".toList, " -32769".toList]⟩ = .ok [w, w'] ∧
          Instr.decode w = .ok (.immediate .lui 0 1 hi) ∧ Instr.decode w' = .ok (.immediate .ori 1 8 lo) ∧
          (hi.toNat * 0x10000 + lo.toNat : Int) = 0xFFFF7FFF := by
  have hReg : Reg.named "$t0".toList = .ok ⟨8⟩ := by decide +kernel
  have hImm : Immediate.read " -32769".toList = .ok (-32769) := by decide +kernel
  exact ⟨hReg, hImm, (li_loads_its_operand hReg hImm .empty 0x00400000).2.1 (by decide) (by decide)⟩

end MipsAsm
