import MipsAsm.Proofs.Placement
import MipsAsm.Proofs.Resolution

/-!
Strings and the addresses that lead to them. The data segment holds the strings of the source one behind
the other, each with zero bytes up to the next word. A label in front of a string is bound to the address
of its first word, and `la` loads the address of a data label in two halves.
-/

set_option autoImplicit false

namespace MipsAsm

open Outcome

namespace Word

/-- The bytes of a word in memory order, the one in the low eight bits first. -/
def bytes (w : Word) : List UInt8 := [0, 8, 16, 24].map fun k => UInt8.ofBitVec (w.extractLsb' k 8)

theorem toNat_ofBytes (a b c d : UInt8) :
    (ofBytes a b c d).toNat =
      a.toNat + 0x100 * b.toNat + 0x10000 * c.toNat + 0x1000000 * d.toNat := by
  have hA := a.toBitVec.isLt
  have hB := b.toBitVec.isLt
  have hC := c.toBitVec.isLt
  rw [ofBytes, BitVec.toNat_append, BitVec.toNat_append, BitVec.toNat_append,
    ← Nat.shiftLeft_add_eq_or_of_lt hA, ← Nat.shiftLeft_add_eq_or_of_lt hB,
    ← Nat.shiftLeft_add_eq_or_of_lt hC]
  simp only [Nat.shiftLeft_eq, UInt8.toNat_toBitVec]
  omega

theorem bytes_ofBytes (a b c d : UInt8) : (ofBytes a b c d).bytes = [a, b, c, d] := by
  have hA := a.toNat_lt
  have hB := b.toNat_lt
  have hC := c.toNat_lt
  have hD := d.toNat_lt
  simp only [bytes, List.map_cons, List.map_nil, List.cons.injEq, and_true, ← UInt8.toNat_inj,
    UInt8.toNat_ofBitVec, BitVec.extractLsb'_toNat, toNat_ofBytes, Nat.shiftRight_eq_div_pow]
  omega

theorem length_ofByteList (bytes : List UInt8) : (ofByteList bytes).length = (bytes.length + 3) / 4 := by
  fun_induction ofByteList bytes with
  | case1 => rfl
  | case2 a => simp
  | case3 a b => simp
  | case4 a b c => simp
  | case5 a b c d rest ih =>
    simp only [List.length_cons, ih]
    omega

theorem flatMap_bytes_ofByteList (bytes : List UInt8) :
    (ofByteList bytes).flatMap Word.bytes = bytes ++ List.replicate ((4 - bytes.length % 4) % 4) 0 := by
  fun_induction ofByteList bytes with
  | case1 => rfl
  | case2 a => rw [List.flatMap_singleton, bytes_ofBytes]; rfl
  | case3 a b => rw [List.flatMap_singleton, bytes_ofBytes]; rfl
  | case4 a b c => rw [List.flatMap_singleton, bytes_ofBytes]; rfl
  | case5 a b c d rest ih =>
    have hLength : (a :: b :: c :: d :: rest).length % 4 = rest.length % 4 := Nat.add_mod_right _ 4
    rw [List.flatMap_cons, bytes_ofBytes, ih, hLength]
    rfl

theorem length_ofString (bytes : List UInt8) : (ofString bytes).length = bytes.length / 4 + 1 := by
  rw [ofString, length_ofByteList, List.length_append, List.length_singleton]
  omega

theorem flatMap_bytes_ofString (bytes : List UInt8) :
    (ofString bytes).flatMap Word.bytes = bytes ++ List.replicate (4 - bytes.length % 4) 0 := by
  have hZeros : 4 - bytes.length % 4 = (4 - (bytes.length + 1) % 4) % 4 + 1 := by omega
  rw [ofString, flatMap_bytes_ofByteList, List.append_assoc, List.length_append, List.length_singleton,
    hZeros, List.replicate_succ]
  rfl

theorem toNat_halves (w : Word) :
    ((w >>> 16).setWidth 16).toNat * 0x10000 + (w.setWidth 16).toNat = w.toNat := by
  have hWord := w.isLt
  rw [BitVec.toNat_setWidth, BitVec.toNat_setWidth, BitVec.toNat_ushiftRight, Nat.shiftRight_eq_div_pow]
  omega

end Word

namespace SourceLine

/-- How many words the line's string needs, with at least one zero byte behind it. -/
def stringWords (line : SourceLine) : Nat :=
  match line.statement with
  | some (.string bytes) => bytes.length / 4 + 1
  | _ => 0

theorem length_dataWords (line : SourceLine) : line.dataWords.length = line.stringWords := by
  obtain ⟨site, label, statement⟩ := line
  cases statement with
  | none => rfl
  | some statement =>
    cases statement with
    | segment segment => rfl
    | string bytes => exact Word.length_ofString bytes
    | instr i => rfl

end SourceLine

def stringWords (lines : List SourceLine) : Nat := (lines.map SourceLine.stringWords).sum

theorem wordCount_data (lines : List SourceLine) : wordCount .data lines = stringWords lines := by
  unfold wordCount stringWords
  congr 1
  apply List.map_congr_left
  intro line _
  exact line.length_dataWords

/-- The words of one line within those of all lines. -/
theorem take_drop_dataWords (above rest : List SourceLine) (line : SourceLine) :
    (((above ++ line :: rest).flatMap SourceLine.dataWords).drop (wordCount .data above)).take
      line.dataWords.length = line.dataWords := by
  have hLength : (above.flatMap SourceLine.dataWords).length = wordCount .data above := List.length_flatMap
  rw [List.flatMap_append, List.flatMap_cons, ← hLength, List.drop_left, List.take_left]

theorem getElem?_concrete (above rest : List SourceLine) {line : SourceLine} {k : Nat} {i : InstrText}
    (h : line.concrete[k]? = some i) :
    ((above ++ line :: rest).flatMap SourceLine.concrete)[wordCount .text above + k]? = some i := by
  rw [List.flatMap_append, List.flatMap_cons, ← length_flatMap_concrete,
    List.getElem?_append_right (Nat.le_add_right _ _), Nat.add_sub_cancel_left]
  rw [List.getElem?_append_left (List.getElem?_eq_some_iff.mp h).1, h]

namespace InstrText

theorem expand_la {i : InstrText} {instrs : List InstrText} (hMnemonic : i.mnemonic = "la".toList)
    (h : i.expand = .ok instrs) :
    ∃ rd name, i.operands = [rd, name] ∧ Text.isIdentifier name = true ∧
      instrs = [⟨Mnemonic.lui.name, [scratchReg, "%hi(".toList ++ name ++ ")".toList]⟩,
        ⟨Mnemonic.ori.name, [rd, scratchReg, "%lo(".toList ++ name ++ ")".toList]⟩] := by
  have hOther : i.mnemonic ≠ "li".toList := by
    rw [hMnemonic]
    decide
  rw [expand, if_neg hOther, if_pos hMnemonic] at h
  split at h
  · rename_i rd name hOperands
    rw [loadAddress] at h
    split at h
    · rename_i hName
      cases h
      exact ⟨rd, name, hOperands, hName, rfl⟩
    · cases h
  · cases h

end InstrText

namespace SymInstr

theorem exists_immediate_of_read {m : Mnemonic} {rt rs imm : Text} {s : SymInstr}
    (hForm : m.operandForm = .rtRsImm) (h : read ⟨m.name, [rt, rs, imm]⟩ = .ok s) :
    ∃ t r i, Reg.named rt = .ok t ∧ Reg.named rs = .ok r ∧ Imm.read m.signedness imm = .ok i ∧
      s = .immediate m t r i := by
  obtain ⟨found, hNamed, hOperands⟩ := bind_eq_ok.mp h
  obtain rfl : m = found := Mnemonic.name_inj.mp (Mnemonic.named_eq_ok_iff.mp hNamed)
  simp only [hForm, bind_eq_ok, pure_eq_ok] at hOperands
  obtain ⟨t, hRt, r, hRs, i, hImm, rfl⟩ := hOperands
  exact ⟨t, r, i, hRt, hRs, hImm, rfl⟩

theorem exists_upper_of_read {m : Mnemonic} {rt imm : Text} {s : SymInstr}
    (hForm : m.operandForm = .rtImm) (h : read ⟨m.name, [rt, imm]⟩ = .ok s) :
    ∃ t i, Reg.named rt = .ok t ∧ Imm.read m.signedness imm = .ok i ∧ s = .immediate m t .zero i := by
  obtain ⟨found, hNamed, hOperands⟩ := bind_eq_ok.mp h
  obtain rfl : m = found := Mnemonic.name_inj.mp (Mnemonic.named_eq_ok_iff.mp hNamed)
  simp only [hForm, bind_eq_ok, pure_eq_ok] at hOperands
  obtain ⟨t, hRt, i, hImm, rfl⟩ := hOperands
  exact ⟨t, i, hRt, hImm, rfl⟩

theorem named_scratchReg : Reg.named InstrText.scratchReg = .ok ⟨1⟩ := by decide +kernel

section LoadAddress

variable {symbols : Symbols} {p w : Word} {name : Text} {s : SymInstr}

theorem decode_upper_half (hName : Text.isIdentifier name = true)
    (hRead : read ⟨Mnemonic.lui.name, [InstrText.scratchReg, "%hi(".toList ++ name ++ ")".toList]⟩ = .ok s)
    (hWord : s.word symbols p = .ok w) :
    ∃ address, symbols.get? .data name = some address ∧
      Instr.decode w = .ok (.immediate .lui 0 1 ((address >>> 16).setWidth 16)) := by
  obtain ⟨d, hResolve, hDecode⟩ := (reads_of_read_eq hRead).valid.decode_word hWord
  obtain ⟨t, imm, hReg, hImm, rfl⟩ := exists_upper_of_read rfl hRead
  rw [named_scratchReg] at hReg
  rw [Imm.read_high hName] at hImm
  cases hReg
  cases hImm
  obtain ⟨half, hHalf, hRecord⟩ := bind_eq_ok.mp hResolve
  obtain ⟨address, hLookup, hShift⟩ := bind_eq_ok.mp hHalf
  obtain rfl := pure_eq_ok.mp hRecord
  obtain rfl := pure_eq_ok.mp hShift
  exact ⟨address, Symbols.lookup_eq_ok_iff.mp hLookup, hDecode⟩

theorem decode_lower_half {rd : Text} (hName : Text.isIdentifier name = true)
    (hRead : read ⟨Mnemonic.ori.name,
      [rd, InstrText.scratchReg, "%lo(".toList ++ name ++ ")".toList]⟩ = .ok s)
    (hWord : s.word symbols p = .ok w) :
    ∃ address r, symbols.get? .data name = some address ∧ Reg.named rd = .ok r ∧
      Instr.decode w = .ok (.immediate .ori 1 r.number (address.setWidth 16)) := by
  obtain ⟨d, hResolve, hDecode⟩ := (reads_of_read_eq hRead).valid.decode_word hWord
  obtain ⟨t, r, imm, hRd, hReg, hImm, rfl⟩ := exists_immediate_of_read rfl hRead
  rw [named_scratchReg] at hReg
  rw [Imm.read_low hName] at hImm
  cases hReg
  cases hImm
  obtain ⟨half, hHalf, hRecord⟩ := bind_eq_ok.mp hResolve
  obtain ⟨address, hLookup, hLow⟩ := bind_eq_ok.mp hHalf
  obtain rfl := pure_eq_ok.mp hRecord
  obtain rfl := pure_eq_ok.mp hLow
  exact ⟨address, t, Symbols.lookup_eq_ok_iff.mp hLookup, hRd, hDecode⟩

end LoadAddress

end SymInstr

section Assembled

variable {bases : Bases} {above rest : List SourceLine} {line : SourceLine} {layout : Layout} {image : Image}

/-- The label of a string is bound to the address behind the strings above it. -/
theorem get?_label_of_string (hLayout : Layout.ofLines bases (above ++ line :: rest) = .ok layout)
    {bytes : List UInt8} (hString : line.statement = some (.string bytes)) {name : Text}
    (hLabel : line.label = some name) :
    layout.symbols.get? .data name = some (wordAddress bases.data (stringWords above)) := by
  obtain ⟨before, after, hTracks, hStepped⟩ := Layout.exists_stepped hLayout
  have hData : segmentAfter above = .data := by
    rw [← hTracks.segment]
    exact hStepped.belongs _ hString
  rw [← wordCount_data]
  apply ((Layout.tracks_of_ofLines hLayout).symbols _ _ _).mpr
  exact ⟨above, ⟨line, rest, rfl, hLabel, hData⟩, rfl⟩

theorem words_of_la (hTracks : layout.Tracks bases (above ++ line :: rest))
    (hWords : List.Forall₂ (fun p w => p.instr.word image.symbols p.address = .ok w) layout.text.toList
      image.text) {i : InstrText} (hInstr : line.statement = some (.instr i))
    (hMnemonic : i.mnemonic = "la".toList) :
    ∃ rd name r hi lo address w w', i.operands = [rd, name] ∧ Reg.named rd = .ok r ∧
      image.text[wordCount .text above]? = some w ∧ image.text[wordCount .text above + 1]? = some w' ∧
      Instr.decode w = .ok (.immediate .lui 0 1 hi) ∧ Instr.decode w' = .ok (.immediate .ori 1 r.number lo) ∧
      image.symbols.get? .data name = some address ∧ hi.toNat * 0x10000 + lo.toNat = address.toNat := by
  have hExpand := hTracks.expand line (List.mem_append_right _ List.mem_cons_self) i hInstr
  obtain ⟨rd, name, hOperands, hName, hConcrete⟩ := InstrText.expand_la hMnemonic hExpand
  have hAt {k : Nat} {concrete : InstrText} (hk : line.concrete[k]? = some concrete) :=
    exists_word_at hTracks hWords (getElem?_concrete above rest hk)
  rw [hConcrete] at hAt
  obtain ⟨s, w, hRead, hw, hWord⟩ := hAt (k := 0) rfl
  obtain ⟨s', w', hRead', hw', hWord'⟩ := hAt (k := 1) rfl
  obtain ⟨address, hGet, hUpper⟩ := SymInstr.decode_upper_half hName hRead hWord
  obtain ⟨address', r, hGet', hReg, hLower⟩ := SymInstr.decode_lower_half hName hRead' hWord'
  rw [hGet] at hGet'
  cases hGet'
  exact ⟨rd, name, r, _, _, address, w, w', hOperands, hReg, hw, hw', hUpper, hLower, hGet,
    address.toNat_halves⟩

end Assembled

theorem strings_lie_where_la_points {bases : Bases} {source : Text} {image : Image}
    (h : assemble bases source = .ok image) :
    ∃ lines, SourceLine.readAll source = .ok lines ∧
      image.data.length = stringWords lines ∧
      (∀ above line rest bytes, lines = above ++ line :: rest → line.statement = some (.string bytes) →
        (∃ zeros, 1 ≤ zeros ∧ zeros ≤ 4 ∧
          ((image.data.drop (stringWords above)).take (bytes.length / 4 + 1)).flatMap Word.bytes =
            bytes ++ List.replicate zeros 0) ∧
        ∀ name, line.label = some name →
          image.symbols.get? .data name = some (wordAddress bases.data (stringWords above))) ∧
      ∀ above line rest i, lines = above ++ line :: rest → line.statement = some (.instr i) →
        i.mnemonic = "la".toList →
        ∃ rd name r hi lo address w w', i.operands = [rd, name] ∧ Reg.named rd = .ok r ∧
          image.text[wordCount .text above]? = some w ∧ image.text[wordCount .text above + 1]? = some w' ∧
          Instr.decode w = .ok (.immediate .lui 0 1 hi) ∧
          Instr.decode w' = .ok (.immediate .ori 1 r.number lo) ∧
          image.symbols.get? .data name = some address ∧
          hi.toNat * 0x10000 + lo.toNat = address.toNat := by
  obtain ⟨lines, layout, hLines, hLayout, hWords, hData, hSymbols⟩ := exists_layout h
  have hTracks := Layout.tracks_of_ofLines hLayout
  have hPlaced := Layout.forall₂_words hWords
  have hAll : image.data = lines.flatMap SourceLine.dataWords := by
    rw [hData, hTracks.data]
  refine ⟨lines, hLines, ?_, ?_, ?_⟩
  · rw [hAll, ← wordCount_data]
    exact List.length_flatMap
  · rintro above line rest bytes rfl hString
    constructor
    · have hWordsOf : line.dataWords = Word.ofString bytes := by rw [SourceLine.dataWords, hString]
      have hSlice := take_drop_dataWords above rest line
      rw [hWordsOf, Word.length_ofString, wordCount_data, ← hAll] at hSlice
      refine ⟨4 - bytes.length % 4, by omega, by omega, ?_⟩
      rw [hSlice, Word.flatMap_bytes_ofString]
    · intro name hLabel
      rw [hSymbols]
      exact get?_label_of_string hLayout hString hLabel
  · rintro above line rest i rfl hInstr hMnemonic
    rw [← hSymbols] at hPlaced
    exact words_of_la hTracks hPlaced hInstr hMnemonic

theorem strings_lie_where_la_points_twice :
    ∃ source image, assemble {} source = .ok image ∧
      image.symbols.get? .text "m".toList = some 0x00400000 ∧
      image.symbols.get? .data "m".toList = some 0x10010008 ∧
      ∃ hi lo w w', image.text[0]? = some w ∧ image.text[1]? = some w' ∧
        Instr.decode w = .ok (.immediate .lui 0 1 hi) ∧ Instr.decode w' = .ok (.immediate .ori 1 8 lo) ∧
        hi.toNat * 0x10000 + lo.toNat = 0x10010008 := by
  have hAssemble : ∃ image above line,
      assemble {} (".data\n.asciiz \"abcd\"\nm: .asciiz \"e\"\n.text\nm: la $t0, m".toList) = .ok image ∧
      image.symbols.get? .text "m".toList = some 0x00400000 ∧
      image.symbols.get? .data "m".toList = some 0x10010008 ∧
      SourceLine.readAll ".data\n.asciiz \"abcd\"\nm: .asciiz \"e\"\n.text\nm: la $t0, m".toList =
        .ok (above ++ [line]) ∧ wordCount .text above = 0 ∧
      line.statement = some (.instr ⟨"la".toList, ["$t0".toList, "m".toList]⟩) :=
    ⟨_, [_, _, _, _], _, rfl, rfl, rfl, rfl, rfl, rfl⟩
  obtain ⟨image, above, line, hImage, hText, hData, hLines, hFirst, hInstr⟩ := hAssemble
  obtain ⟨lines, hLines', -, -, hWords⟩ := strings_lie_where_la_points hImage
  rw [hLines] at hLines'
  obtain rfl := Except.ok.inj hLines'
  obtain ⟨rd, name, r, hi, lo, address, w, w', hOperands, hReg, hw, hw', hUpper, hLower, hGet, hHalves⟩ :=
    hWords above line [] _ rfl hInstr rfl
  obtain ⟨rfl, rfl⟩ : "$t0".toList = rd ∧ "m".toList = name := by simpa using hOperands
  have hNamed : Reg.named "$t0".toList = .ok ⟨8⟩ := by decide +kernel
  rw [hNamed] at hReg
  cases hReg
  rw [hData] at hGet
  cases hGet
  rw [hFirst] at hw hw'
  exact ⟨_, image, hImage, hText, hData, hi, lo, w, w', hw, hw', hUpper, hLower, hHalves⟩

end MipsAsm
