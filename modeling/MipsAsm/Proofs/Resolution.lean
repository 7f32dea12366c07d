import MipsAsm.Instr.Listing
import MipsAsm.Program.Resolution
import MipsAsm.Proofs.Reading

/-!
Resolution: sixteen-bit operands keep their values, jump targets their bits 2 to 27, and whatever a
symbolic instruction resolves to has a word and assembler text.
-/

set_option autoImplicit false

namespace MipsAsm

open Outcome

namespace Signedness

/-- The integer that sixteen bits stand for. -/
def value : Signedness → Half → Int
  | signed, imm => imm.toInt
  | unsigned, imm => imm.toNat

theorem fits_value (s : Signedness) (imm : Half) : s.Fits (s.value imm) := by
  cases s with
  | signed => exact ⟨imm.le_toInt, imm.toInt_lt⟩
  | unsigned => exact ⟨Int.natCast_nonneg _, Int.ofNat_lt.mpr imm.isLt⟩

theorem ofInt_value (s : Signedness) (imm : Half) : Half.ofInt (s.value imm) = imm := by
  cases s with
  | signed => exact BitVec.ofInt_toInt
  | unsigned =>
    rw [Half.ofInt, value, BitVec.ofInt_natCast, BitVec.ofNat_toNat, BitVec.setWidth_eq]

theorem value_ofInt {s : Signedness} {v : Int} (h : s.Fits v) : s.value (Half.ofInt v) = v := by
  cases s with
  | signed =>
    obtain ⟨hLow, hHigh⟩ := h
    rw [value, Half.ofInt, BitVec.toInt_ofInt]
    exact Int.bmod_eq_of_le (by omega) (by omega)
  | unsigned =>
    obtain ⟨hLow, hHigh⟩ := h
    rw [value, Half.ofInt, BitVec.toNat_ofInt]
    omega

theorem value_of_checked {s : Signedness} {v : Int} {half : Half}
    (h : (do s.check v; return Half.ofInt v) = Except.ok half) : s.value half = v := by
  obtain ⟨_, hCheck, hHalf⟩ := bind_eq_ok.mp h
  rw [← pure_eq_ok.mp hHalf]
  exact value_ofInt (check_eq_ok.mp hCheck)

end Signedness

theorem Word.toNat_ofInt {v : Int} (h : 0 ≤ v ∧ v < 0x100000000) :
    ((BitVec.ofInt 32 v).toNat : Int) = v := by
  rw [BitVec.toNat_ofInt]
  omega

theorem toNat_jumpIndex (target : Word) : (jumpIndex target).toNat = target.toNat / 4 % 2 ^ 26 := by
  have hMask : (0x03FFFFFF : Word).toNat = 2 ^ 26 - 1 := rfl
  rw [jumpIndex, BitVec.toNat_and, hMask, Nat.and_two_pow_sub_one_eq_mod, BitVec.toNat_ushiftRight,
    Nat.shiftRight_eq_div_pow]

namespace Instr

/-- The record has a word, and assembler text from which the assembler makes the record. -/
structure Writable (d : Instr) : Prop where
  consistent : d.Consistent
  fits : d.Fits
  canonical : d.canonical = d
  text : d.toInstrText?.isSome

theorem writable_immediate {m : Mnemonic} {rs rt : Byte} (hFormat : m.format = .immediate)
    (hRs : rs.toNat < 32) (hRt : rt.toNat < 32) (hSource : sourceOf m rs = rs) (imm : Half) :
    Writable (.immediate m rs rt imm) where
  consistent := hFormat
  fits := ⟨hSource.symm ▸ hRs, hRt⟩
  canonical := by rw [Instr.canonical, hSource]
  text := rfl

theorem Writable.exists_word {d : Instr} (h : d.Writable) :
    ∃ w, d.encode = .ok w ∧ decode w = .ok d := by
  have hEncode : d.encode = .ok (Field.writeAll 0 d.parts) :=
    encode_eq_ok_iff.mpr ⟨h.consistent, h.fits, rfl⟩
  refine ⟨_, hEncode, ?_⟩
  rw [decode_of_encode hEncode, h.canonical]

end Instr

namespace SymInstr

theorem Valid.writable_of_resolve {s : SymInstr} (hValid : s.Valid) {symbols : Symbols} {address : Word}
    {d : Instr} (h : s.resolve symbols address = .ok d) : d.Writable := by
  cases s with
  | syscall =>
    cases h
    exact ⟨trivial, Nat.two_pow_pos 20, rfl, rfl⟩
  | register m rd rs rt =>
    obtain ⟨hFormat, hRd, hRs, hRt⟩ := hValid
    cases h
    exact ⟨⟨hFormat, rfl⟩, ⟨hRs, hRt, hRd, by decide⟩, rfl, rfl⟩
  | immediate m rt rs imm =>
    obtain ⟨hFormat, hRt, hRs, hLui⟩ := hValid
    obtain ⟨half, -, hRecord⟩ := bind_eq_ok.mp h
    cases pure_eq_ok.mp hRecord
    refine Instr.writable_immediate hFormat hRs hRt ?_ half
    by_cases hEq : m = .lui
    · rw [Instr.sourceOf, if_pos hEq, hLui hEq]
    · exact if_neg hEq
  | branch m rs rt target =>
    obtain ⟨hFormat, hLui, hRs, hRt⟩ := hValid
    obtain ⟨half, -, hRecord⟩ := bind_eq_ok.mp h
    cases pure_eq_ok.mp hRecord
    exact Instr.writable_immediate hFormat hRs hRt (if_neg hLui) half
  | jump m target =>
    have hFormat : m.format = .jump := hValid
    obtain ⟨destination, -, hRecord⟩ := bind_eq_ok.mp h
    split at hRecord
    · cases hRecord
    · cases pure_eq_ok.mp hRecord
      refine ⟨hFormat, ?_, rfl, rfl⟩
      rw [Instr.Fits, toNat_jumpIndex]
      exact Nat.mod_lt _ (by decide)

/-- The word of a valid instruction decodes to the record that the instruction resolves to. -/
theorem Valid.decode_word {s : SymInstr} (hValid : s.Valid) {symbols : Symbols} {address w : Word}
    (h : s.word symbols address = .ok w) :
    ∃ d, s.resolve symbols address = .ok d ∧ Instr.decode w = .ok d := by
  obtain ⟨d, hResolve, hEncode⟩ := bind_eq_ok.mp h
  refine ⟨d, hResolve, ?_⟩
  rw [Instr.decode_of_encode hEncode, (hValid.writable_of_resolve hResolve).canonical]

end SymInstr

end MipsAsm
