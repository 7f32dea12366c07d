import MipsAsm.Instr.Codec
import MipsAsm.Proofs.Fields

/-!
Words and records. A record has a word exactly if it is consistent and its fields fit; the word decodes
to the record, and a decoded record is encoded as its word, up to the `rs` bits of `lui`.
-/

set_option autoImplicit false

namespace MipsAsm

open Outcome

namespace Mnemonic

theorem mem_all (m : Mnemonic) : m ∈ all := by
  cases m <;> decide

theorem coded_eq_ok {opcode funct : Byte} {m : Mnemonic} (h : coded opcode funct = .ok m) :
    m.opcode = opcode ∧ (opcode = 0 → m.funct = funct) := by
  unfold coded at h
  split at h
  · rename_i found hFound
    cases h
    rw [ofCodes?] at hFound
    simpa only [decide_eq_true_eq] using List.find?_some hFound
  · cases h

theorem coded_funct {m : Mnemonic} (h : m.opcode = 0) : coded 0 m.funct = .ok m := by
  have hAll : ∀ m ∈ all, m.opcode = 0 → coded 0 m.funct = .ok m := by decide
  exact hAll m (mem_all m) h

/-- Where the opcode is not zero, it alone finds the mnemonic. -/
theorem coded_opcode {m : Mnemonic} (h : m.opcode ≠ 0) (funct : Byte) :
    coded m.opcode funct = .ok m := by
  have hAll : ∀ m ∈ all, m.opcode ≠ 0 → all.find? (·.opcode = m.opcode) = some m := by decide
  have hFound : ofCodes? m.opcode funct = some m := by
    have hSame : ∀ k : Mnemonic, (k.opcode = m.opcode ∧ (m.opcode = 0 → k.funct = funct)) ↔
        k.opcode = m.opcode := fun k => and_iff_left fun hZero => absurd hZero h
    simp only [ofCodes?, hSame]
    exact hAll m (mem_all m) h
  rw [coded, hFound]

theorem opcode_eq_zero_iff (m : Mnemonic) :
    m.opcode = 0 ↔ m.format = .register ∨ m.format = .syscall := by
  cases m <;> decide

theorem ne_lui_of_format {m : Mnemonic} {format : Format} (h : m.format = format)
    (hFormat : format ≠ .immediate) : m ≠ .lui := by
  rintro rfl
  exact hFormat h.symm

theorem toNat_codes_lt (m : Mnemonic) : m.opcode.toNat < 64 ∧ m.funct.toNat < 64 := by
  cases m <;> decide

end Mnemonic

namespace Field

theorem max_layouts :
    opcode.max = 63 ∧ rs.max = 31 ∧ rt.max = 31 ∧ rd.max = 31 ∧ shamt.max = 31 ∧ funct.max = 63 ∧
      immediate.max = 65535 ∧ index.max = 67108863 ∧ code.max = 1048575 := by
  decide

/-- A field of at most `k` bits passes through storage of `k` bits unchanged. -/
theorem setWidth_setWidth_read {f : Field} {k : Nat} (hWidth : f.width ≤ k) (w : Word) :
    ((f.read w).setWidth k).setWidth 32 = f.read w := by
  apply BitVec.eq_of_getLsbD_eq
  intro i hi
  rw [BitVec.getLsbD_setWidth, BitVec.getLsbD_setWidth, getLsbD_read]
  by_cases hSmall : i < k
  · simp [hi, hSmall]
  · have hOut : ¬i < f.width := by omega
    simp [hOut]

theorem setWidth_readByte {f : Field} (hWidth : f.width ≤ 8) (w : Word) :
    (f.readByte w).setWidth 32 = f.read w :=
  setWidth_setWidth_read hWidth w

theorem readByte_eq {f : Field} {w : Word} {b : Byte} (h : f.read w = b.setWidth 32) :
    f.readByte w = b := by
  rw [readByte, h, BitVec.setWidth_setWidth_of_le _ (by decide), BitVec.setWidth_eq]

theorem toNat_readByte_lt {f : Field} (hWidth : f.width = 5) (w : Word) : (f.readByte w).toNat < 32 := by
  have hRead := toNat_read_lt (f := f) (by omega) w
  rw [hWidth] at hRead
  rw [readByte, BitVec.toNat_setWidth]
  omega

end Field

/-- The word without the `rs` bits where they mean nothing. -/
def Word.canonical (w : Word) : Word :=
  if Field.opcode.read w = 0x0F then Field.rs.write w 0 else w

namespace Instr

/-- Every field of the record fits its place in the word. -/
def Fits : Instr → Prop
  | register _ rs rt rd shamt _ =>
    rs.toNat < 32 ∧ rt.toNat < 32 ∧ rd.toNat < 32 ∧ shamt.toNat < 32
  | immediate m rs rt _ => (sourceOf m rs).toNat < 32 ∧ rt.toNat < 32
  | jump _ index => index.toNat < 2 ^ 26
  | syscall code => code.toNat < 2 ^ 20

/-- The record without the source register that `lui` does not have. -/
def canonical : Instr → Instr
  | immediate m rs rt imm => immediate m (sourceOf m rs) rt imm
  | r => r

@[simp] theorem sourceOf_sourceOf (m : Mnemonic) (rs : Byte) :
    sourceOf m (sourceOf m rs) = sourceOf m rs := by
  unfold sourceOf
  split <;> rfl

theorem toNat_sourceOf_lt {rs : Byte} (h : rs.toNat < 32) (m : Mnemonic) :
    (sourceOf m rs).toNat < 32 := by
  unfold sourceOf
  split
  · decide
  · exact h

/-- The record of a mnemonic with the fields of a word. -/
def withFields (m : Mnemonic) (w : Word) : Instr :=
  match m.format with
  | .register =>
    register m (Field.rs.readByte w) (Field.rt.readByte w) (Field.rd.readByte w)
      (Field.shamt.readByte w) (Field.funct.readByte w)
  | .immediate =>
    immediate m (sourceOf m (Field.rs.readByte w)) (Field.rt.readByte w)
      ((Field.immediate.read w).setWidth 16)
  | .jump => jump m (Field.index.read w)
  | .syscall => syscall (Field.code.read w)

theorem decode_eq_ok_iff {w : Word} {d : Instr} :
    decode w = .ok d ↔
      ∃ m, Mnemonic.coded (Field.opcode.readByte w) (Field.funct.readByte w) = .ok m ∧
        withFields m w = d := by
  rw [decode, bind_eq_ok]
  simp only [pure_eq_ok]
  rfl

theorem decode_of_funct {m : Mnemonic} {w : Word} (hZero : m.opcode = 0)
    (hOpcode : Field.opcode.readByte w = 0) (hFunct : Field.funct.readByte w = m.funct) :
    decode w = .ok (withFields m w) := by
  refine decode_eq_ok_iff.mpr ⟨m, ?_, rfl⟩
  rw [hOpcode, hFunct, Mnemonic.coded_funct hZero]

theorem decode_of_opcode {m : Mnemonic} {w : Word} (hNonzero : m.opcode ≠ 0)
    (hOpcode : Field.opcode.readByte w = m.opcode) : decode w = .ok (withFields m w) := by
  refine decode_eq_ok_iff.mpr ⟨m, ?_, rfl⟩
  rw [hOpcode, Mnemonic.coded_opcode hNonzero]

theorem parts_inWord (r : Instr) : ∀ part ∈ r.parts, part.1.InWord := by
  cases r with
  | register m rs rt rd shamt funct => simp only [parts, List.forall_mem_cons]; decide
  | immediate m rs rt imm => simp only [parts, List.forall_mem_cons]; decide
  | jump m index => simp only [parts, List.forall_mem_cons]; decide
  | syscall code => simp only [parts, List.forall_mem_cons]; decide

theorem parts_disjoint (r : Instr) : r.parts.Pairwise fun p q => p.1.Disjoint q.1 := by
  cases r with
  | register m rs rt rd shamt funct =>
    simp only [parts, List.pairwise_cons, List.forall_mem_cons]; decide
  | immediate m rs rt imm => simp only [parts, List.pairwise_cons, List.forall_mem_cons]; decide
  | jump m index => simp only [parts, List.pairwise_cons, List.forall_mem_cons]; decide
  | syscall code => simp only [parts, List.pairwise_cons, List.forall_mem_cons]; decide

theorem parts_fit_iff {r : Instr} (h : r.Consistent) :
    (∀ part ∈ r.parts, part.2.toNat ≤ part.1.max) ↔ r.Fits := by
  cases r with
  | register m rs rt rd shamt funct =>
    obtain ⟨-, rfl⟩ := h
    have hCodes := m.toNat_codes_lt
    simp only [parts, Fits, List.forall_mem_cons, BitVec.toNat_setWidth, Field.max_layouts]
    simp
    omega
  | immediate m rs rt imm =>
    have hCodes := m.toNat_codes_lt
    simp only [parts, Fits, List.forall_mem_cons, BitVec.toNat_setWidth, Field.max_layouts]
    simp
    omega
  | jump m index =>
    have hCodes := m.toNat_codes_lt
    simp only [parts, Fits, List.forall_mem_cons, BitVec.toNat_setWidth, Field.max_layouts]
    simp
    omega
  | syscall code =>
    have hCodes := Mnemonic.syscall.toNat_codes_lt
    simp only [parts, Fits, List.forall_mem_cons, BitVec.toNat_setWidth, Field.max_layouts]
    simp
    omega

theorem encode_eq_ok_iff {r : Instr} {w : Word} :
    r.encode = .ok w ↔ r.Consistent ∧ r.Fits ∧ Field.writeAll 0 r.parts = w := by
  rw [encode]
  split
  · rename_i hConsistent
    rw [mapError_eq_ok, Field.pack_eq_ok_iff r.parts_inWord, parts_fit_iff hConsistent]
    simp [hConsistent]
  · rename_i hConsistent
    simp [hConsistent]

theorem read_parts {r : Instr} (hConsistent : r.Consistent) (hFits : r.Fits) :
    ∀ part ∈ r.parts, part.1.read (Field.writeAll 0 r.parts) = part.2 :=
  Field.read_writeAll r.parts_inWord ((parts_fit_iff hConsistent).mpr hFits) r.parts_disjoint 0

theorem decode_writeAll {r : Instr} (hConsistent : r.Consistent) (hFits : r.Fits) :
    decode (Field.writeAll 0 r.parts) = .ok r.canonical := by
  have hRead := read_parts hConsistent hFits
  generalize hWord : Field.writeAll 0 r.parts = w at hRead
  cases r with
  | register m rs rt rd shamt funct =>
    obtain ⟨hFormat, rfl⟩ := hConsistent
    simp only [parts, List.forall_mem_cons, List.not_mem_nil, false_imp_iff] at hRead
    obtain ⟨hOpcode, hRs, hRt, hRd, hShamt, hFunct, -⟩ := hRead
    have hZero : m.opcode = 0 := (m.opcode_eq_zero_iff).mpr (.inl hFormat)
    rw [decode_of_funct hZero (Field.readByte_eq (b := 0) hOpcode) (Field.readByte_eq hFunct), withFields,
      hFormat]
    simp only [Field.readByte_eq hRs, Field.readByte_eq hRt, Field.readByte_eq hRd,
      Field.readByte_eq hShamt, Field.readByte_eq hFunct, canonical]
  | immediate m rs rt imm =>
    have hFormat : m.format = .immediate := hConsistent
    simp only [parts, List.forall_mem_cons, List.not_mem_nil, false_imp_iff] at hRead
    obtain ⟨hOpcode, hRs, hRt, hImm, -⟩ := hRead
    have hNonzero : m.opcode ≠ 0 := by
      rw [Ne, m.opcode_eq_zero_iff, hFormat]
      decide
    have hHalf : (Field.immediate.read w).setWidth 16 = imm := by
      rw [hImm, BitVec.setWidth_setWidth_of_le _ (by decide), BitVec.setWidth_eq]
    rw [decode_of_opcode hNonzero (Field.readByte_eq hOpcode), withFields, hFormat]
    simp only [Field.readByte_eq hRs, Field.readByte_eq hRt, hHalf, sourceOf_sourceOf, canonical]
  | jump m index =>
    have hFormat : m.format = .jump := hConsistent
    simp only [parts, List.forall_mem_cons, List.not_mem_nil, false_imp_iff] at hRead
    obtain ⟨hOpcode, hIndex, -⟩ := hRead
    have hNonzero : m.opcode ≠ 0 := by
      rw [Ne, m.opcode_eq_zero_iff, hFormat]
      decide
    rw [decode_of_opcode hNonzero (Field.readByte_eq hOpcode), withFields, hFormat]
    simp only [hIndex, canonical]
  | syscall code =>
    simp only [parts, List.forall_mem_cons, List.not_mem_nil, false_imp_iff] at hRead
    obtain ⟨hCode, hFunct, -⟩ := hRead
    have hOpcode : Field.opcode.read w = 0 := by
      rw [← hWord, Field.read_writeAll_of_disjoint (by decide)
        (by simp only [parts, List.forall_mem_cons]; decide)]
      rfl
    rw [decode_of_funct (m := .syscall) rfl (Field.readByte_eq (b := 0) hOpcode)
      (Field.readByte_eq hFunct), withFields]
    simp only [Mnemonic.format, hCode, canonical]

/-- The word of a record decodes to the record. -/
theorem decode_of_encode {r : Instr} {w : Word} (h : r.encode = .ok w) : decode w = .ok r.canonical := by
  obtain ⟨hConsistent, hFits, rfl⟩ := encode_eq_ok_iff.mp h
  exact decode_writeAll hConsistent hFits

theorem decode_valid {w : Word} {d : Instr} (h : decode w = .ok d) :
    d.Consistent ∧ d.Fits ∧ d.canonical = d := by
  obtain ⟨m, hCoded, rfl⟩ := decode_eq_ok_iff.mp h
  obtain ⟨hOpcode, hFunct⟩ := Mnemonic.coded_eq_ok hCoded
  rw [withFields]
  cases hFormat : m.format with
  | register =>
    have hZero : m.opcode = 0 := (m.opcode_eq_zero_iff).mpr (.inl hFormat)
    exact ⟨⟨hFormat, (hFunct (hOpcode ▸ hZero)).symm⟩,
      ⟨Field.toNat_readByte_lt rfl w, Field.toNat_readByte_lt rfl w, Field.toNat_readByte_lt rfl w,
        Field.toNat_readByte_lt rfl w⟩, rfl⟩
  | immediate =>
    refine ⟨hFormat, ⟨?_, Field.toNat_readByte_lt rfl w⟩, ?_⟩
    · exact toNat_sourceOf_lt (toNat_sourceOf_lt (Field.toNat_readByte_lt rfl w) m) m
    · simp only [canonical, sourceOf_sourceOf]
  | jump => exact ⟨hFormat, Field.toNat_read_lt (f := Field.index) (by decide) w, rfl⟩
  | syscall => exact ⟨trivial, Field.toNat_read_lt (f := Field.code) (by decide) w, rfl⟩

theorem writeAll_register (m : Mnemonic) {w : Word} (hOpcode : Field.opcode.read w = 0) :
    Field.writeAll 0 (parts (register m (Field.rs.readByte w) (Field.rt.readByte w)
      (Field.rd.readByte w) (Field.shamt.readByte w) (Field.funct.readByte w))) = w := by
  have hParts : parts (register m (Field.rs.readByte w) (Field.rt.readByte w) (Field.rd.readByte w)
      (Field.shamt.readByte w) (Field.funct.readByte w)) =
        Field.registerLayout.map fun f => (f, f.read w) := by
    simp (disch := decide) only [parts, Field.registerLayout, List.map_cons, List.map_nil, hOpcode,
      Field.setWidth_readByte]
  rw [hParts]
  exact Field.writeAll_read (by decide) 0 w

theorem writeAll_immediate {m : Mnemonic} {w : Word} (hOpcode : m.opcode.setWidth 32 = Field.opcode.read w)
    (hSource : (sourceOf m (Field.rs.readByte w)).setWidth 32 = Field.rs.read w) :
    Field.writeAll 0 (parts (immediate m (sourceOf m (Field.rs.readByte w)) (Field.rt.readByte w)
      ((Field.immediate.read w).setWidth 16))) = w := by
  have hParts : parts (immediate m (sourceOf m (Field.rs.readByte w)) (Field.rt.readByte w)
      ((Field.immediate.read w).setWidth 16)) = Field.immediateLayout.map fun f => (f, f.read w) := by
    simp (disch := decide) only [parts, Field.immediateLayout, List.map_cons, List.map_nil, hOpcode,
      sourceOf_sourceOf, hSource, Field.setWidth_readByte, Field.setWidth_setWidth_read]
  rw [hParts]
  exact Field.writeAll_read (by decide) 0 w

theorem writeAll_jump {m : Mnemonic} {w : Word} (hOpcode : m.opcode.setWidth 32 = Field.opcode.read w) :
    Field.writeAll 0 (parts (jump m (Field.index.read w))) = w := by
  have hParts : parts (jump m (Field.index.read w)) =
      Field.jumpLayout.map fun f => (f, f.read w) := by
    simp only [parts, Field.jumpLayout, List.map_cons, List.map_nil, hOpcode]
  rw [hParts]
  exact Field.writeAll_read (by decide) 0 w

theorem writeAll_syscall {w : Word} (hOpcode : Field.opcode.read w = 0)
    (hFunct : Mnemonic.syscall.funct.setWidth 32 = Field.funct.read w) :
    Field.writeAll 0 (parts (syscall (Field.code.read w))) = w := by
  -- The opcode is not among the parts, but writing zero to it changes nothing.
  have hParts : (Field.opcode, 0) :: parts (syscall (Field.code.read w)) =
      [Field.opcode, Field.code, Field.funct].map fun f => (f, f.read w) := by
    simp only [parts, List.map_cons, List.map_nil, hOpcode, hFunct]
  have hZero : Field.writeAll 0 (parts (syscall (Field.code.read w))) =
      Field.writeAll 0 ((Field.opcode, 0) :: parts (syscall (Field.code.read w))) := rfl
  rw [hZero, hParts]
  exact Field.writeAll_read (by decide) 0 w

theorem canonical_of_opcode {m : Mnemonic} {w : Word}
    (hOpcode : m.opcode.setWidth 32 = Field.opcode.read w) :
    w.canonical = if m = .lui then Field.rs.write w 0 else w := by
  have hLui : m.opcode.setWidth 32 = (0x0F : Word) ↔ m = .lui := by
    cases m <;> decide
  simp only [Word.canonical, ← hOpcode, hLui]

theorem writeAll_lui {w : Word} (hOpcode : Mnemonic.lui.opcode.setWidth 32 = Field.opcode.read w) :
    Field.writeAll 0 (parts (immediate .lui 0 (Field.rt.readByte w)
      ((Field.immediate.read w).setWidth 16))) = Field.rs.write w 0 := by
  have hRs : Field.rs.read (Field.rs.write w 0) = 0 := Field.read_write_self (by decide) w (by decide)
  have hKeep : ∀ f : Field, f.Disjoint .rs → f.InWord → f.read (Field.rs.write w 0) = f.read w :=
    fun f hDisjoint hIn => Field.read_write_of_disjoint hDisjoint hIn w 0
  have hWord := writeAll_immediate (m := .lui) (w := Field.rs.write w 0)
    (by rw [hKeep .opcode (by decide) (by decide), hOpcode]) hRs.symm
  rw [Field.readByte, Field.readByte, hKeep .rt (by decide) (by decide),
    hKeep .immediate (by decide) (by decide)] at hWord
  exact hWord

theorem writeAll_parts_of_decode {w : Word} {d : Instr} (h : decode w = .ok d) :
    Field.writeAll 0 d.parts = w.canonical := by
  obtain ⟨m, hCoded, rfl⟩ := decode_eq_ok_iff.mp h
  obtain ⟨hCode, hFunct⟩ := Mnemonic.coded_eq_ok hCoded
  have hOpcode : m.opcode.setWidth 32 = Field.opcode.read w := by
    rw [hCode, Field.setWidth_readByte (by decide)]
  rw [withFields, canonical_of_opcode hOpcode]
  cases hFormat : m.format with
  | register =>
    have hZero : m.opcode = 0 := (m.opcode_eq_zero_iff).mpr (.inl hFormat)
    rw [if_neg (Mnemonic.ne_lui_of_format hFormat (by decide))]
    exact writeAll_register m (by rw [← hOpcode, hZero]; rfl)
  | immediate =>
    by_cases hEq : m = .lui
    · subst hEq
      rw [if_pos rfl]
      exact writeAll_lui hOpcode
    · rw [if_neg hEq]
      apply writeAll_immediate hOpcode
      rw [sourceOf, if_neg hEq, Field.setWidth_readByte (by decide)]
  | jump =>
    rw [if_neg (Mnemonic.ne_lui_of_format hFormat (by decide))]
    exact writeAll_jump hOpcode
  | syscall =>
    have hMnemonic : m = .syscall := by
      revert hFormat
      cases m <;> decide
    subst hMnemonic
    have hRead : Field.opcode.read w = 0 := hOpcode.symm
    refine writeAll_syscall hRead ?_
    rw [hFunct hCode.symm, Field.setWidth_readByte (by decide)]

/-- A decoded record is encoded as the word it comes from, up to the `rs` bits of `lui`. -/
theorem encode_of_decode {w : Word} {d : Instr} (h : decode w = .ok d) : d.encode = .ok w.canonical := by
  obtain ⟨hConsistent, hFits, -⟩ := decode_valid h
  exact encode_eq_ok_iff.mpr ⟨hConsistent, hFits, writeAll_parts_of_decode h⟩

end Instr

theorem Word.canonical_eq_self_iff (w : Word) :
    w.canonical = w ↔ ¬(Field.opcode.read w = 0x0F ∧ Field.rs.read w ≠ 0) := by
  rw [canonical]
  split
  · rename_i hLui
    constructor
    · intro hSame hBits
      apply hBits.2
      rw [← hSame]
      exact Field.read_write_self (by decide) w (by decide)
    · intro hNot
      have hRs : Field.rs.read w = 0 := by
        by_contra hBits
        exact hNot ⟨hLui, hBits⟩
      apply BitVec.eq_of_getLsbD_eq
      intro i hi
      rw [Field.getLsbD_write _ _ _ hi]
      split
      · rename_i hCovers
        have hBit := Field.getLsbD_read Field.rs w (i - Field.rs.lsb)
        obtain ⟨hLow, hHigh⟩ := hCovers
        rw [hRs, Nat.add_sub_cancel' hLow] at hBit
        rw [hBit, decide_eq_true (by omega), Bool.true_and]
      · rfl
  · rename_i hLui
    exact iff_of_true rfl fun hBits => hLui hBits.1

theorem Word.canonical_eq_clear {w : Word} (h : Field.opcode.read w = 0x0F) :
    w.canonical = w &&& 0xFC1FFFFF := by
  have hMask : ~~~Field.rs.mask = 0xFC1FFFFF := by decide
  rw [Word.canonical, if_pos h, Field.write, hMask]
  simp

theorem Field.read_opcode (w : Word) : opcode.read w = w >>> 26 := by
  apply BitVec.eq_of_toNat_eq
  have hWord := w.isLt
  rw [toNat_read (f := opcode) (by decide), BitVec.toNat_ushiftRight, Nat.shiftRight_eq_div_pow]
  change w.toNat / 2 ^ 26 % 2 ^ 6 = _
  omega

theorem Word.canonical_eq (w : Word) : w.canonical = if w >>> 26 = 0x0F then w &&& 0xFC1FFFFF else w := by
  rw [← Field.read_opcode]
  split
  · rename_i hLui
    exact canonical_eq_clear hLui
  · rename_i hLui
    exact if_neg hLui

namespace Instr

/-- The mnemonic has the record's format, and every field that the format has fits its bits. -/
def Encodable : Instr → Prop
  | register m rs rt rd shamt funct =>
    m.format = .register ∧ funct = m.funct ∧ rs.toNat < 32 ∧ rt.toNat < 32 ∧ rd.toNat < 32 ∧
      shamt.toNat < 32
  | immediate m rs rt _ => m.format = .immediate ∧ rt.toNat < 32 ∧ (rs.toNat < 32 ∨ m = .lui)
  | jump m index => m = .j ∧ index.toNat < 2 ^ 26
  | syscall code => code.toNat < 2 ^ 20

theorem toNat_sourceOf_lt_iff (m : Mnemonic) (rs : Byte) :
    (sourceOf m rs).toNat < 32 ↔ rs.toNat < 32 ∨ m = .lui := by
  unfold sourceOf
  split
  · rename_i hLui
    simp [hLui]
  · rename_i hLui
    simp [hLui]

theorem encodable_iff (r : Instr) : r.Encodable ↔ r.Consistent ∧ r.Fits := by
  cases r with
  | register m rs rt rd shamt funct => simp only [Encodable, Consistent, Fits, and_assoc]
  | immediate m rs rt imm =>
    simp only [Encodable, Consistent, Fits, toNat_sourceOf_lt_iff]
    rw [and_comm (a := rt.toNat < 32)]
  | jump m index =>
    have hFormat : m.format = .jump ↔ m = .j := by
      cases m <;> decide
    simp only [Encodable, Consistent, Fits, hFormat]
  | syscall code => simp only [Encodable, Consistent, Fits, true_and]

theorem exists_encode_iff (r : Instr) : (∃ w, r.encode = .ok w) ↔ r.Encodable := by
  simp only [encode_eq_ok_iff, encodable_iff]
  constructor
  · rintro ⟨w, hConsistent, hFits, -⟩
    exact ⟨hConsistent, hFits⟩
  · rintro ⟨hConsistent, hFits⟩
    exact ⟨_, hConsistent, hFits, rfl⟩

theorem canonical_eq_self_iff (r : Instr) :
    r.canonical = r ↔ ∀ rs rt imm, r = .immediate .lui rs rt imm → rs = 0 := by
  cases r with
  | immediate m rs rt imm =>
    simp only [canonical, sourceOf, immediate.injEq]
    constructor
    · rintro ⟨-, hSource, -⟩ source rt' imm' ⟨hLui, rfl, -⟩
      rw [if_pos hLui] at hSource
      exact hSource.symm
    · intro hZero
      refine ⟨trivial, ?_, trivial, trivial⟩
      split
      · rename_i hLui
        exact (hZero rs rt imm ⟨hLui, rfl, rfl, rfl⟩).symm
      · rfl
  | register m rs rt rd shamt funct => exact iff_of_true rfl nofun
  | jump m index => exact iff_of_true rfl nofun
  | syscall code => exact iff_of_true rfl nofun

theorem encode_decode_inverse :
    (∀ r : Instr, (∃ w, r.encode = .ok w) ↔ r.Encodable) ∧
    (∀ (r : Instr) (w : Word), r.encode = .ok w → decode w = .ok r.canonical) ∧
    (∀ (w : Word) (d : Instr), decode w = .ok d →
      d.encode = .ok (if w >>> 26 = 0x0F then w &&& 0xFC1FFFFF else w)) ∧
    ∀ (r r' : Instr) (w : Word), (∀ rs rt imm, r = .immediate .lui rs rt imm → rs = 0) →
      (∀ rs rt imm, r' = .immediate .lui rs rt imm → rs = 0) →
      r.encode = .ok w → r'.encode = .ok w → r = r' := by
  refine ⟨exists_encode_iff, ?_, ?_, ?_⟩
  · intro r w hEncode
    exact decode_of_encode hEncode
  · intro w d hDecode
    rw [← w.canonical_eq]
    exact encode_of_decode hDecode
  · intro r r' w hSource hSource' hEncode hEncode'
    have hDecode := decode_of_encode hEncode
    rw [decode_of_encode hEncode', r.canonical_eq_self_iff.mpr hSource,
      r'.canonical_eq_self_iff.mpr hSource'] at hDecode
    exact (Except.ok.inj hDecode).symm

theorem encode_decode_inverse_lui :
    ∃ w, (immediate .lui 200 10 0x1234).encode = .ok w ∧ decode w = .ok (immediate .lui 0 10 0x1234) := by
  obtain ⟨w, hEncode⟩ := (encode_decode_inverse.1 (immediate .lui 200 10 0x1234)).mpr
    ⟨rfl, by decide, .inr rfl⟩
  exact ⟨w, hEncode, encode_decode_inverse.2.1 _ w hEncode⟩

end Instr

end MipsAsm
