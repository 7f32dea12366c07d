import MipsAsm.Instr.Lookup
import MipsAsm.Program.SymInstr
import MipsAsm.Proofs.Numerals
import MipsAsm.Proofs.Outcome

/-!
Written operands are read back. Registers, integers and memory operands are written in a small set of
characters, which holds no blank and none of the characters that end a line, a label or an operand.
-/

set_option autoImplicit false

namespace MipsAsm

namespace Text

def isOperandChar (c : Char) : Bool := c.isAlphanum || "$-()".toList.contains c

/-- A text in which operands are written. -/
def Plain (t : Text) : Prop := ∀ c ∈ t, isOperandChar c = true

instance (t : Text) : Decidable (Plain t) := List.decidableBAll _ t

theorem Plain.append {front back : Text} (hFront : Plain front) (hBack : Plain back) :
    Plain (front ++ back) := by
  intro c hc
  rcases List.mem_append.mp hc with hc | hc
  · exact hFront c hc
  · exact hBack c hc

theorem Plain.not_mem {t : Text} (h : Plain t) {c : Char} (hChar : isOperandChar c = false) : c ∉ t := by
  intro hc
  rw [h c hc] at hChar
  cases hChar

theorem isAlpha_iff (c : Char) :
    c.isAlpha = true ↔ (65 ≤ c.toNat ∧ c.toNat ≤ 90) ∨ (97 ≤ c.toNat ∧ c.toNat ≤ 122) := by
  change (decide (65 ≤ c.toNat ∧ c.toNat ≤ 90) ||
    (decide (97 ≤ c.toNat) && decide (c.toNat ≤ 122))) = true ↔ _
  simp only [Bool.or_eq_true, Bool.and_eq_true, decide_eq_true_eq]

theorem isAlphanum_iff (c : Char) :
    c.isAlphanum = true ↔
      ((65 ≤ c.toNat ∧ c.toNat ≤ 90) ∨ (97 ≤ c.toNat ∧ c.toNat ≤ 122)) ∨ (48 ≤ c.toNat ∧ c.toNat ≤ 57) := by
  rw [Char.isAlphanum, Bool.or_eq_true, isAlpha_iff, Char.isDigit_iff_toNat]
  rfl

theorem isBlank_of_code {c : Char} (hLow : 0x20 < c.toNat) (hHigh : c.toNat < 0x85) :
    isBlank c = false := by
  simp only [isBlank, blankRanges, List.any_cons, List.any_nil, Bool.or_false, Bool.or_eq_false_iff,
    Bool.and_eq_false_iff, decide_eq_false_iff_not]
  omega

theorem isBlank_of_isAlphanum {c : Char} (h : c.isAlphanum = true) : isBlank c = false := by
  rw [isAlphanum_iff] at h
  exact isBlank_of_code (by omega) (by omega)

/-- Letters, digits and a few marks are no blanks. -/
theorem isBlank_of_mark {c : Char} {marks : Text}
    (hMarks : (marks.all fun m => decide (0x20 < m.toNat ∧ m.toNat < 0x85)) = true)
    (h : c.isAlphanum = true ∨ c ∈ marks) : isBlank c = false := by
  rcases h with hAlphanum | hMark
  · exact isBlank_of_isAlphanum hAlphanum
  · obtain ⟨hLow, hHigh⟩ := of_decide_eq_true (List.all_eq_true.mp hMarks c hMark)
    exact isBlank_of_code hLow hHigh

theorem isBlank_of_isOperandChar {c : Char} (h : isOperandChar c = true) : isBlank c = false := by
  rw [isOperandChar, Bool.or_eq_true, List.contains_iff_mem] at h
  exact isBlank_of_mark (by decide) h

theorem isBlank_of_isNamePart {c : Char} (h : isNamePart c = true) : isBlank c = false := by
  have hMarks : c.isAlphanum = true ∨ c ∈ "_.".toList := by
    simpa [isNamePart, or_assoc] using h
  exact isBlank_of_mark (by decide) hMarks

theorem isNamePart_of_isNameStart {c : Char} (h : isNameStart c = true) : isNamePart c = true := by
  simp only [isNameStart, isNamePart, Bool.or_eq_true, isAlpha_iff, isAlphanum_iff] at h ⊢
  rcases h with (hAlpha | hUnderscore) | hDot
  · exact .inl (.inl (.inl hAlpha))
  · exact .inl (.inr hUnderscore)
  · exact .inr hDot

theorem isNamePart_of_isIdentifier {t : Text} (h : isIdentifier t = true) : ∀ c ∈ t, isNamePart c = true := by
  cases t with
  | nil => cases h
  | cons first rest =>
    rw [isIdentifier, Bool.and_eq_true, List.all_eq_true] at h
    exact List.forall_mem_cons.mpr ⟨isNamePart_of_isNameStart h.1, h.2⟩

theorem isBlank_of_isIdentifier {t : Text} (h : isIdentifier t = true) : ∀ c ∈ t, isBlank c = false :=
  fun c hc => isBlank_of_isNamePart (isNamePart_of_isIdentifier h c hc)

theorem not_mem_of_isIdentifier {t : Text} (h : isIdentifier t = true) {c : Char}
    (hChar : isNamePart c = false) : c ∉ t := by
  intro hc
  rw [isNamePart_of_isIdentifier h c hc] at hChar
  cases hChar

theorem trimmed_of_isIdentifier {t : Text} (h : isIdentifier t = true) : Trimmed t :=
  trimmed_of_forall (isBlank_of_isIdentifier h)

theorem Plain.not_blank {t : Text} (h : Plain t) : ∀ c ∈ t, isBlank c = false :=
  fun c hc => isBlank_of_isOperandChar (h c hc)

theorem Plain.trim_eq {t : Text} (h : Plain t) : trim t = t := (trimmed_of_forall h.not_blank).trim_eq

end Text

open Text Outcome

namespace Numeral

theorem isAlphanum_of_digit {radix : Nat} {c : Char} (h : (digit? radix c).isSome) :
    c.isAlphanum = true := by
  have hHex : (hexDigit? c).isSome := by
    cases hc : hexDigit? c with
    | none => simp [digit?, hc] at h
    | some d => rfl
  simp only [hexDigit?, Char.le_def, UInt32.le_iff_toNat_le] at hHex
  rw [isAlphanum_iff]
  split at hHex
  · rename_i hRange
    exact .inr hRange
  split at hHex
  · rename_i hRange
    exact .inl (.inr ⟨hRange.1, Nat.le_trans hRange.2 (by decide)⟩)
  split at hHex
  · rename_i hRange
    exact .inl (.inl ⟨hRange.1, Nat.le_trans hRange.2 (by decide)⟩)
  · cases hHex

theorem isAlphanum_of_mem_hexMarks {mark : Text} (h : mark ∈ hexMarks) : ∀ c ∈ mark, c.isAlphanum = true := by
  have hMarks : (hexMarks.all fun mark => mark.all Char.isAlphanum) = true := by decide
  exact List.all_eq_true.mp (List.all_eq_true.mp hMarks mark h)

theorem Denotes.isAlphanum {radix : Nat} (hRadix : radix ≤ 16) {t : Text} {n : Nat} (h : Denotes radix t n) :
    ∀ c ∈ t, c.isAlphanum = true :=
  fun c hc => isAlphanum_of_digit (h.allDigits hRadix c hc)

theorem AllDigits.plain {radix : Nat} {t : Text} (h : AllDigits radix t) : Plain t := by
  intro c hc
  rw [isOperandChar, isAlphanum_of_digit (h c hc)]
  rfl

theorem plain_decimal (n : Nat) : Plain (decimal n) :=
  (allDigits_toDigits (by decide) (by decide) n).plain

theorem plain_markedHex (width n : Nat) : Plain (markedHex width n) := by
  have hMark : Plain "0x".toList := by decide
  exact hMark.append (allDigits_hex width n).plain

theorem plain_integer (value : Int) : Plain (integer value) := by
  cases value with
  | ofNat n => exact plain_decimal n
  | negSucc n =>
    have hSign : Plain ['-'] := by decide
    exact hSign.append (plain_decimal (n + 1))

/-- A decimal numeral starts with a digit. -/
theorem decimal_head (n : Nat) : ∃ c rest, decimal n = c :: rest ∧ (digit? 10 c).isSome := by
  cases hDigits : decimal n with
  | nil => exact absurd hDigits Nat.toDigits_ne_nil
  | cons c rest =>
    refine ⟨c, rest, rfl, allDigits_toDigits (by decide) (by decide) n c ?_⟩
    rw [← decimal, hDigits]
    exact List.mem_cons_self

theorem AllDigits.dropHexMark?_eq {radix : Nat} {t : Text} (h : AllDigits radix t) :
    dropHexMark? t = none := by
  unfold dropHexMark?
  split
  · have hMark := h 'x' (List.mem_cons_of_mem _ List.mem_cons_self)
    cases hMark
  · have hMark := h 'X' (List.mem_cons_of_mem _ List.mem_cons_self)
    cases hMark
  · rfl

/-- An address on a command line: decimal digits, or hexadecimal digits behind a mark. -/
inductive SpellsAddress : Text → Nat → Prop
  | decimal {t : Text} {n : Nat} (hDigits : PlusDenotes 10 t n) : SpellsAddress t n
  | hex {mark t : Text} {n : Nat} (hMark : mark ∈ hexMarks) (hDigits : PlusDenotes 16 t n) :
      SpellsAddress (mark ++ t) n

theorem PlusDenotes.dropHexMark?_eq {radix : Nat} (hRadix : radix ≤ 16) {t : Text} {n : Nat}
    (h : PlusDenotes radix t n) : dropHexMark? t = none := by
  cases h with
  | bare hDigits => exact (hDigits.allDigits hRadix).dropHexMark?_eq
  | plus hDigits => rfl

theorem readAddress_eq_ok_iff {t : Text} {n : Nat} :
    readAddress t = .ok n ↔ SpellsAddress (trim t) n ∧ n < 0x100000000 := by
  have hRead {radix : Nat} (hPos : 0 < radix) (hRadix : radix ≤ 16) {digits : Text} :
      readNat radix 0xFFFFFFFF digits = .ok n ↔ PlusDenotes radix digits n ∧ n < 0x100000000 := by
    rw [readNat_eq_ok_iff hPos hRadix]
    exact and_congr_right fun _ => by omega
  constructor
  · intro h
    dsimp only [readAddress] at h
    split at h
    · rename_i digits hDrop
      obtain ⟨mark, hMark, hText⟩ := dropHexMark?_eq_some_iff.mp hDrop
      obtain ⟨hDigits, hLimit⟩ := (hRead (by decide) (by decide)).mp h
      exact ⟨hText ▸ .hex hMark hDigits, hLimit⟩
    · obtain ⟨hDigits, hLimit⟩ := (hRead (by decide) (by decide)).mp h
      exact ⟨.decimal hDigits, hLimit⟩
  · rintro ⟨h, hLimit⟩
    dsimp only [readAddress]
    generalize trim t = body at h
    cases h with
    | decimal hDigits =>
      rw [hDigits.dropHexMark?_eq (by decide)]
      exact (hRead (by decide) (by decide)).mpr ⟨hDigits, hLimit⟩
    | hex hMark hDigits =>
      rw [dropHexMark?_eq_some_iff.mpr ⟨_, hMark, rfl⟩]
      exact (hRead (by decide) (by decide)).mpr ⟨hDigits, hLimit⟩

end Numeral

open Numeral

namespace Immediate

theorem magnitude_decimal {n : Nat} (hLimit : n ≤ limit) : magnitude (decimal n) = .ok n := by
  have hDigits : AllDigits 10 (decimal n) := allDigits_toDigits (by decide) (by decide) n
  rw [magnitude, hDigits.dropHexMark?_eq]
  exact readDigits_decimal hLimit

theorem splitSign_decimal (n : Nat) : splitSign (decimal n) = (false, decimal n) := by
  obtain ⟨c, rest, hDigits, hHead⟩ := decimal_head n
  rw [hDigits]
  unfold splitSign
  split
  · rename_i hEq
    cases hEq
    cases hHead
  · rename_i hEq
    cases hEq
    cases hHead
  · rfl

theorem read_of_magnitude {t digits : Text} {negative : Bool} {n : Nat}
    (hSplit : splitSign (trim t) = (negative, digits)) (hMagnitude : magnitude digits = .ok n) :
    read t = .ok (if negative then -(n : Int) else n) := by
  simp only [read, hSplit, hMagnitude]

theorem read_integer {value : Int} (hLimit : value.natAbs ≤ limit) :
    read (integer value) = .ok value := by
  have hTrim := (plain_integer value).trim_eq
  cases value with
  | ofNat n =>
    exact read_of_magnitude ((congrArg splitSign hTrim).trans (splitSign_decimal n))
      (magnitude_decimal hLimit)
  | negSucc n => exact read_of_magnitude (congrArg splitSign hTrim) (magnitude_decimal hLimit)

theorem read_markedHex {n : Nat} (width : Nat) (hLimit : n ≤ limit) :
    read (markedHex width n) = .ok n :=
  read_of_magnitude (congrArg splitSign (plain_markedHex width n).trim_eq)
    (readDigits_hex width hLimit)

theorem head_of_read {t : Text} {value : Int} (h : read t = .ok value) : t.head? ≠ some '%' := by
  cases t with
  | nil => nofun
  | cons c rest =>
    rintro ⟨⟩
    obtain ⟨tail, hTrim⟩ := exists_trim_cons (c := '%') rfl rest
    rw [read, hTrim] at h
    cases h

end Immediate

namespace Reg

theorem ofNat_number (r : Reg) : ⟨BitVec.ofNat 8 r.number.toNat⟩ = r := by
  rw [BitVec.ofNat_toNat, BitVec.setWidth_eq]

/-- A property of machine registers is checked on the 32 numbers. -/
theorem forall_of_lt {P : Reg → Prop} (hAll : ∀ n < 32, P ⟨BitVec.ofNat 8 n⟩) {r : Reg}
    (h : r.number.toNat < 32) : P r :=
  ofNat_number r ▸ hAll r.number.toNat h

theorem named_name {r : Reg} (h : r.number.toNat < 32) : named r.name = .ok r :=
  forall_of_lt (P := fun r => named r.name = .ok r) (by decide +kernel) h

theorem plain_name {r : Reg} (h : r.number.toNat < 32) : Plain r.name :=
  forall_of_lt (P := fun r => Plain r.name) (by decide +kernel) h

theorem name_ne_nil {r : Reg} (h : r.number.toNat < 32) : r.name ≠ [] :=
  forall_of_lt (P := fun r => r.name ≠ []) (by decide +kernel) h

end Reg

theorem MemoryOperand.read_written {offset base : Text} (hOffset : Plain offset) (hBase : Plain base)
    (hNonempty : offset ≠ []) (hOpen : '(' ∉ offset) :
    MemoryOperand.read (offset ++ "(".toList ++ base ++ ")".toList) = .ok ⟨offset, base⟩ := by
  have hPlain : Plain (offset ++ "(".toList ++ base ++ ")".toList) := by
    have hMarks : Plain "(".toList ∧ Plain ")".toList := by decide
    exact ((hOffset.append hMarks.1).append hBase).append hMarks.2
  have hAll : ∀ c ∈ offset, decide (c ≠ '(') = true := by
    intro c hc
    exact decide_eq_true (fun hEq => hOpen (hEq ▸ hc))
  have hSplit : offset ++ "(".toList ++ base ++ ")".toList = offset ++ '(' :: (base ++ [')']) := by
    simp
  have hClose : Text.dropLast? ')' (base ++ [')']) = some base := by simp [Text.dropLast?]
  rw [MemoryOperand.read, hPlain.trim_eq, hSplit, List.takeWhile_append_of_pos hAll,
    List.dropWhile_append_of_pos hAll]
  simp [hClose, hOffset.trim_eq, hBase.trim_eq, hNonempty]

theorem Target.read_value {t : Text} {value : Int} (hName : isIdentifier t = false)
    (hRead : Immediate.read t = .ok value) : Target.read t = .ok (.value value) := by
  rw [Target.read, hName, hRead]
  rfl

@[simp] theorem Signedness.check_eq_ok {s : Signedness} {value : Int} {u : Unit} :
    s.check value = .ok u ↔ s.Fits value := by
  rw [Signedness.check]
  split
  · rename_i hFits
    simp [hFits]
  · rename_i hFits
    simp [hFits]

namespace Imm

theorem halfLabel?_of_head {t : Text} (h : t.head? ≠ some '%') (half : String)
    (hHalf : half.toList.head? = some '%') : halfLabel? half t = none := by
  have hMark : Text.dropMark? half.toList t = none := by
    cases hChars : half.toList with
    | nil => rw [hChars] at hHalf; cases hHalf
    | cons m mark =>
      rw [hChars] at hHalf
      cases hHalf
      cases t with
      | nil => rfl
      | cons c rest =>
        have hNe : '%' ≠ c := by
          rintro rfl
          exact h rfl
        rw [Text.dropMark?, if_neg hNe]
  rw [halfLabel?, hMark]
  rfl

theorem read_value {s : Signedness} {t : Text} {value : Int} (hRead : Immediate.read t = .ok value)
    (hFits : s.Fits value) : read s t = .ok (.value value) := by
  have hHead := Immediate.head_of_read hRead
  rw [read, halfLabel?_of_head hHead _ rfl, halfLabel?_of_head hHead _ rfl]
  exact bind_eq_ok.mpr ⟨value, hRead, bind_eq_ok.mpr ⟨(), Signedness.check_eq_ok.mpr hFits, rfl⟩⟩

theorem dropMark?_append (mark t : Text) : Text.dropMark? mark (mark ++ t) = some t := by
  induction mark with
  | nil => rfl
  | cons m mark ih => rw [List.cons_append, Text.dropMark?, if_pos rfl, ih]

theorem halfLabel?_written {name : Text} (hName : isIdentifier name = true) (mark : String) :
    halfLabel? mark (mark.toList ++ name ++ ")".toList) = some name := by
  have hClose : Text.dropLast? ')' (name ++ [')']) = some name := by simp [Text.dropLast?]
  rw [halfLabel?, List.append_assoc, dropMark?_append]
  simp [hClose, (trimmed_of_isIdentifier hName).trim_eq, hName]

theorem read_high {name : Text} (hName : isIdentifier name = true) (s : Signedness) :
    read s ("%hi(".toList ++ name ++ ")".toList) = .ok (.high name) := by
  rw [read, halfLabel?_written hName]

theorem read_low {name : Text} (hName : isIdentifier name = true) (s : Signedness) :
    read s ("%lo(".toList ++ name ++ ")".toList) = .ok (.low name) := by
  have hOther : halfLabel? "%hi(" ("%lo(".toList ++ name ++ ")".toList) = none := rfl
  rw [read, hOther, halfLabel?_written hName]

end Imm

end MipsAsm
