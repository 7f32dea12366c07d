import MipsAsm.Proofs.Operands
import MipsAsm.Proofs.Tokens

/-!
Register operands. A register is written by its name, or by its number behind a dollar sign; no text is
both. The digits are weighed as a number of any size, so a number of 32 or more is no register, whatever
its last eight bits are.
-/

set_option autoImplicit false

namespace MipsAsm.Reg

open InstrText (Padded exists_padded_iff)
open Numeral Text

/-- A register operand without the white space around it, and the number of the register. -/
inductive Spells : Text → Nat → Prop
  | name {t : Text} {n : Nat} (hName : names[n]? = some t) : Spells t n
  | number {t : Text} {n : Nat} (hNumber : PlusDenotes 10 t n) (hLt : n < 32) : Spells ('$' :: t) n

theorem plain_of_mem_names {t : Text} (h : t ∈ names) : Plain t := by
  have hNames : ∀ name ∈ names, Plain name := by decide +kernel
  exact hNames t h

theorem Spells.lt {t : Text} {n : Nat} (h : Spells t n) : n < 32 := by
  cases h with
  | name hName =>
    obtain ⟨hLength, -⟩ := List.getElem?_eq_some_iff.mp hName
    exact hLength
  | number _ hLt => exact hLt

theorem exists_cons_of_plusDenotes {t : Text} {n : Nat} (h : PlusDenotes 10 t n) :
    ∃ c rest, t = c :: rest ∧ (c = '+' ∨ (digit? 10 c).isSome) := by
  cases h with
  | plus => exact ⟨'+', _, rfl, .inl rfl⟩
  | bare hDigits =>
    obtain ⟨hNe, hAll, -⟩ := (denotes_iff (by decide)).mp hDigits
    obtain ⟨c, rest, rfl⟩ := List.exists_cons_of_ne_nil hNe
    exact ⟨c, rest, rfl, .inr (hAll c List.mem_cons_self)⟩

/-- Behind the dollar sign of a name stands neither a plus sign nor a digit. -/
theorem not_mem_names {t : Text} {n : Nat} (h : PlusDenotes 10 t n) : '$' :: t ∉ names := by
  have hNames : (names.all fun name => (digit? 10 (name.getD 1 '+')).isNone && name.getD 1 '+' != '+') = true := by
    decide +kernel
  obtain ⟨c, rest, rfl, hFirst⟩ := exists_cons_of_plusDenotes h
  intro hMem
  have hLetter : ((digit? 10 c).isNone && c != '+') = true := List.all_eq_true.mp hNames _ hMem
  rw [Bool.and_eq_true] at hLetter
  rcases hFirst with rfl | hDigit
  · cases hLetter.2
  · rw [Option.isNone_iff_eq_none.mp hLetter.1] at hDigit
    cases hDigit

theorem plusDenotes_unique {t : Text} {n m : Nat} (h : PlusDenotes 10 t n) (h' : PlusDenotes 10 t m) : n = m := by
  have hRead {k : Nat} (hk : PlusDenotes 10 t k) (hLimit : k ≤ max n m) : readNat 10 (max n m) t = .ok k :=
    (readNat_eq_ok_iff (by decide) (by decide)).mpr ⟨hk, hLimit⟩
  have hEq := (hRead h (Nat.le_max_left n m)).symm.trans (hRead h' (Nat.le_max_right n m))
  exact Except.ok.inj hEq

theorem toNat_number_ofNat {n : Nat} (h : n < 32) : (BitVec.ofNat 8 n).toNat = n := by
  rw [BitVec.toNat_ofNat]
  omega

theorem ofName?_eq_some_iff {t : Text} {r : Reg} : ofName? t = some r ↔ names[r.number.toNat]? = some t := by
  constructor
  · intro h
    obtain ⟨n, hIndex, rfl⟩ := Option.map_eq_some_iff.mp h
    obtain ⟨hLength, hName, -⟩ := List.idxOf?_eq_some_iff.mp hIndex
    rw [toNat_number_ofNat hLength]
    exact List.getElem?_eq_some_iff.mpr ⟨hLength, hName⟩
  · intro h
    have hDistinct : names.Nodup := by decide +kernel
    obtain ⟨hLength, hName⟩ := List.getElem?_eq_some_iff.mp h
    refine Option.map_eq_some_iff.mpr ⟨r.number.toNat, ?_, ofNat_number r⟩
    refine List.idxOf?_eq_some_iff.mpr ⟨hLength, hName, fun j hj hEq => ?_⟩
    exact List.pairwise_iff_getElem.mp hDistinct j _ _ hLength hj (hEq.trans hName.symm)

theorem ofNumber?_eq_some_iff {t : Text} {r : Reg} :
    ofNumber? t = some r ↔
      ∃ digits, t = '$' :: digits ∧ PlusDenotes 10 digits r.number.toNat ∧ r.number.toNat < 32 := by
  constructor
  · intro h
    unfold ofNumber? at h
    split at h
    · rename_i digits
      split at h
      · rename_i n hRead
        obtain ⟨hDigits, hLimit⟩ := (readNat_eq_ok_iff (by decide) (by decide)).mp hRead
        have hLt : n < 32 := by omega
        cases h
        rw [toNat_number_ofNat hLt]
        exact ⟨digits, rfl, hDigits, hLt⟩
      · cases h
    · cases h
  · rintro ⟨digits, rfl, hDigits, hLt⟩
    have hRead : readNat 10 31 digits = .ok r.number.toNat :=
      (readNat_eq_ok_iff (by decide) (by decide)).mpr ⟨hDigits, by omega⟩
    rw [ofNumber?, hRead]
    exact congrArg some (ofNat_number r)

theorem ofText?_eq_some_iff {t : Text} {r : Reg} : ofText? t = some r ↔ Spells t r.number.toNat := by
  rw [ofText?, Option.or_eq_some_iff, ofName?_eq_some_iff, ofNumber?_eq_some_iff]
  constructor
  · rintro (hName | ⟨-, digits, rfl, hDigits, hLt⟩)
    · exact .name hName
    · exact .number hDigits hLt
  · intro h
    cases h with
    | name hName => exact .inl hName
    | @number digits _ hDigits hLt =>
      have hNone : ofName? ('$' :: digits) = none := by
        rw [Option.eq_none_iff_forall_ne_some]
        intro other hOther
        exact not_mem_names hDigits (List.mem_of_getElem? (ofName?_eq_some_iff.mp hOther))
      exact .inr ⟨hNone, digits, rfl, hDigits, hLt⟩

theorem exists_spells_iff {t : Text} : (∃ n, Spells t n) ↔ ∃ r, ofText? t = some r := by
  constructor
  · rintro ⟨n, h⟩
    refine ⟨⟨BitVec.ofNat 8 n⟩, ofText?_eq_some_iff.mpr ?_⟩
    rwa [toNat_number_ofNat h.lt]
  · rintro ⟨r, h⟩
    exact ⟨_, ofText?_eq_some_iff.mp h⟩

theorem named_eq_ok_iff {t : Text} {r : Reg} : named t = .ok r ↔ Spells (trim t) r.number.toNat := by
  rw [← ofText?_eq_some_iff]
  cases hFound : ofText? (trim t) with
  | none => simp [named, hFound]
  | some found => simp [named, hFound]

theorem named_eq_error_iff {t : Text} {fault : Fault} :
    named t = .error fault ↔ fault = .unknownRegister (trim t) ∧ ¬∃ n, Spells (trim t) n := by
  rw [exists_spells_iff]
  cases hFound : ofText? (trim t) with
  | none => simp [named, hFound, eq_comm]
  | some found => simp [named, hFound]

theorem named_lt {t : Text} {r : Reg} (h : named t = .ok r) : r.number.toNat < 32 :=
  (named_eq_ok_iff.mp h).lt

theorem trimmed_of_plusDenotes {t : Text} {n : Nat} (h : PlusDenotes 10 t n) : Trimmed ('$' :: t) := by
  have hDigits {digits : Text} (hDenotes : Denotes 10 digits n) : ∀ c ∈ digits, isBlank c = false :=
    (hDenotes.allDigits (by decide)).plain.not_blank
  refine trimmed_of_forall (List.forall_mem_cons.mpr ⟨rfl, ?_⟩)
  cases h with
  | bare hDenotes => exact hDigits hDenotes
  | plus hDenotes => exact List.forall_mem_cons.mpr ⟨rfl, hDigits hDenotes⟩

theorem Spells.trimmed {t : Text} {n : Nat} (h : Spells t n) : Trimmed t := by
  cases h with
  | name hName => exact trimmed_of_forall (plain_of_mem_names (List.mem_of_getElem? hName)).not_blank
  | number hNumber => exact trimmed_of_plusDenotes hNumber

/-- Of all texts, the names of the registers and their numbers are read, and no others. In particular a number
of 32 or more is refused, however many digits it has. -/
theorem registers_are_read_exactly :
    (∀ (t : Text) (r : Reg),
      named t = .ok r ↔ ∃ body, Padded body t ∧ Spells body r.number.toNat) ∧
    (∀ (t : Text) (fault : Fault),
      named t = .error fault ↔
        fault = .unknownRegister (trim t) ∧ ¬∃ n body, Padded body t ∧ Spells body n) ∧
    ∀ (t digits : Text) (n : Nat), Padded ('$' :: digits) t → PlusDenotes 10 digits n → 32 ≤ n →
      named t = .error (.unknownRegister ('$' :: digits)) := by
  have hPadded (t : Text) (n : Nat) : (∃ body, Padded body t ∧ Spells body n) ↔ Spells (trim t) n :=
    exists_padded_iff fun body => Spells.trimmed
  simp only [hPadded]
  refine ⟨fun t r => named_eq_ok_iff, fun t fault => named_eq_error_iff, ?_⟩
  intro t digits n hText hDigits hLarge
  rw [named_eq_error_iff, hText.trim_eq (trimmed_of_plusDenotes hDigits)]
  refine ⟨rfl, ?_⟩
  rintro ⟨m, hSpells⟩
  cases hSpells with
  | name hName => exact not_mem_names hDigits (List.mem_of_getElem? hName)
  | number hOther hLt =>
    have hEq := plusDenotes_unique hDigits hOther
    omega

theorem registers_are_read_exactly_wrapped :
    let digits := "+0264".toList
    let t := " $+0264\t".toList
    Padded ('$' :: digits) t ∧ PlusDenotes 10 digits 264 ∧ BitVec.ofNat 8 264 = 8 ∧
      named t = .error (.unknownRegister ('$' :: digits)) ∧
      ∃ body, Padded body " $+08\t".toList ∧ Spells body 8 := by
  have hText : Padded ('$' :: "+0264".toList) " $+0264\t".toList :=
    ⟨[' '], ['\t'], List.forall_mem_singleton.mpr rfl, List.forall_mem_singleton.mpr rfl, rfl⟩
  have hRead : readNat 10 999 "+0264".toList = .ok 264 := rfl
  have hDigits : PlusDenotes 10 "+0264".toList 264 := ((readNat_eq_ok_iff (by decide) (by decide)).mp hRead).1
  obtain ⟨hReads, -, hLarge⟩ := registers_are_read_exactly
  exact ⟨hText, hDigits, rfl, hLarge _ _ 264 hText hDigits (by decide), (hReads _ ⟨8⟩).mp rfl⟩

end MipsAsm.Reg
