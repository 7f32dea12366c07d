import MipsAsm.Proofs.Operands
import MipsAsm.Proofs.Tokens

/-!
The grammar of immediates: at most one sign, and a magnitude in decimal or behind the hexadecimal mark.
An operand is read exactly if it is an immediate of the grammar, with white space around it, whose
magnitude fits; it is then read as the number that it stands for.
-/

set_option autoImplicit false

namespace MipsAsm.Immediate

open InstrText (Padded exists_padded_iff)
open Numeral Text

/-- Decimal digits, or hexadecimal digits behind a mark, and their value. -/
inductive Unsigned : Text → Nat → Prop
  | decimal {t : Text} {n : Nat} (hDigits : Denotes 10 t n) : Unsigned t n
  | hex {mark t : Text} {n : Nat} (hMark : mark ∈ hexMarks) (hDigits : Denotes 16 t n) : Unsigned (mark ++ t) n

/-- An immediate without the white space around it, and its value. -/
inductive Spells : Text → Int → Prop
  | bare {t : Text} {n : Nat} (h : Unsigned t n) : Spells t n
  | plus {t : Text} {n : Nat} (h : Unsigned t n) : Spells ('+' :: t) n
  | minus {t : Text} {n : Nat} (h : Unsigned t n) : Spells ('-' :: t) (-n)

theorem Unsigned.isAlphanum {t : Text} {n : Nat} (h : Unsigned t n) : ∀ c ∈ t, c.isAlphanum = true := by
  cases h with
  | decimal hDigits => exact hDigits.isAlphanum (by decide)
  | hex hMark hDigits =>
    exact List.forall_mem_append.mpr ⟨isAlphanum_of_mem_hexMarks hMark, hDigits.isAlphanum (by decide)⟩

/-- What follows the mark of a hexadecimal magnitude is never read as decimal, nor the other way around. -/
theorem magnitude_eq_ok_iff {t : Text} {n : Nat} : magnitude t = .ok n ↔ Unsigned t n ∧ n ≤ limit := by
  constructor
  · intro h
    unfold magnitude at h
    split at h
    · rename_i digits hDrop
      obtain ⟨mark, hMark, rfl⟩ := dropHexMark?_eq_some_iff.mp hDrop
      obtain ⟨hDigits, hLimit⟩ := (readDigits_eq_ok_iff_denotes (by decide) (by decide)).mp h
      exact ⟨.hex hMark hDigits, hLimit⟩
    · obtain ⟨hDigits, hLimit⟩ := (readDigits_eq_ok_iff_denotes (by decide) (by decide)).mp h
      exact ⟨.decimal hDigits, hLimit⟩
  · rintro ⟨h, hLimit⟩
    cases h with
    | decimal hDigits =>
      rw [magnitude, (hDigits.allDigits (by decide)).dropHexMark?_eq]
      exact (readDigits_eq_ok_iff_denotes (by decide) (by decide)).mpr ⟨hDigits, hLimit⟩
    | hex hMark hDigits =>
      rw [magnitude, dropHexMark?_eq_some_iff.mpr ⟨_, hMark, rfl⟩]
      exact (readDigits_eq_ok_iff_denotes (by decide) (by decide)).mpr ⟨hDigits, hLimit⟩

/-- A magnitude starts with no sign of its own. -/
theorem Unsigned.splitSign_eq {t : Text} {n : Nat} (h : Unsigned t n) : splitSign t = (false, t) := by
  unfold splitSign
  split
  · exact absurd (h.isAlphanum '-' List.mem_cons_self) (by decide)
  · exact absurd (h.isAlphanum '+' List.mem_cons_self) (by decide)
  · rfl

theorem spells_of_splitSign {t : Text} {n : Nat} (h : Unsigned (splitSign t).2 n) :
    Spells t (if (splitSign t).1 then -(n : Int) else n) := by
  revert h
  unfold splitSign
  split
  · exact .minus
  · exact .plus
  · exact .bare

theorem Spells.exists_splitSign {t : Text} {v : Int} (h : Spells t v) :
    ∃ negative digits n, splitSign t = (negative, digits) ∧ Unsigned digits n ∧
      v = if negative then -(n : Int) else n := by
  cases h with
  | bare hUnsigned => exact ⟨false, t, _, hUnsigned.splitSign_eq, hUnsigned, rfl⟩
  | plus hUnsigned => exact ⟨false, _, _, rfl, hUnsigned, rfl⟩
  | minus hUnsigned => exact ⟨true, _, _, rfl, hUnsigned, rfl⟩

theorem natAbs_signed (negative : Bool) (n : Nat) : (if negative then -(n : Int) else n).natAbs = n := by
  cases negative with
  | false => exact Int.natAbs_natCast n
  | true => exact (Int.natAbs_neg n).trans (Int.natAbs_natCast n)

theorem read_eq_ok_iff_spells {t : Text} {v : Int} :
    read t = .ok v ↔ Spells (trim t) v ∧ v.natAbs ≤ limit := by
  constructor
  · intro h
    dsimp only [read] at h
    split at h
    · rename_i n hMagnitude
      obtain ⟨hUnsigned, hLimit⟩ := magnitude_eq_ok_iff.mp hMagnitude
      cases h
      exact ⟨spells_of_splitSign hUnsigned, by rwa [natAbs_signed]⟩
    · cases h
  · rintro ⟨h, hLimit⟩
    obtain ⟨negative, digits, n, hSplit, hUnsigned, rfl⟩ := h.exists_splitSign
    rw [natAbs_signed] at hLimit
    exact read_of_magnitude hSplit (magnitude_eq_ok_iff.mpr ⟨hUnsigned, hLimit⟩)

theorem read_eq_error {t : Text} {fault : Fault} (h : read t = .error fault) :
    fault = .malformed (.immediate t) := by
  dsimp only [read] at h
  split at h
  · cases h
  · cases h
    rfl

theorem Spells.trimmed {t : Text} {v : Int} (h : Spells t v) : Trimmed t := by
  have hUnsigned {t : Text} {n : Nat} (h : Unsigned t n) : ∀ c ∈ t, isBlank c = false :=
    fun c hc => isBlank_of_isAlphanum (h.isAlphanum c hc)
  apply trimmed_of_forall
  cases h with
  | bare h => exact hUnsigned h
  | plus h => exact List.forall_mem_cons.mpr ⟨rfl, hUnsigned h⟩
  | minus h => exact List.forall_mem_cons.mpr ⟨rfl, hUnsigned h⟩

/-- Of all texts, the immediates whose magnitude fits are read, with their values, and no others. So the
written form of a number that fits is read as that number. -/
theorem immediates_are_read_exactly :
    (∀ (t : Text) (v : Int),
      read t = .ok v ↔ (∃ body, Padded body t ∧ Spells body v) ∧ v.natAbs ≤ 2 ^ 63 - 1) ∧
    (∀ (t : Text) (fault : Fault),
      read t = .error fault ↔ fault = .malformed (.immediate t) ∧
        ¬∃ v : Int, (∃ body, Padded body t ∧ Spells body v) ∧ v.natAbs ≤ 2 ^ 63 - 1) ∧
    (∀ v : Int, v.natAbs ≤ 2 ^ 63 - 1 → read (integer v) = .ok v) ∧
    ∀ n : Nat, n ≤ 2 ^ 63 - 1 → ∀ width, read (markedHex width n) = .ok (n : Int) := by
  have hRead (t : Text) (v : Int) :
      read t = .ok v ↔ (∃ body, Padded body t ∧ Spells body v) ∧ v.natAbs ≤ 2 ^ 63 - 1 := by
    rw [read_eq_ok_iff_spells, exists_padded_iff fun body => Spells.trimmed]
    rfl
  refine ⟨hRead, fun t fault => ⟨fun h => ⟨read_eq_error h, ?_⟩, ?_⟩, fun v => read_integer, ?_⟩
  · rintro ⟨v, hSpelled⟩
    rw [(hRead t v).mpr hSpelled] at h
    cases h
  · rintro ⟨rfl, hNone⟩
    cases h : read t with
    | ok v => exact absurd ⟨v, (hRead t v).mp h⟩ hNone
    | error fault => rw [read_eq_error h]
  · exact fun n hLimit width => read_markedHex width hLimit

theorem immediates_are_read_exactly_extremes :
    let least : Int := -0x7FFFFFFFFFFFFFFF
    least.natAbs ≤ 2 ^ 63 - 1 ∧ read (integer least) = .ok least ∧
      read (markedHex 20 least.natAbs) = .ok (-least) ∧
      ¬∃ v : Int, (∃ body, Padded body "+-5".toList ∧ Spells body v) ∧ v.natAbs ≤ 2 ^ 63 - 1 := by
  have hLeast : (-0x7FFFFFFFFFFFFFFF : Int).natAbs ≤ 2 ^ 63 - 1 := by decide
  obtain ⟨-, hFails, hDecimal, hHex⟩ := immediates_are_read_exactly
  exact ⟨hLeast, hDecimal _ hLeast, hHex _ hLeast 20, ((hFails "+-5".toList _).mp rfl).2⟩

end MipsAsm.Immediate
