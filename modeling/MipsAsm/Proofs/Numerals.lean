import Mathlib.Algebra.Ring.Nat
import MipsAsm.Proofs.Blanks
import MipsAsm.Source.Operand

/-!
Reading and writing numerals. The value of a numeral is given by its digits alone; reading succeeds
exactly where that value is within the limit, and written numerals are read back. What a text of digits
denotes is also said without the reader, digit by digit.
-/

set_option autoImplicit false

namespace MipsAsm

namespace Numeral

/-- The value of the digits of `t` behind a numeral of value `value`. -/
def valueFrom (radix value : Nat) (t : Text) : Nat :=
  t.foldl (fun value c => radix * value + (digit? radix c).getD 0) value

def AllDigits (radix : Nat) (t : Text) : Prop := ∀ c ∈ t, (digit? radix c).isSome

theorem valueFrom_append (radix value : Nat) (front back : Text) :
    valueFrom radix value (front ++ back) = valueFrom radix (valueFrom radix value front) back :=
  List.foldl_append

theorem le_valueFrom {radix : Nat} (hRadix : 0 < radix) (value : Nat) (t : Text) :
    value ≤ valueFrom radix value t := by
  induction t generalizing value with
  | nil => exact Nat.le_refl _
  | cons c rest ih =>
    have hNext : value ≤ radix * value + (digit? radix c).getD 0 :=
      Nat.le_trans (Nat.le_mul_of_pos_left _ hRadix) (Nat.le_add_right _ _)
    exact Nat.le_trans hNext (ih _)

/-- Reading on from a value within the limit: all characters are digits and the whole value is within the
limit too. Later digits never make a value smaller, so the test at each digit loses nothing. -/
theorem extend_eq_ok_iff {radix : Nat} (hRadix : 0 < radix) {limit value n : Nat}
    (hValue : value ≤ limit) (t : Text) :
    extend radix limit value t = .ok n ↔
      AllDigits radix t ∧ valueFrom radix value t = n ∧ n ≤ limit := by
  induction t generalizing value with
  | nil =>
    constructor
    · rintro ⟨⟩
      exact ⟨fun c hc => absurd hc List.not_mem_nil, rfl, hValue⟩
    · rintro ⟨_, hEq, _⟩
      exact congrArg Except.ok hEq
  | cons c rest ih =>
    rw [extend]
    cases hDigit : digit? radix c with
    | none =>
      constructor
      · intro h
        cases h
      · rintro ⟨hAll, -⟩
        have hSome := hAll c List.mem_cons_self
        rw [hDigit] at hSome
        cases hSome
    | some d =>
      have hStep : valueFrom radix value (c :: rest) = valueFrom radix (radix * value + d) rest := by
        simp [valueFrom, hDigit]
      have hAll : AllDigits radix (c :: rest) ↔ AllDigits radix rest := by
        simp [AllDigits, hDigit]
      simp only [hStep, hAll]
      split
      · rename_i hLarge
        constructor
        · intro h
          cases h
        · rintro ⟨-, hEq, hLimit⟩
          have hGrows := le_valueFrom hRadix (radix * value + d) rest
          omega
      · rename_i hSmall
        exact ih (by omega)

theorem readDigits_eq_ok_iff {radix : Nat} (hRadix : 0 < radix) {limit n : Nat} (t : Text) :
    readDigits radix limit t = .ok n ↔
      t ≠ [] ∧ AllDigits radix t ∧ valueFrom radix 0 t = n ∧ n ≤ limit := by
  rw [readDigits]
  cases t with
  | nil => simp
  | cons c rest => simpa using extend_eq_ok_iff hRadix (Nat.zero_le limit) (c :: rest)

theorem digit?_digitChar {radix d : Nat} (hRadix : radix ≤ 16) (hDigit : d < radix) :
    digit? radix d.digitChar = some d := by
  have hHex : ∀ e < 16, hexDigit? (Nat.digitChar e) = some e := by decide
  rw [digit?, hHex d (by omega)]
  simp [hDigit]

theorem valueFrom_toDigits {radix : Nat} (hOne : 1 < radix) (hRadix : radix ≤ 16) (n : Nat) :
    valueFrom radix 0 (Nat.toDigits radix n) = n := by
  induction n using Nat.strongRecOn with
  | ind n ih =>
    rw [Nat.toDigits_eq_if hOne]
    split
    · rename_i hSmall
      simp [valueFrom, digit?_digitChar hRadix hSmall]
    · rename_i hLarge
      have hMod : n % radix < radix := Nat.mod_lt _ (by omega)
      rw [valueFrom_append, ih (n / radix) (Nat.div_lt_self (by omega) hOne)]
      simp only [valueFrom, List.foldl_cons, List.foldl_nil, digit?_digitChar hRadix hMod,
        Option.getD_some]
      exact Nat.div_add_mod n radix

theorem allDigits_toDigits {radix : Nat} (hOne : 1 < radix) (hRadix : radix ≤ 16) (n : Nat) :
    AllDigits radix (Nat.toDigits radix n) := by
  induction n using Nat.strongRecOn with
  | ind n ih =>
    rw [Nat.toDigits_eq_if hOne]
    split
    · rename_i hSmall
      intro c hc
      rw [List.mem_singleton.mp hc, digit?_digitChar hRadix hSmall]
      rfl
    · rename_i hLarge
      have hMod : n % radix < radix := Nat.mod_lt _ (by omega)
      intro c hc
      rcases List.mem_append.mp hc with hFront | hLast
      · exact ih (n / radix) (Nat.div_lt_self (by omega) hOne) c hFront
      · rw [List.mem_singleton.mp hLast, digit?_digitChar hRadix hMod]
        rfl

theorem valueFrom_replicate_zero (count : Nat) : valueFrom 16 0 (List.replicate count '0') = 0 := by
  induction count with
  | zero => rfl
  | succ count ih => rwa [List.replicate_succ]

theorem valueFrom_hex (width n : Nat) : valueFrom 16 0 (hex width n) = n := by
  rw [hex, List.leftpad, valueFrom_append, valueFrom_replicate_zero]
  exact valueFrom_toDigits (by decide) (by decide) n

theorem allDigits_hex (width n : Nat) : AllDigits 16 (hex width n) := by
  intro c hc
  rcases List.mem_append.mp hc with hPad | hDigit
  · rw [List.eq_of_mem_replicate hPad]
    rfl
  · exact allDigits_toDigits (by decide) (by decide) n c hDigit

theorem hex_ne_nil (width n : Nat) : hex width n ≠ [] :=
  List.append_ne_nil_of_right_ne_nil _ Nat.toDigits_ne_nil

theorem readDigits_hex {limit n : Nat} (width : Nat) (hLimit : n ≤ limit) :
    readDigits 16 limit (hex width n) = .ok n :=
  (readDigits_eq_ok_iff (by decide) _).mpr
    ⟨hex_ne_nil width n, allDigits_hex width n, valueFrom_hex width n, hLimit⟩

theorem readDigits_decimal {limit n : Nat} (hLimit : n ≤ limit) :
    readDigits 10 limit (decimal n) = .ok n :=
  (readDigits_eq_ok_iff (by decide) _).mpr
    ⟨Nat.toDigits_ne_nil, allDigits_toDigits (by decide) (by decide) n,
      valueFrom_toDigits (by decide) (by decide) n, hLimit⟩

theorem decimal_inj {m n : Nat} (h : decimal m = decimal n) : m = n := by
  have hValue := congrArg (valueFrom 10 0) h
  rwa [decimal, decimal, valueFrom_toDigits (by decide) (by decide),
    valueFrom_toDigits (by decide) (by decide)] at hValue

/-- The character is the digit `d` of the radix, in either case. -/
def IsDigit (radix : Nat) (c : Char) (d : Nat) : Prop :=
  d < radix ∧ (c = d.digitChar ∨ c = d.digitChar.toUpper)

/-- A character of a range is found by counting from the first one. -/
theorem exists_offset {first last c : Char} (hRange : first ≤ c ∧ c ≤ last) :
    ∃ e < last.toNat - first.toNat + 1, c.toNat - first.toNat = e ∧ c = Char.ofNat (first.toNat + e) := by
  have hFirst : first.toNat ≤ c.toNat := hRange.1
  have hLast : c.toNat ≤ last.toNat := hRange.2
  refine ⟨c.toNat - first.toNat, by omega, rfl, ?_⟩
  rw [Nat.add_sub_cancel' hFirst, Char.ofNat_toNat]

theorem isDigit_of_hexDigit? {c : Char} {d : Nat} (h : hexDigit? c = some d) : IsDigit 16 c d := by
  have hDecimal : ∀ e < 10, IsDigit 16 (Char.ofNat ('0'.toNat + e)) e := by
    unfold IsDigit
    decide
  have hLetter : ∀ e < 6, IsDigit 16 (Char.ofNat ('a'.toNat + e)) (e + 10) ∧
      IsDigit 16 (Char.ofNat ('A'.toNat + e)) (e + 10) := by
    unfold IsDigit
    decide
  rw [hexDigit?] at h
  split at h
  · rename_i hRange
    obtain ⟨e, hLt, hValue, hChar⟩ := exists_offset hRange
    rw [← Option.some.inj h, hValue, hChar]
    exact hDecimal e hLt
  split at h
  · rename_i hRange
    obtain ⟨e, hLt, hValue, hChar⟩ := exists_offset hRange
    rw [← Option.some.inj h, hValue, hChar]
    exact (hLetter e hLt).1
  split at h
  · rename_i hRange
    obtain ⟨e, hLt, hValue, hChar⟩ := exists_offset hRange
    rw [← Option.some.inj h, hValue, hChar]
    exact (hLetter e hLt).2
  · cases h

theorem IsDigit.hexDigit?_eq {radix : Nat} (hRadix : radix ≤ 16) {c : Char} {d : Nat} (h : IsDigit radix c d) :
    hexDigit? c = some d := by
  have hTable : ∀ e < 16, hexDigit? e.digitChar = some e ∧ hexDigit? e.digitChar.toUpper = some e := by decide
  obtain ⟨hLt, rfl | rfl⟩ := h
  · exact (hTable d (by omega)).1
  · exact (hTable d (by omega)).2

theorem digit?_eq_some_iff {radix : Nat} (hRadix : radix ≤ 16) {c : Char} {d : Nat} :
    digit? radix c = some d ↔ IsDigit radix c d := by
  rw [digit?, Option.filter_eq_some_iff, decide_eq_true_eq]
  constructor
  · rintro ⟨hHex, hLt⟩
    exact ⟨hLt, (isDigit_of_hexDigit? hHex).2⟩
  · intro h
    exact ⟨h.hexDigit?_eq hRadix, h.1⟩

theorem digit?_sixteen (c : Char) : digit? 16 c = hexDigit? c := by
  rw [digit?]
  cases hDigit : hexDigit? c with
  | none => rfl
  | some d => rw [Option.filter_some, decide_eq_true (isDigit_of_hexDigit? hDigit).1, if_pos rfl]

/-- One or more digits, the most significant first, and the number that they stand for. -/
inductive Denotes (radix : Nat) : Text → Nat → Prop
  | digit {c : Char} {d : Nat} (hDigit : IsDigit radix c d) : Denotes radix [c] d
  | append {t : Text} {n : Nat} {c : Char} {d : Nat} (hFront : Denotes radix t n)
      (hDigit : IsDigit radix c d) : Denotes radix (t ++ [c]) (radix * n + d)

theorem valueFrom_concat (radix value : Nat) (t : Text) (c : Char) :
    valueFrom radix value (t ++ [c]) = radix * valueFrom radix value t + (digit? radix c).getD 0 :=
  valueFrom_append radix value t [c]

theorem denotes_iff {radix : Nat} (hRadix : radix ≤ 16) {t : Text} {n : Nat} :
    Denotes radix t n ↔ t ≠ [] ∧ AllDigits radix t ∧ valueFrom radix 0 t = n := by
  constructor
  · intro h
    induction h with
    | @digit c d hDigit =>
      have hRead := (digit?_eq_some_iff hRadix).mpr hDigit
      refine ⟨List.cons_ne_nil _ _, List.forall_mem_singleton.mpr (by rw [hRead]; rfl), ?_⟩
      simp [valueFrom, hRead]
    | @append t n c d _ hDigit ih =>
      obtain ⟨-, hAll, rfl⟩ := ih
      have hRead := (digit?_eq_some_iff hRadix).mpr hDigit
      refine ⟨List.append_ne_nil_of_right_ne_nil _ (List.cons_ne_nil _ _), ?_, ?_⟩
      · exact List.forall_mem_append.mpr ⟨hAll, List.forall_mem_singleton.mpr (by rw [hRead]; rfl)⟩
      · rw [valueFrom_concat, hRead]
        rfl
  · rintro ⟨hNe, hAll, rfl⟩
    -- The last digit is split off, as in the second rule.
    induction t using List.reverseRecOn with
    | nil => exact absurd rfl hNe
    | append_singleton front c ih =>
      obtain ⟨hFront, hLast⟩ := List.forall_mem_append.mp hAll
      obtain ⟨d, hRead⟩ := Option.isSome_iff_exists.mp (hLast c List.mem_cons_self)
      have hDigit := (digit?_eq_some_iff hRadix).mp hRead
      rw [valueFrom_concat, hRead]
      cases front with
      | nil => simpa [valueFrom] using Denotes.digit hDigit
      | cons first rest => exact .append (ih (List.cons_ne_nil _ _) hFront) hDigit

theorem readDigits_eq_ok_iff_denotes {radix : Nat} (hPos : 0 < radix) (hRadix : radix ≤ 16) {limit n : Nat}
    {t : Text} : readDigits radix limit t = .ok n ↔ Denotes radix t n ∧ n ≤ limit := by
  rw [readDigits_eq_ok_iff hPos, denotes_iff hRadix, and_assoc, and_assoc]

/-- Digits behind at most one plus sign. -/
inductive PlusDenotes (radix : Nat) : Text → Nat → Prop
  | bare {t : Text} {n : Nat} (hDigits : Denotes radix t n) : PlusDenotes radix t n
  | plus {t : Text} {n : Nat} (hDigits : Denotes radix t n) : PlusDenotes radix ('+' :: t) n

theorem not_denotes_plus {radix : Nat} (hRadix : radix ≤ 16) (t : Text) (n : Nat) :
    ¬Denotes radix ('+' :: t) n := by
  intro h
  have hPlus : (hexDigit? '+').isSome := by
    obtain ⟨d, hDigit⟩ := Option.isSome_iff_exists.mp (((denotes_iff hRadix).mp h).2.1 '+' List.mem_cons_self)
    rw [((digit?_eq_some_iff hRadix).mp hDigit).hexDigit?_eq hRadix]
    rfl
  cases hPlus

theorem readNat_eq_ok_iff {radix : Nat} (hPos : 0 < radix) (hRadix : radix ≤ 16) {limit n : Nat} {t : Text} :
    readNat radix limit t = .ok n ↔ PlusDenotes radix t n ∧ n ≤ limit := by
  constructor
  · intro h
    unfold readNat at h
    split at h
    · cases h
    · obtain ⟨hDigits, hLimit⟩ := (readDigits_eq_ok_iff_denotes hPos hRadix).mp h
      exact ⟨.plus hDigits, hLimit⟩
    · obtain ⟨hDigits, hLimit⟩ := (readDigits_eq_ok_iff_denotes hPos hRadix).mp h
      exact ⟨.bare hDigits, hLimit⟩
  · rintro ⟨h, hLimit⟩
    have hRead {digits : Text} (hDigits : Denotes radix digits n) : readDigits radix limit digits = .ok n :=
      (readDigits_eq_ok_iff_denotes hPos hRadix).mpr ⟨hDigits, hLimit⟩
    cases h with
    | bare hDigits =>
      unfold readNat
      split
      · exact absurd hDigits (not_denotes_plus hRadix _ n)
      · exact absurd hDigits (not_denotes_plus hRadix _ n)
      · exact hRead hDigits
    | @plus digits _ hDigits =>
      cases digits with
      | nil => exact absurd rfl ((denotes_iff hRadix).mp hDigits).1
      | cons c rest => exact hRead hDigits

theorem Denotes.allDigits {radix : Nat} (hRadix : radix ≤ 16) {t : Text} {n : Nat} (h : Denotes radix t n) :
    AllDigits radix t :=
  ((denotes_iff hRadix).mp h).2.1

theorem Denotes.lt {radix : Nat} {t : Text} {n : Nat} (h : Denotes radix t n) : n < radix ^ t.length := by
  induction h with
  | digit hDigit => simpa using hDigit.1
  | @append t n c d _ hDigit ih =>
    have hDigit : d < radix := hDigit.1
    calc radix * n + d < radix * (n + 1) := by rw [Nat.mul_add]; omega
      _ ≤ radix * radix ^ t.length := Nat.mul_le_mul_left radix ih
      _ = radix ^ (t ++ [c]).length := by rw [List.length_append, List.length_singleton, Nat.pow_succ']

/-- The two ways to write the mark of hexadecimal digits. -/
def hexMarks : List Text := ["0x".toList, "0X".toList]

theorem dropHexMark?_eq_some_iff {t digits : Text} :
    dropHexMark? t = some digits ↔ ∃ mark ∈ hexMarks, t = mark ++ digits := by
  constructor
  · intro h
    unfold dropHexMark? at h
    split at h
    · cases h
      exact ⟨"0x".toList, by decide, rfl⟩
    · cases h
      exact ⟨"0X".toList, by decide, rfl⟩
    · cases h
  · rintro ⟨mark, hMark, rfl⟩
    simp only [hexMarks, List.mem_cons, List.not_mem_nil, or_false] at hMark
    rcases hMark with rfl | rfl
    · rfl
    · rfl

end Numeral

end MipsAsm
