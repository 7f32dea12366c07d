import Mathlib.Algebra.Ring.Nat
import MipsAsm.Proofs.Outcome
import MipsAsm.Word.Field

/-!
Bit fields, bit by bit. Writing a field changes the bits that it covers and no others, so a field reads
what was last written to it; packing succeeds exactly where every value fits.
-/

set_option autoImplicit false

namespace MipsAsm.Field

open Outcome

/-- Bit `i` of a word belongs to the field. -/
def Covers (f : Field) (i : Nat) : Prop := f.lsb ≤ i ∧ i < f.lsb + f.width

instance (f : Field) (i : Nat) : Decidable (f.Covers i) := inferInstanceAs (Decidable (_ ∧ _))

/-- The fields have no bit in common. -/
def Disjoint (f g : Field) : Prop := f.lsb + f.width ≤ g.lsb ∨ g.lsb + g.width ≤ f.lsb

instance (f g : Field) : Decidable (f.Disjoint g) := inferInstanceAs (Decidable (_ ∨ _))

theorem getLsbD_max (f : Field) (i : Nat) :
    (BitVec.ofNat 32 f.max).getLsbD i = decide (i < min f.width 32) := by
  rw [BitVec.getLsbD_ofNat, max, Nat.one_shiftLeft, Nat.testBit_two_pow_sub_one]
  by_cases hWord : i < 32
  · simp [hWord]
  · have hOut : ¬i < min f.width 32 := by omega
    simp [hWord, hOut]

theorem getLsbD_mask (f : Field) (i : Nat) :
    f.mask.getLsbD i = (decide (i < 32) && decide (f.Covers i)) := by
  rw [mask, BitVec.getLsbD_shiftLeft, getLsbD_max]
  by_cases hWord : i < 32
  · by_cases hLow : i < f.lsb
    · have hOut : ¬f.Covers i := fun h => by have := h.1; omega
      simp [hLow, hOut]
    · have hIff : i - f.lsb < min f.width 32 ↔ f.Covers i := by
        unfold Covers
        omega
      simp [hWord, hLow, hIff]
  · simp [hWord]

theorem getLsbD_read (f : Field) (w : Word) (i : Nat) :
    (f.read w).getLsbD i = (decide (i < f.width) && w.getLsbD (f.lsb + i)) := by
  rw [read, BitVec.getLsbD_and, BitVec.getLsbD_ushiftRight, getLsbD_max]
  by_cases hWord : i < 32
  · have hMin : i < min f.width 32 ↔ i < f.width := by omega
    rw [decide_eq_decide.mpr hMin, Bool.and_comm]
  · have hZero : w.getLsbD (f.lsb + i) = false := BitVec.getLsbD_of_ge w _ (by omega)
    simp [hZero]

theorem toNat_read {f : Field} (hWidth : f.width ≤ 32) (w : Word) :
    (f.read w).toNat = w.toNat / 2 ^ f.lsb % 2 ^ f.width := by
  have hMax : (BitVec.ofNat 32 f.max).toNat = 2 ^ f.width - 1 := by
    have hPower : 2 ^ f.width ≤ 2 ^ 32 := Nat.pow_le_pow_right (by decide) hWidth
    rw [max, Nat.one_shiftLeft, Nat.min_eq_left hWidth, BitVec.toNat_ofNat]
    omega
  rw [read, BitVec.toNat_and, hMax, Nat.and_two_pow_sub_one_eq_mod, BitVec.toNat_ushiftRight,
    Nat.shiftRight_eq_div_pow]

theorem toNat_read_lt {f : Field} (hWidth : f.width ≤ 32) (w : Word) : (f.read w).toNat < 2 ^ f.width := by
  rw [toNat_read hWidth]
  exact Nat.mod_lt _ (Nat.two_pow_pos _)

theorem toNat_read_low {f : Field} (hLow : f.lsb = 0) (hWidth : f.width ≤ 32) (w : Word) :
    (f.read w).toNat = (w.setWidth f.width).toNat := by
  rw [toNat_read hWidth, hLow, Nat.pow_zero, Nat.div_one, BitVec.toNat_setWidth]

theorem getLsbD_write (f : Field) (w value : Word) {i : Nat} (hWord : i < 32) :
    (f.write w value).getLsbD i = if f.Covers i then value.getLsbD (i - f.lsb) else w.getLsbD i := by
  rw [write, BitVec.getLsbD_or, BitVec.getLsbD_and, BitVec.getLsbD_not, BitVec.getLsbD_and,
    BitVec.getLsbD_shiftLeft, getLsbD_mask]
  by_cases hCovers : f.Covers i
  · have hLow : ¬i < f.lsb := Nat.not_lt.mpr hCovers.1
    simp [hWord, hCovers, hLow]
  · simp [hWord, hCovers]

theorem max_lt {f : Field} (hIn : f.InWord) : f.max < 2 ^ f.width := by
  obtain ⟨hPos, hEnd⟩ := hIn
  rw [max, Nat.one_shiftLeft, Nat.min_eq_left (by omega)]
  exact Nat.sub_lt (Nat.two_pow_pos _) (by decide)

theorem read_write_self {f : Field} (hIn : f.InWord) (w : Word) {value : Word}
    (hFits : value.toNat ≤ f.max) : f.read (f.write w value) = value := by
  have hLarge : value.toNat < 2 ^ f.width := Nat.lt_of_le_of_lt hFits (max_lt hIn)
  obtain ⟨hPos, hEnd⟩ := hIn
  apply BitVec.eq_of_getLsbD_eq
  intro i hi
  rw [getLsbD_read]
  by_cases hWidth : i < f.width
  · have hCovers : f.Covers (f.lsb + i) := ⟨by omega, by omega⟩
    rw [getLsbD_write f w value (by omega), if_pos hCovers]
    simp [hWidth]
  · have hZero : value.getLsbD i = false :=
      Nat.testBit_lt_two_pow (Nat.lt_of_lt_of_le hLarge (Nat.pow_le_pow_right (by decide) (by omega)))
    simp [hWidth, hZero]

theorem read_write_of_disjoint {f g : Field} (hDisjoint : f.Disjoint g) (hIn : f.InWord)
    (w value : Word) : f.read (g.write w value) = f.read w := by
  obtain ⟨hPos, hEnd⟩ := hIn
  apply BitVec.eq_of_getLsbD_eq
  intro i hi
  rw [getLsbD_read, getLsbD_read]
  by_cases hWidth : i < f.width
  · have hOut : ¬g.Covers (f.lsb + i) := by
      rintro ⟨hLow, hHigh⟩
      unfold Disjoint at hDisjoint
      omega
    rw [getLsbD_write g w value (by omega), if_neg hOut]
  · simp [hWidth]

/-- The word after all parts are written, the first one first. -/
def writeAll (w : Word) (parts : List (Field × Word)) : Word :=
  parts.foldl (fun w part => part.1.write w part.2) w

theorem getLsbD_writeAll_read (layout : List Field) (start w : Word) {i : Nat} (hWord : i < 32) :
    (writeAll start (layout.map fun f => (f, f.read w))).getLsbD i =
      if ∃ f ∈ layout, f.Covers i then w.getLsbD i else start.getLsbD i := by
  induction layout generalizing start with
  | nil => simp [writeAll]
  | cons f rest ih =>
    rw [List.map_cons, writeAll, List.foldl_cons, ← writeAll, ih, getLsbD_write f start _ hWord]
    by_cases hRest : ∃ g ∈ rest, g.Covers i
    · have hAny : ∃ g ∈ f :: rest, g.Covers i := by
        obtain ⟨g, hMem, hCovers⟩ := hRest
        exact ⟨g, List.mem_cons_of_mem _ hMem, hCovers⟩
      rw [if_pos hRest, if_pos hAny]
    · rw [if_neg hRest]
      by_cases hFirst : f.Covers i
      · have hInside : i - f.lsb < f.width ∧ f.lsb + (i - f.lsb) = i := by
          obtain ⟨hLow, hHigh⟩ := hFirst
          omega
        rw [if_pos hFirst, if_pos ⟨f, List.mem_cons_self, hFirst⟩, getLsbD_read, hInside.2]
        simp [hInside.1]
      · have hNone : ¬∃ g ∈ f :: rest, g.Covers i := by
          rintro ⟨g, hMem, hCovers⟩
          rcases List.mem_cons.mp hMem with rfl | hMem
          · exact hFirst hCovers
          · exact hRest ⟨g, hMem, hCovers⟩
        rw [if_neg hFirst, if_neg hNone]

/-- A word is put together again from fields that cover all its bits. -/
theorem writeAll_read {layout : List Field} (hCover : ∀ i < 32, ∃ f ∈ layout, f.Covers i)
    (start w : Word) : writeAll start (layout.map fun f => (f, f.read w)) = w := by
  apply BitVec.eq_of_getLsbD_eq
  intro i hWord
  rw [getLsbD_writeAll_read layout start w hWord, if_pos (hCover i hWord)]

theorem read_writeAll_of_disjoint {f : Field} (hIn : f.InWord) {parts : List (Field × Word)}
    (hDisjoint : ∀ part ∈ parts, f.Disjoint part.1) (w : Word) :
    f.read (writeAll w parts) = f.read w := by
  induction parts generalizing w with
  | nil => rfl
  | cons part rest ih =>
    rw [writeAll, List.foldl_cons, ← writeAll, ih fun p hp => hDisjoint p (List.mem_cons_of_mem _ hp)]
    exact read_write_of_disjoint (hDisjoint part List.mem_cons_self) hIn w part.2

/-- Fields without common bits keep what is written to them. -/
theorem read_writeAll {parts : List (Field × Word)} (hIn : ∀ part ∈ parts, part.1.InWord)
    (hFits : ∀ part ∈ parts, part.2.toNat ≤ part.1.max)
    (hDisjoint : parts.Pairwise fun p q => p.1.Disjoint q.1) (w : Word) :
    ∀ part ∈ parts, part.1.read (writeAll w parts) = part.2 := by
  induction parts generalizing w with
  | nil => exact fun part hPart => absurd hPart List.not_mem_nil
  | cons first rest ih =>
    obtain ⟨hFirst, hRest⟩ := List.pairwise_cons.mp hDisjoint
    intro part hPart
    rw [writeAll, List.foldl_cons, ← writeAll]
    rcases List.mem_cons.mp hPart with rfl | hPart
    · rw [read_writeAll_of_disjoint (hIn part List.mem_cons_self) hFirst]
      exact read_write_self (hIn part List.mem_cons_self) w (hFits part List.mem_cons_self)
    · exact ih (fun p hp => hIn p (List.mem_cons_of_mem _ hp))
        (fun p hp => hFits p (List.mem_cons_of_mem _ hp)) hRest _ part hPart

theorem place_eq_ok_iff {w w' : Word} {part : Field × Word} (hIn : part.1.InWord) :
    place w part = .ok w' ↔ part.2.toNat ≤ part.1.max ∧ part.1.write w part.2 = w' := by
  rw [place]
  split
  · rename_i hLarge
    have hNot : ¬part.2.toNat ≤ part.1.max := Nat.not_le.mpr hLarge
    simp [hNot]
  · rename_i hSmall
    simp [Nat.not_lt.mp hSmall]

theorem pack_eq_ok_iff {parts : List (Field × Word)} (hIn : ∀ part ∈ parts, part.1.InWord) {w : Word} :
    pack parts = .ok w ↔ (∀ part ∈ parts, part.2.toNat ≤ part.1.max) ∧ writeAll 0 parts = w := by
  unfold pack
  generalize (0 : Word) = start
  induction parts generalizing start with
  | nil => simp [writeAll]
  | cons part rest ih =>
    have hRest := ih (fun p hp => hIn p (List.mem_cons_of_mem _ hp))
    rw [List.foldlM_cons, bind_eq_ok]
    constructor
    · rintro ⟨next, hPlace, hRun⟩
      obtain ⟨hFits, rfl⟩ := (place_eq_ok_iff (hIn part List.mem_cons_self)).mp hPlace
      obtain ⟨hAll, hWord⟩ := (hRest _).mp hRun
      refine ⟨?_, hWord⟩
      intro p hp
      rcases List.mem_cons.mp hp with rfl | hp
      · exact hFits
      · exact hAll p hp
    · rintro ⟨hAll, hWord⟩
      refine ⟨part.1.write start part.2, ?_, ?_⟩
      · exact (place_eq_ok_iff (hIn part List.mem_cons_self)).mpr ⟨hAll part List.mem_cons_self, rfl⟩
      · exact (hRest _).mpr ⟨fun p hp => hAll p (List.mem_cons_of_mem _ hp), hWord⟩

end MipsAsm.Field
