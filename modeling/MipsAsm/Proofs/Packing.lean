import MipsAsm.Proofs.Fields

/-!
Packing, part by part. A packed word holds in each bit what the last part with that bit has there. The
first value that does not fit its field is the one that packing fails with. Fields that divide a word
among them turn it into values and back without loss.
-/

set_option autoImplicit false

namespace MipsAsm.Field

open Outcome

theorem max_eq {f : Field} (hIn : f.InWord) : f.max = 2 ^ f.width - 1 := by
  obtain ⟨-, hEnd⟩ := hIn
  rw [max, Nat.one_shiftLeft, Nat.min_eq_left (by omega)]

theorem toNat_read_le_max {f : Field} (hIn : f.InWord) (w : Word) : (f.read w).toNat ≤ f.max := by
  have hRead := toNat_read_lt (f := f) (by have := hIn.2; omega) w
  rw [max_eq hIn]
  omega

theorem place_eq_error_iff {w : Word} {part : Field × Word} (hIn : part.1.InWord) {e : FieldError} :
    place w part = .error e ↔
      2 ^ part.1.width - 1 < part.2.toNat ∧ e = .overflow part.1.name part.2 part.1.width := by
  rw [place, ← max_eq hIn]
  split
  · rename_i hLarge
    simp [hLarge, eq_comm]
  · rename_i hSmall
    simp [hSmall]

/-- Packing goes from part to part, so it fails at the first value that is too large. -/
theorem pack_eq_error_iff {parts : List (Field × Word)} (hIn : ∀ part ∈ parts, part.1.InWord)
    {e : FieldError} :
    pack parts = .error e ↔ ∃ front part back, parts = front ++ part :: back ∧
      (∀ p ∈ front, p.2.toNat ≤ 2 ^ p.1.width - 1) ∧ 2 ^ part.1.width - 1 < part.2.toNat ∧
      e = .overflow part.1.name part.2 part.1.width := by
  unfold pack
  generalize (0 : Word) = start
  induction parts generalizing start with
  | nil => simp [pure, Except.pure]
  | cons first rest ih =>
    obtain ⟨hFirstIn, hRestIn⟩ := List.forall_mem_cons.mp hIn
    have hPlace (next : Word) : place start first = .ok next ↔
        first.2.toNat ≤ 2 ^ first.1.width - 1 ∧ first.1.write start first.2 = next := by
      rw [place_eq_ok_iff hFirstIn, max_eq hFirstIn]
    rw [List.foldlM_cons, bind_eq_error]
    constructor
    · rintro (hFirst | ⟨next, hFirst, hRest⟩)
      · obtain ⟨hLarge, rfl⟩ := (place_eq_error_iff hFirstIn).mp hFirst
        exact ⟨[], first, rest, rfl, List.forall_mem_nil _, hLarge, rfl⟩
      · obtain ⟨hFits, -⟩ := (hPlace next).mp hFirst
        obtain ⟨front, part, back, rfl, hFront, hLarge, rfl⟩ := (ih hRestIn next).mp hRest
        exact ⟨first :: front, part, back, rfl, List.forall_mem_cons.mpr ⟨hFits, hFront⟩, hLarge, rfl⟩
    · rintro ⟨front, part, back, hSplit, hFront, hLarge, rfl⟩
      cases front with
      | nil =>
        obtain ⟨rfl, -⟩ := List.cons.inj hSplit
        exact .inl ((place_eq_error_iff hFirstIn).mpr ⟨hLarge, rfl⟩)
      | cons p front =>
        obtain ⟨rfl, hRest⟩ := List.cons.inj hSplit
        obtain ⟨hFits, hFront⟩ := List.forall_mem_cons.mp hFront
        refine .inr ⟨first.1.write start first.2, (hPlace _).mpr ⟨hFits, rfl⟩, ?_⟩
        exact (ih hRestIn _).mpr ⟨front, part, back, hRest, hFront, hLarge, rfl⟩

theorem exists_pack_error_iff {parts : List (Field × Word)} (hIn : ∀ part ∈ parts, part.1.InWord) :
    (∃ e, pack parts = .error e) ↔ ∃ part ∈ parts, 2 ^ part.1.width - 1 < part.2.toNat := by
  constructor
  · rintro ⟨e, h⟩
    obtain ⟨front, part, back, rfl, -, hLarge, -⟩ := (pack_eq_error_iff hIn).mp h
    exact ⟨part, List.mem_append_right _ List.mem_cons_self, hLarge⟩
  · rintro ⟨part, hPart, hLarge⟩
    cases h : pack parts with
    | error e => exact ⟨e, rfl⟩
    | ok w =>
      have hFits := ((pack_eq_ok_iff hIn).mp h).1 part hPart
      rw [max_eq (hIn part hPart)] at hFits
      omega

/-- What the parts say about bit `i`: the last part with that bit decides, and without one it is zero. -/
inductive BitOf : List (Field × Word) → Nat → Bool → Prop
  | covered {front back : List (Field × Word)} {f : Field} {value : Word} {i : Nat} (hCovers : f.Covers i)
      (hLast : ∀ part ∈ back, ¬part.1.Covers i) :
      BitOf (front ++ (f, value) :: back) i (value.getLsbD (i - f.lsb))
  | uncovered {parts : List (Field × Word)} {i : Nat} (hNone : ∀ part ∈ parts, ¬part.1.Covers i) :
      BitOf parts i false

theorem BitOf.concat {parts : List (Field × Word)} {i : Nat} {bit : Bool} (h : BitOf parts i bit)
    {part : Field × Word} (hOut : ¬part.1.Covers i) : BitOf (parts ++ [part]) i bit := by
  have hLater {others : List (Field × Word)} (hOthers : ∀ p ∈ others, ¬p.1.Covers i) :
      ∀ p ∈ others ++ [part], ¬p.1.Covers i :=
    List.forall_mem_append.mpr ⟨hOthers, List.forall_mem_singleton.mpr hOut⟩
  cases h with
  | covered hCovers hLast =>
    rw [List.append_assoc, List.cons_append]
    exact .covered hCovers (hLater hLast)
  | uncovered hNone => exact .uncovered (hLater hNone)

theorem writeAll_append (w : Word) (front back : List (Field × Word)) :
    writeAll w (front ++ back) = writeAll (writeAll w front) back :=
  List.foldl_append

theorem bitOf_writeAll (parts : List (Field × Word)) {i : Nat} (hWord : i < 32) :
    BitOf parts i ((writeAll 0 parts).getLsbD i) := by
  -- The last part is written last, so the induction takes parts off at the end.
  induction parts using List.reverseRecOn with
  | nil =>
    have hZero : (writeAll 0 []).getLsbD i = false := BitVec.getLsbD_zero
    rw [hZero]
    exact .uncovered (List.forall_mem_nil _)
  | append_singleton parts part ih =>
    have hStep : writeAll 0 (parts ++ [part]) = part.1.write (writeAll 0 parts) part.2 :=
      writeAll_append 0 parts [part]
    rw [hStep, getLsbD_write _ _ _ hWord]
    split
    · rename_i hCovers
      exact .covered hCovers (List.forall_mem_nil _)
    · rename_i hOut
      exact ih.concat hOut

theorem extract_eq_ok {f : Field} (hIn : f.InWord) (w : Word) : f.extract w = .ok (f.read w) := if_pos hIn

/-- A field keeps its value if no later part shares a bit with it. -/
theorem read_writeAll_of_later {f : Field} (hIn : f.InWord) {value : Word} (hFits : value.toNat ≤ f.max)
    {front back : List (Field × Word)} (hLater : ∀ part ∈ back, f.Disjoint part.1) (w : Word) :
    f.read (writeAll w (front ++ (f, value) :: back)) = value := by
  have hSplit : writeAll w (front ++ (f, value) :: back) = writeAll (f.write (writeAll w front) value) back :=
    writeAll_append w front _
  rw [hSplit, read_writeAll_of_disjoint hIn hLater, read_write_self hIn _ hFits]

/-- The fields divide the bits of a word among them. -/
structure Divides (layout : List Field) : Prop where
  inWord : ∀ f ∈ layout, f.InWord
  disjoint : layout.Pairwise Disjoint
  covers : ∀ i < 32, ∃ f ∈ layout, f.Covers i

namespace Divides

variable {layout : List Field} (h : Divides layout)

include h

theorem extract_unpack (w : Word) : layout.mapM (fun f => f.extract w) = .ok (unpack layout w) := by
  rw [mapM_eq_ok_iff, unpack, List.forall₂_map_right_iff, List.forall₂_same]
  exact fun f hf => extract_eq_ok (h.inWord f hf) w

theorem pack_unpack (w : Word) : pack (layout.zip (unpack layout w)) = .ok w := by
  have hParts : layout.zip (unpack layout w) = layout.map fun f => (f, f.read w) := by
    rw [unpack, ← List.zip_map', List.map_id']
  have hEach : ∀ part ∈ layout.map fun f => (f, f.read w), part.1.InWord ∧ part.2.toNat ≤ part.1.max := by
    intro part hPart
    obtain ⟨f, hf, rfl⟩ := List.mem_map.mp hPart
    exact ⟨h.inWord f hf, toNat_read_le_max (h.inWord f hf) w⟩
  rw [hParts, pack_eq_ok_iff fun part hPart => (hEach part hPart).1]
  exact ⟨fun part hPart => (hEach part hPart).2, writeAll_read h.covers 0 w⟩

theorem unpack_pack {values : List Word} (hLength : values.length = layout.length) {w : Word}
    (hPack : pack (layout.zip values) = .ok w) : unpack layout w = values := by
  have hFields : (layout.zip values).map Prod.fst = layout := List.map_fst_zip (Nat.le_of_eq hLength.symm)
  have hValues : (layout.zip values).map Prod.snd = values := List.map_snd_zip (Nat.le_of_eq hLength)
  have hIn : ∀ part ∈ layout.zip values, part.1.InWord :=
    fun part hPart => h.inWord part.1 (hFields ▸ List.mem_map_of_mem hPart)
  have hDisjoint : (layout.zip values).Pairwise fun p q => p.1.Disjoint q.1 := by
    rw [← List.pairwise_map, hFields]
    exact h.disjoint
  obtain ⟨hFits, rfl⟩ := (pack_eq_ok_iff hIn).mp hPack
  have hRead := read_writeAll hIn hFits hDisjoint 0
  generalize writeAll 0 (layout.zip values) = w at hRead
  calc unpack layout w
    _ = ((layout.zip values).map Prod.fst).map (·.read w) := by rw [hFields, unpack]
    _ = (layout.zip values).map (fun part => part.1.read w) := List.map_map
    _ = (layout.zip values).map Prod.snd := List.map_congr_left hRead
    _ = values := hValues

end Divides

theorem divides_layouts : ∀ layout ∈ [registerLayout, immediateLayout, jumpLayout], Divides layout := by
  refine List.forall_mem_cons.mpr ⟨?_, List.forall_mem_cons.mpr ⟨?_, List.forall_mem_singleton.mpr ?_⟩⟩
  · exact ⟨by decide, by decide, by decide⟩
  · exact ⟨by decide, by decide, by decide⟩
  · exact ⟨by decide, by decide, by decide⟩

/-- Fields that lie in a word are packed if all of their values fit. Each bit of the word is then that of the
last field with the bit. The fields of a layout are read back from a word, and a word from its fields. -/
theorem fields_are_packed_exactly :
    (∀ parts : List (Field × Word), (∀ part ∈ parts, part.1.InWord) →
      ((∃ e, pack parts = .error e) ↔ ∃ part ∈ parts, 2 ^ part.1.width - 1 < part.2.toNat) ∧
      (∀ e, pack parts = .error e → ∃ front part back, parts = front ++ part :: back ∧
        (∀ p ∈ front, p.2.toNat ≤ 2 ^ p.1.width - 1) ∧ 2 ^ part.1.width - 1 < part.2.toNat ∧
        e = .overflow part.1.name part.2 part.1.width) ∧
      ∀ w, pack parts = .ok w → (∀ i < 32, BitOf parts i (w.getLsbD i)) ∧
        ∀ front f value back, parts = front ++ (f, value) :: back →
          (∀ part ∈ back, f.Disjoint part.1) → f.extract w = .ok value) ∧
    ∀ layout ∈ [registerLayout, immediateLayout, jumpLayout],
      (∀ w, layout.mapM (fun f => f.extract w) = .ok (unpack layout w)) ∧
      (∀ w, pack (layout.zip (unpack layout w)) = .ok w) ∧
      ∀ values w, values.length = layout.length → pack (layout.zip values) = .ok w →
        unpack layout w = values := by
  refine ⟨fun parts hIn => ⟨exists_pack_error_iff hIn, fun e => (pack_eq_error_iff hIn).mp, ?_⟩, ?_⟩
  · intro w hPack
    obtain ⟨hFits, rfl⟩ := (pack_eq_ok_iff hIn).mp hPack
    refine ⟨fun i hWord => bitOf_writeAll parts hWord, ?_⟩
    rintro front f value back rfl hLater
    have hMem : (f, value) ∈ front ++ (f, value) :: back := List.mem_append_right _ List.mem_cons_self
    rw [extract_eq_ok (hIn _ hMem), read_writeAll_of_later (hIn _ hMem) (hFits _ hMem) hLater]
  · intro layout hLayout
    have hDivides := divides_layouts layout hLayout
    exact ⟨hDivides.extract_unpack, hDivides.pack_unpack,
      fun values w hLength hPack => hDivides.unpack_pack hLength hPack⟩

theorem fields_are_packed_exactly_overlap :
    let high : Field := ⟨"high".toList, 20, 12⟩
    let parts : List (Field × Word) := [(high, 0xFFF), (rs, 3)]
    (∀ part ∈ parts, part.1.InWord) ∧ pack parts = .ok 0xFC700000 ∧ rs.extract 0xFC700000 = .ok 3 ∧
      BitOf parts 31 true ∧ unpack jumpLayout 0x08000005 = [2, 5] := by
  have hIn : ∀ part ∈ [((⟨"high".toList, 20, 12⟩ : Field), (0xFFF : Word)), (rs, 3)], part.1.InWord := by
    simp only [List.forall_mem_cons]
    decide
  have hPack : pack [(⟨"high".toList, 20, 12⟩, 0xFFF), (rs, 3)] = .ok 0xFC700000 := by decide
  obtain ⟨hParts, hLayouts⟩ := fields_are_packed_exactly
  obtain ⟨hBits, hExtract⟩ := (hParts _ hIn).2.2 _ hPack
  exact ⟨hIn, hPack, hExtract [_] rs 3 [] rfl (List.forall_mem_nil _), hBits 31 (by decide),
    (hLayouts jumpLayout (by decide)).2.2 [2, 5] _ rfl (by decide)⟩

end MipsAsm.Field
