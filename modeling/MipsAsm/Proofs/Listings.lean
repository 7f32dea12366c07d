import MipsAsm.Proofs.Reassembly

/-!
Listings determine their records. A listing is taken apart at its blank, its commas and its colons, none of
which stands inside of what it separates; what is left are digits, which determine their number at any
width. So two words have the same listing exactly if they agree but for the `rs` bits of `lui`.
-/

set_option autoImplicit false

namespace MipsAsm

open Outcome Text Numeral

namespace Numeral

theorem hex_toNat_inj {size width : Nat} {a b : BitVec size} :
    hex width a.toNat = hex width b.toNat ↔ a = b := by
  constructor
  · intro h
    have hValue := congrArg (valueFrom 16 0) h
    rw [valueFrom_hex, valueFrom_hex] at hValue
    exact BitVec.eq_of_toNat_eq hValue
  · rintro rfl
    rfl

end Numeral

namespace Text

/-- The name and the value of an entry, taken apart at the colon. -/
def entryOf (part : Text) : Text × Text :=
  (part.takeWhile (· ≠ ':'), (part.dropWhile (· ≠ ':')).drop 2)

theorem entryOf_written {entry : Text × Text} (hColon : ':' ∉ entry.1) :
    entryOf (entry.1 ++ ": ".toList ++ entry.2) = entry := by
  have hName : ∀ c ∈ entry.1, decide (c ≠ ':') = true := by
    intro c hc
    rw [decide_eq_true_eq]
    rintro rfl
    exact hColon hc
  rw [entryOf, List.append_assoc, List.takeWhile_append_of_pos hName, List.dropWhile_append_of_pos hName]
  exact Prod.ext (List.append_nil entry.1) rfl

theorem namedList_inj {entries entries' : List (Text × Text)} (hNe : entries ≠ []) (hNe' : entries' ≠ [])
    (hPlain : ∀ entry ∈ entries, Plain entry.1 ∧ Plain entry.2)
    (hPlain' : ∀ entry ∈ entries', Plain entry.1 ∧ Plain entry.2)
    (h : namedList entries = namedList entries') : entries = entries' := by
  have hComma {entries : List (Text × Text)} (hPlain : ∀ entry ∈ entries, Plain entry.1 ∧ Plain entry.2) :
      ∀ part ∈ entries.map fun entry => entry.1 ++ ": ".toList ++ entry.2, ',' ∉ part := by
    refine List.forall_mem_map.mpr fun entry hEntry => ?_
    obtain ⟨hName, hValue⟩ := hPlain entry hEntry
    exact List.not_mem_append (List.not_mem_append (hName.not_mem (by decide)) (by decide))
      (hValue.not_mem (by decide))
  have hBack {entries : List (Text × Text)} (hPlain : ∀ entry ∈ entries, Plain entry.1 ∧ Plain entry.2) :
      (entries.map fun entry => entry.1 ++ ": ".toList ++ entry.2).map entryOf = entries := by
    rw [List.map_map]
    refine (List.map_congr_left fun entry hEntry => ?_).trans (List.map_id entries)
    exact entryOf_written ((hPlain entry hEntry).1.not_mem (by decide))
  have hParts := joined_inj (by decide : ',' ∉ " ".toList) (mt List.map_eq_nil_iff.mp hNe) (mt List.map_eq_nil_iff.mp hNe') (hComma hPlain)
    (hComma hPlain') h
  rw [← hBack hPlain, hParts, hBack hPlain']

end Text

namespace Instr

theorem columns_ne_nil (r : Instr) : r.columns ≠ [] := by
  cases r <;> exact List.cons_ne_nil _ _

theorem mnemonic_and_columns_of_listing {r r' : Instr} (h : r.listing = r'.listing) :
    r.mnemonic = r'.mnemonic ∧ r.columns = r'.columns := by
  have hSplit (r : Instr) : splitBlank r.listing = (r.mnemonic.name, r.listed) := by
    rw [listing_eq, splitBlank_append r.mnemonic.plain_name.not_blank rfl, r.trimmed_listed.trim_eq]
  have hHalves := congrArg splitBlank h
  rw [hSplit, hSplit] at hHalves
  obtain ⟨hName, hListed⟩ := Prod.mk.inj hHalves
  rw [listed, listed, List.append_left_inj, List.append_right_inj] at hListed
  exact ⟨Mnemonic.name_inj.mp hName,
    namedList_inj r.columns_ne_nil r'.columns_ne_nil r.columns_plain r'.columns_plain hListed⟩

/-- Records of different formats have different numbers of columns. -/
theorem eq_of_columns {r r' : Instr} (hMnemonic : r.mnemonic = r'.mnemonic) (h : r.columns = r'.columns) :
    r = r' := by
  have hLength := congrArg List.length h
  cases r with
  | register m rs rt rd shamt funct =>
    cases r' with
    | register m' rs' rt' rd' shamt' funct' =>
      obtain rfl : m = m' := hMnemonic
      simp only [columns, List.cons.injEq, Prod.mk.injEq, hex_toNat_inj, true_and, and_true] at h
      obtain ⟨-, rfl, rfl, rfl, rfl, rfl⟩ := h
      rfl
    | immediate | jump | syscall => simp [columns] at hLength
  | immediate m rs rt imm =>
    cases r' with
    | immediate m' rs' rt' imm' =>
      obtain rfl : m = m' := hMnemonic
      simp only [columns, List.cons.injEq, Prod.mk.injEq, hex_toNat_inj, true_and, and_true] at h
      obtain ⟨-, rfl, rfl, rfl⟩ := h
      rfl
    | register | jump | syscall => simp [columns] at hLength
  | jump m index =>
    cases r' with
    | jump m' index' =>
      obtain rfl : m = m' := hMnemonic
      simp only [columns, List.cons.injEq, Prod.mk.injEq, hex_toNat_inj, true_and, and_true] at h
      obtain ⟨-, rfl⟩ := h
      rfl
    | register | immediate | syscall => simp [columns] at hLength
  | syscall code =>
    cases r' with
    | syscall code' =>
      simp only [columns, List.cons.injEq, Prod.mk.injEq, hex_toNat_inj, true_and, and_true] at h
      obtain ⟨-, rfl⟩ := h
      rfl
    | register | immediate | jump => simp [columns] at hLength

theorem decode_eq_iff {w w' : Word} {d d' : Instr} (h : decode w = .ok d) (h' : decode w' = .ok d') :
    d = d' ↔ w.canonical = w'.canonical := by
  have hEncode := encode_of_decode h
  have hEncode' := encode_of_decode h'
  constructor
  · rintro rfl
    exact Except.ok.inj (hEncode.symm.trans hEncode')
  · intro hWord
    have hDecode := decode_of_encode hEncode
    rw [hWord, decode_of_encode hEncode', (decode_valid h).2.2, (decode_valid h').2.2] at hDecode
    exact (Except.ok.inj hDecode).symm

theorem listingOfHex_eq_ok_iff {t l : Text} :
    listingOfHex t = .ok l ↔ ∃ w d, Word.written t = .ok w ∧ decode w = .ok d ∧ d.listing = l := by
  rw [listingOfHex, bind_eq_ok]
  simp only [bind_eq_ok, pure_eq_ok, exists_and_left]

/-- Different records have different listings, and two words that are listed alike are the same word, up to
the bits that have no meaning in `lui`. -/
theorem listings_lose_nothing :
    (∀ r r' : Instr, r.listing = r'.listing → r = r') ∧
    ∀ t t' l l' : Text, listingOfHex t = .ok l → listingOfHex t' = .ok l' →
      ∃ w w', Word.written t = .ok w ∧ Word.written t' = .ok w' ∧
        (l = l' ↔ (if w >>> 26 = 0x0F then w &&& 0xFC1FFFFF else w) =
          if w' >>> 26 = 0x0F then w' &&& 0xFC1FFFFF else w') := by
  have hListing (r r' : Instr) (h : r.listing = r'.listing) : r = r' := by
    obtain ⟨hMnemonic, hColumns⟩ := mnemonic_and_columns_of_listing h
    exact eq_of_columns hMnemonic hColumns
  refine ⟨hListing, ?_⟩
  intro t t' l l' h h'
  obtain ⟨w, d, hWord, hDecode, rfl⟩ := listingOfHex_eq_ok_iff.mp h
  obtain ⟨w', d', hWord', hDecode', rfl⟩ := listingOfHex_eq_ok_iff.mp h'
  refine ⟨w, w', hWord, hWord', ?_⟩
  rw [← w.canonical_eq, ← w'.canonical_eq, ← decode_eq_iff hDecode hDecode']
  exact ⟨hListing d d', congrArg listing⟩

theorem listings_lose_nothing_lui :
    ∃ l w w', listingOfHex "0X3C2A1234".toList = .ok l ∧ listingOfHex " 3c0a1234".toList = .ok l ∧
      Word.written "0X3C2A1234".toList = .ok w ∧ Word.written " 3c0a1234".toList = .ok w' ∧ w ≠ w' ∧
      (if w >>> 26 = 0x0F then w &&& 0xFC1FFFFF else w) =
        if w' >>> 26 = 0x0F then w' &&& 0xFC1FFFFF else w' := by
  have hListings : ∃ l, listingOfHex "0X3C2A1234".toList = .ok l ∧ listingOfHex " 3c0a1234".toList = .ok l :=
    ⟨_, rfl, rfl⟩
  have hWords : Word.written "0X3C2A1234".toList ≠ Word.written " 3c0a1234".toList := by decide
  obtain ⟨l, hFirst, hSecond⟩ := hListings
  obtain ⟨w, w', hWord, hWord', hAlike⟩ := listings_lose_nothing.2 _ _ l l hFirst hSecond
  refine ⟨l, w, w', hFirst, hSecond, hWord, hWord', ?_, hAlike.mp rfl⟩
  rintro rfl
  exact hWords (hWord.trans hWord'.symm)

end Instr

end MipsAsm
