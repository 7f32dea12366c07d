import Mathlib.Data.List.Forall2
import MipsAsm.Proofs.Blanks
import MipsAsm.Source.InstrText

/-!
Instruction texts and their tokens. A text is read as an instruction exactly when it spells a well-formed
one, and is refused only if it is blank or lists an empty operand; what printing an instruction gives is one
of its spellings.
-/

set_option autoImplicit false

namespace MipsAsm.InstrText

open Text

/-- The mnemonic is one word, and the operands are trimmed texts without commas. -/
structure WellFormed (i : InstrText) : Prop where
  mnemonic_ne_nil : i.mnemonic ≠ []
  mnemonic_not_blank : ∀ c ∈ i.mnemonic, isBlank c = false
  operand_ne_nil : ∀ operand ∈ i.operands, operand ≠ []
  operand_trimmed : ∀ operand ∈ i.operands, Trimmed operand
  operand_comma : ∀ operand ∈ i.operands, ',' ∉ operand

theorem read_trim (t : Text) : read (trim t) = read t := by
  rw [read, read, trim_trim]

/-- The mnemonic is what stands before the first blank, and every operand is a nonempty piece between
commas, trimmed. -/
theorem halves_of_read {t : Text} {i : InstrText} (h : read t = .ok i) :
    i.mnemonic ≠ [] ∧ i.mnemonic = (splitBlank (trim t)).1 ∧
      ∀ operand ∈ i.operands, operand ≠ [] ∧
        ∃ piece ∈ (splitBlank (trim t)).2.splitOn ',', operand = trim piece := by
  rw [read] at h
  dsimp only at h
  split at h
  · cases h
  rename_i hNe
  have hMnemonic : (splitBlank (trim t)).1 ≠ [] := by simpa using hNe
  split at h
  · cases h
    exact ⟨hMnemonic, rfl, nofun⟩
  split at h
  · cases h
  · rename_i hAny
    cases h
    refine ⟨hMnemonic, rfl, fun operand hOperand => ⟨fun hEmpty => hAny ?_, ?_⟩⟩
    · exact List.any_eq_true.mpr ⟨operand, hOperand, List.isEmpty_iff.mpr hEmpty⟩
    · obtain ⟨piece, hPiece, rfl⟩ := List.mem_map.mp hOperand
      exact ⟨piece, hPiece, rfl⟩

theorem wellFormed_of_read {t : Text} {i : InstrText} (h : read t = .ok i) : i.WellFormed := by
  obtain ⟨hNe, hMnemonic, hOperands⟩ := halves_of_read h
  refine ⟨hNe, ?_, fun operand hOperand => (hOperands operand hOperand).1, ?_, ?_⟩
  · intro c hc
    rw [hMnemonic] at hc
    simpa using List.mem_takeWhile_imp hc
  · intro operand hOperand
    obtain ⟨-, piece, -, rfl⟩ := hOperands operand hOperand
    exact trimmed_trim piece
  · intro operand hOperand hComma
    obtain ⟨-, piece, hPiece, rfl⟩ := hOperands operand hOperand
    exact (mem_of_mem_splitOn hPiece (mem_of_mem_trim hComma)).2 rfl

theorem mem_of_mem_operand {t operand : Text} {i : InstrText} {c : Char} (h : read t = .ok i)
    (hOperand : operand ∈ i.operands) (hc : c ∈ operand) : c ∈ t := by
  obtain ⟨-, -, hOperands⟩ := halves_of_read h
  obtain ⟨-, piece, hPiece, rfl⟩ := hOperands operand hOperand
  have hRest := (mem_of_mem_splitOn hPiece (mem_of_mem_trim hc)).1
  exact mem_of_mem_trim ((List.dropWhile_suffix _).subset (mem_of_mem_trim hRest))

theorem length_splitOn_comma (t : Text) : (t.splitOn ',').length = t.count ',' + 1 := by
  induction t with
  | nil => rfl
  | cons c rest ih =>
    rw [List.splitOn_cons_eq_if_modifyHead, List.count_cons]
    split
    · rw [List.length_cons, ih]
    · rw [List.length_modifyHead, ih, Nat.add_zero]

theorem count_comma_joined {first : Text} {rest : List Text} (hFirst : ',' ∉ first)
    (hRest : ∀ part ∈ rest, ',' ∉ part) : (joined ", ".toList (first :: rest)).count ',' = rest.length := by
  induction rest generalizing first with
  | nil => exact List.count_eq_zero.mpr (by simpa [joined] using hFirst)
  | cons second rest ih =>
    obtain ⟨hSecond, hRest⟩ := List.forall_mem_cons.mp hRest
    have hSep : (", ".toList).count ',' = 1 := by decide
    rw [joined_cons_cons, List.count_append, List.count_append, List.count_eq_zero.mpr hFirst, hSep,
      ih hSecond hRest, List.length_cons]
    omega

theorem read_word {word : Text} (hWordNe : word ≠ []) (hWord : ∀ c ∈ word, isBlank c = false) :
    read word = .ok ⟨word, []⟩ := by
  rw [read, (trimmed_of_forall hWord).trim_eq, splitBlank_of_forall hWord]
  dsimp only
  rw [if_neg (by simpa using hWordNe), List.isEmpty_nil, if_pos rfl]

theorem map_trim_splitOn_gap_append {gap : Text} (hGap : Gap gap) (t : Text) :
    ((gap ++ t).splitOn ',').map trim = (t.splitOn ',').map trim := by
  induction gap with
  | nil => rfl
  | cons c gap ih =>
    obtain ⟨hBlank, hTail⟩ := List.forall_mem_cons.mp hGap
    have hComma : c ≠ ',' := by
      rintro rfl
      cases hBlank
    rw [← ih hTail, List.cons_append, List.splitOn_cons_eq_if_modifyHead, if_neg (by simpa using hComma)]
    cases (gap ++ t).splitOn ',' with
    | nil => rfl
    | cons piece pieces => rw [List.modifyHead_cons, List.map_cons, List.map_cons, trim_cons_blank hBlank]

theorem map_trim_splitOn_append_gap {gap : Text} (hGap : Gap gap) (t : Text) :
    ((t ++ gap).splitOn ',').map trim = (t.splitOn ',').map trim := by
  -- What stands before a comma is the same on both sides, so only the piece behind the last one counts.
  by_cases hComma : ',' ∈ t
  · obtain ⟨front, rest, hText⟩ := List.append_of_mem hComma
    have hShorter : rest.length < t.length := by
      rw [hText, List.length_append, List.length_cons]
      omega
    rw [hText, List.append_assoc, List.cons_append, List.splitOn_append_cons_self,
      List.splitOn_append_cons_self, List.map_append, List.map_append, map_trim_splitOn_append_gap hGap rest]
  · have hWhole : ',' ∉ t ++ gap := by
      rw [List.mem_append]
      exact fun h => h.elim hComma (hGap.not_mem rfl)
    rw [List.splitOn_eq_singleton hWhole, List.splitOn_eq_singleton hComma, List.map_singleton,
      List.map_singleton, trim_append_gap hGap]
termination_by t.length

/-- Trimming in front of the split changes no operand. -/
theorem map_trim_splitOn_trim (t : Text) : ((trim t).splitOn ',').map trim = (t.splitOn ',').map trim := by
  obtain ⟨left, right, hLeft, hRight, hText⟩ := exists_gaps t
  conv_rhs => rw [hText]
  rw [map_trim_splitOn_append_gap hRight, map_trim_splitOn_gap_append hLeft]

/-- A word with white space and more text behind it: what stands between the commas is trimmed, and none of
it may be empty. -/
theorem read_listed {word gap rest : Text} (hWordNe : word ≠ []) (hWord : ∀ c ∈ word, isBlank c = false)
    (hGap : Gap gap) (hGapNe : gap ≠ []) (hRest : ¬Gap rest) :
    read (word ++ gap ++ rest) =
      if ((rest.splitOn ',').map trim).any (·.isEmpty) then
        .error (.malformed (.emptyOperand (trim (word ++ gap ++ rest))))
      else .ok ⟨word, (rest.splitOn ',').map trim⟩ := by
  rw [read, splitBlank_trim_append hWordNe hWord hGap hGapNe]
  dsimp only
  rw [if_neg (by simpa using hWordNe), if_neg (by simpa [trim_eq_nil_iff] using hRest), map_trim_splitOn_trim]

section WordAndRest

variable {word rest : Text} (hWordNe : word ≠ []) (hWord : ∀ c ∈ word, isBlank c = false)
  (hRestNe : rest ≠ []) (hRest : Trimmed rest)

include hWordNe hWord hRestNe hRest

theorem trimmed_word_append : Trimmed (word ++ ' ' :: rest) := by
  have hLine := (trimmed_of_forall hWord).append hRest hWordNe hRestNe [' ']
  rwa [List.append_assoc] at hLine

/-- Each comma behind the mnemonic separates two operands. -/
theorem length_operands_of_read {i : InstrText} (h : read (word ++ ' ' :: rest) = .ok i) :
    i.mnemonic = word ∧ i.operands.length = rest.count ',' + 1 := by
  have hGap : Gap [' '] := List.forall_mem_singleton.mpr rfl
  have hFilled : ¬Gap rest := by
    rw [← trim_eq_nil_iff, hRest.trim_eq]
    exact hRestNe
  rw [List.append_cons, read_listed hWordNe hWord hGap (List.cons_ne_nil _ _) hFilled] at h
  split at h
  · cases h
  · cases h
    exact ⟨rfl, by rw [List.length_map, length_splitOn_comma]⟩

end WordAndRest

theorem render_cons (mnemonic first : Text) (rest : List Text) :
    render ⟨mnemonic, first :: rest⟩ = mnemonic ++ ' ' :: joined ", ".toList (first :: rest) := by
  simp [render]

theorem mem_render {i : InstrText} {c : Char} (h : c ∈ i.render) :
    c ∈ i.mnemonic ∨ c ∈ ", ".toList ∨ ∃ operand ∈ i.operands, c ∈ operand := by
  obtain ⟨mnemonic, operands⟩ := i
  cases operands with
  | nil => exact .inl h
  | cons first rest =>
    rw [render_cons, List.mem_append, List.mem_cons] at h
    rcases h with hName | rfl | hOperands
    · exact .inl hName
    · exact .inr (.inl (by decide))
    · exact .inr (mem_joined hOperands)

theorem WellFormed.trimmed_render {i : InstrText} (h : i.WellFormed) : Trimmed i.render := by
  obtain ⟨mnemonic, operands⟩ := i
  cases operands with
  | nil => exact trimmed_of_forall h.mnemonic_not_blank
  | cons first rest =>
    rw [render_cons]
    exact trimmed_word_append h.mnemonic_ne_nil h.mnemonic_not_blank
      (joined_ne_nil ", ".toList (List.cons_ne_nil first rest) h.operand_ne_nil)
      (trimmed_joined ", ".toList h.operand_ne_nil h.operand_trimmed)

theorem WellFormed.render_ne_nil {i : InstrText} (h : i.WellFormed) : i.render ≠ [] := by
  obtain ⟨mnemonic, operands⟩ := i
  cases operands with
  | nil => exact h.mnemonic_ne_nil
  | cons first rest =>
    rw [render_cons]
    exact List.append_ne_nil_of_left_ne_nil h.mnemonic_ne_nil _

/-- A text with white space around it, or none. -/
def Padded (t piece : Text) : Prop := ∃ left right, Gap left ∧ Gap right ∧ piece = left ++ t ++ right

theorem Padded.trim_eq {t piece : Text} (h : Padded t piece) (hTrimmed : Trimmed t) : trim piece = t := by
  obtain ⟨left, right, hLeft, hRight, rfl⟩ := h
  rw [trim_append_gap hRight, trim_gap_append hLeft, hTrimmed.trim_eq]

/-- What is found on trimming stands in the text between white space. -/
theorem exists_padded_iff {P : Text → Prop} (hTrimmed : ∀ body, P body → Trimmed body) {t : Text} :
    (∃ body, Padded body t ∧ P body) ↔ P (trim t) := by
  constructor
  · rintro ⟨body, hPadded, hBody⟩
    rwa [hPadded.trim_eq (hTrimmed body hBody)]
  · exact fun h => ⟨trim t, exists_gaps t, h⟩

theorem Padded.not_mem {t piece : Text} (h : Padded t piece) {c : Char} (hChar : isBlank c = false)
    (hText : c ∉ t) : c ∉ piece := by
  obtain ⟨left, right, hLeft, hRight, rfl⟩ := h
  rw [List.mem_append, List.mem_append]
  rintro ((hMem | hMem) | hMem)
  · exact hLeft.not_mem hChar hMem
  · exact hText hMem
  · exact hRight.not_mem hChar hMem

/-- How an instruction may be written: the mnemonic alone, or behind it white space and the operands,
which stand between commas with white space around them. -/
inductive Spelled : Text → InstrText → Prop
  | bare (mnemonic : Text) : Spelled mnemonic ⟨mnemonic, []⟩
  | listed {mnemonic gap : Text} {operands pieces : List Text} (hGap : Gap gap) (hGapNe : gap ≠ [])
      (hNe : operands ≠ []) (hPieces : List.Forall₂ Padded operands pieces) :
      Spelled (mnemonic ++ gap ++ [','].intercalate pieces) ⟨mnemonic, operands⟩

theorem Spelled.exists_append {t : Text} {i : InstrText} (h : Spelled t i) :
    ∃ rest, t = i.mnemonic ++ rest := by
  cases h with
  | bare => exact ⟨[], (List.append_nil t).symm⟩
  | listed => exact ⟨_, List.append_assoc _ _ _⟩

theorem spelled_of_read {t : Text} {i : InstrText} (hTrimmed : Trimmed t) (h : read t = .ok i) :
    Spelled t i := by
  obtain hWord | ⟨word, gap, rest, rfl, hWordNe, hWord, hGap, hGapNe, hRest⟩ := hTrimmed.word_cases
  · by_cases hNil : t = []
    · rw [hNil] at h
      cases h
    · rw [read_word hNil hWord] at h
      cases h
      exact .bare t
  · rw [read_listed hWordNe hWord hGap hGapNe hRest] at h
    split at h
    · cases h
    · cases h
      have hPieces (pieces : List Text) : List.Forall₂ Padded (pieces.map trim) pieces := by
        rw [List.forall₂_map_left_iff, List.forall₂_same]
        exact fun piece _ => exists_gaps piece
      have hSpelled : Spelled _ ⟨word, (rest.splitOn ',').map trim⟩ :=
        .listed hGap hGapNe (by simp) (hPieces _)
      rwa [List.intercalate_splitOn] at hSpelled

theorem pieces_of_padded {operands pieces : List Text} (h : List.Forall₂ Padded operands pieces)
    (hTrimmed : ∀ operand ∈ operands, Trimmed operand) (hComma : ∀ operand ∈ operands, ',' ∉ operand) :
    pieces.map trim = operands ∧ ∀ piece ∈ pieces, ',' ∉ piece := by
  induction h with
  | nil => exact ⟨rfl, nofun⟩
  | cons hHead _ ih =>
    obtain ⟨hFirst, hRest⟩ := List.forall_mem_cons.mp hTrimmed
    obtain ⟨hFirstComma, hRestComma⟩ := List.forall_mem_cons.mp hComma
    obtain ⟨hMap, hPieces⟩ := ih hRest hRestComma
    refine ⟨?_, List.forall_mem_cons.mpr ⟨hHead.not_mem rfl hFirstComma, hPieces⟩⟩
    rw [List.map_cons, hHead.trim_eq hFirst, hMap]

theorem Spelled.read_eq {t : Text} {i : InstrText} (h : Spelled t i) (hForm : i.WellFormed) :
    read t = .ok i := by
  cases h with
  | bare mnemonic => exact read_word hForm.mnemonic_ne_nil hForm.mnemonic_not_blank
  | @listed mnemonic gap operands pieces hGap hGapNe hNe hPieces =>
    obtain ⟨hMap, hComma⟩ := pieces_of_padded hPieces hForm.operand_trimmed hForm.operand_comma
    have hPiecesNe : pieces ≠ [] := by
      rintro rfl
      exact hNe hMap.symm
    have hOperands : (([','].intercalate pieces).splitOn ',').map trim = operands := by
      rw [List.splitOn_intercalate ',' hComma hPiecesNe, hMap]
    have hRest : ¬Gap ([','].intercalate pieces) := by
      rw [← trim_eq_nil_iff]
      intro hNil
      rw [← map_trim_splitOn_trim, hNil] at hOperands
      exact hForm.operand_ne_nil [] (hOperands ▸ List.mem_singleton_self _) rfl
    have hAny : ¬operands.any (·.isEmpty) = true := by
      rw [List.any_eq_true]
      rintro ⟨operand, hOperand, hEmpty⟩
      exact hForm.operand_ne_nil operand hOperand (List.isEmpty_iff.mp hEmpty)
    rw [read_listed hForm.mnemonic_ne_nil hForm.mnemonic_not_blank hGap hGapNe hRest, hOperands,
      if_neg hAny]

theorem spelled_render (i : InstrText) : Spelled i.render i := by
  obtain ⟨mnemonic, operands⟩ := i
  cases operands with
  | nil => exact .bare mnemonic
  | cons first rest =>
    have hBlank : Gap [' '] := List.forall_mem_singleton.mpr rfl
    have hPieces : List.Forall₂ Padded (first :: rest) (first :: rest.map (' ' :: ·)) := by
      refine .cons ⟨[], [], gap_nil, gap_nil, (List.append_nil first).symm⟩ ?_
      rw [List.forall₂_map_right_iff, List.forall₂_same]
      exact fun operand _ => ⟨[' '], [], hBlank, gap_nil, (List.append_nil _).symm⟩
    have hJoined : joined ", ".toList (first :: rest) = [','].intercalate (first :: rest.map (' ' :: ·)) :=
      joined_eq_intercalate [' '] first rest
    have hSpelled : Spelled _ ⟨mnemonic, first :: rest⟩ :=
      .listed hBlank (List.cons_ne_nil _ _) (List.cons_ne_nil _ _) hPieces
    rwa [← hJoined, List.append_assoc, List.singleton_append, ← render_cons] at hSpelled

theorem WellFormed.read_render {i : InstrText} (h : i.WellFormed) : read i.render = .ok i :=
  (spelled_render i).read_eq h

/-- Something follows the mnemonic, and one of the pieces between its commas is white space or nothing. -/
inductive Hollow : Text → Prop
  | piece {mnemonic gap rest piece : Text} (hMnemonic : ∀ c ∈ mnemonic, isBlank c = false) (hGap : Gap gap)
      (hGapNe : gap ≠ []) (hRestNe : rest ≠ []) (hPiece : piece ∈ rest.splitOn ',') (hBlank : Gap piece) :
      Hollow (mnemonic ++ gap ++ rest)

theorem any_isEmpty_iff {rest : Text} :
    ((rest.splitOn ',').map trim).any (·.isEmpty) = true ↔ ∃ piece ∈ rest.splitOn ',', Gap piece := by
  simp [trim_eq_nil_iff]

theorem Hollow.read_eq {t : Text} (h : Hollow t) (hTrimmed : Trimmed t) :
    read t = .error (.malformed (.emptyOperand t)) := by
  obtain @⟨mnemonic, gap, rest, piece, hMnemonic, hGap, hGapNe, hRestNe, hPiece, hBlank⟩ := h
  have hMnemonicNe : mnemonic ≠ [] := by
    rintro rfl
    exact hGapNe (hTrimmed.eq_nil_of_gap_append hGap)
  have hRest : ¬Gap rest := fun hGapRest => hRestNe (hTrimmed.eq_nil_of_append_gap hGapRest)
  rw [read_listed hMnemonicNe hMnemonic hGap hGapNe hRest, hTrimmed.trim_eq,
    if_pos (any_isEmpty_iff.mpr ⟨piece, hPiece, hBlank⟩)]

theorem read_eq_error_iff {t : Text} (hTrimmed : Trimmed t) {fault : Fault} :
    read t = .error fault ↔
      t = [] ∧ fault = .malformed .emptyInstruction ∨
        Hollow t ∧ fault = .malformed (.emptyOperand t) := by
  constructor
  · intro h
    obtain hWord | ⟨word, gap, rest, rfl, hWordNe, hWord, hGap, hGapNe, hRest⟩ := hTrimmed.word_cases
    · by_cases hNil : t = []
      · rw [hNil] at h
        cases h
        exact .inl ⟨hNil, rfl⟩
      · rw [read_word hNil hWord] at h
        cases h
    · rw [read_listed hWordNe hWord hGap hGapNe hRest, hTrimmed.trim_eq] at h
      split at h
      · rename_i hAny
        obtain ⟨piece, hPiece, hBlank⟩ := any_isEmpty_iff.mp hAny
        have hRestNe : rest ≠ [] := by
          rintro rfl
          exact hRest gap_nil
        cases h
        exact .inr ⟨.piece hWord hGap hGapNe hRestNe hPiece hBlank, rfl⟩
      · cases h
  · rintro (⟨rfl, rfl⟩ | ⟨hHollow, rfl⟩)
    · rfl
    · exact hHollow.read_eq hTrimmed

theorem read_eq_ok_iff {t : Text} {i : InstrText} :
    read t = .ok i ↔ i.WellFormed ∧ ∃ body, Padded body t ∧ Spelled body i := by
  constructor
  · intro h
    refine ⟨wellFormed_of_read h, trim t, exists_gaps t, spelled_of_read (trimmed_trim t) ?_⟩
    rwa [read_trim]
  · rintro ⟨hForm, body, ⟨left, right, hLeft, hRight, rfl⟩, hSpelled⟩
    rw [← read_trim, trim_append_gap hRight, trim_gap_append hLeft, read_trim]
    exact hSpelled.read_eq hForm

/-- Of all texts, the spellings of well-formed instructions are read, each as the instruction that it spells,
and printing such an instruction gives one of them. A text is refused if nothing is left on trimming, or if
an operand is missing at a comma. -/
theorem tokenizing_inverts_printing :
    (∀ (t : Text) (i : InstrText),
      read t = .ok i ↔ i.WellFormed ∧ ∃ body, Padded body t ∧ Spelled body i) ∧
    (∀ i : InstrText, Spelled i.render i ∧ (read i.render = .ok i ↔ i.WellFormed)) ∧
    ∀ (t : Text) (fault : Fault),
      read t = .error fault ↔
        trim t = [] ∧ fault = .malformed .emptyInstruction ∨
          Hollow (trim t) ∧ fault = .malformed (.emptyOperand (trim t)) := by
  refine ⟨fun t i => read_eq_ok_iff, fun i => ⟨spelled_render i, ?_⟩, fun t fault => ?_⟩
  · exact ⟨wellFormed_of_read, WellFormed.read_render⟩
  · rw [← read_trim, read_eq_error_iff (trimmed_trim t)]

-- A comma belongs to the mnemonic as long as no blank has been met, and a blank to the operand it stands in.
example : read " add,i\t$t0 ,4 ($sp)\r".toList = .ok ⟨"add,i".toList, ["$t0".toList, "4 ($sp)".toList]⟩ := rfl

end MipsAsm.InstrText
