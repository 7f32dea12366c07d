import MipsAsm.Proofs.Literals
import MipsAsm.Proofs.Sites
import MipsAsm.Proofs.Tokens

/-!
The grammar of a line: an optional label, and a statement behind it. A line that is accepted is covered
by its entry, every character of it, or it overruns: it goes on behind the name of a section, and what
stands there is dropped.
-/

set_option autoImplicit false

namespace MipsAsm

open Outcome Text

namespace SourceLine

/-- A line without a label is all body. A label is an identifier, and white space may stand on both sides
of its colon. -/
inductive SplitsAs : Text → Option Text → Text → Prop
  | plain {body : Text} (hColon : ':' ∉ body.takeWhile (· ≠ '"')) : SplitsAs body none body
  | label {name gap space body : Text} (hName : isIdentifier name = true) (hGap : Gap gap)
      (hSpace : Gap space) : SplitsAs (name ++ gap ++ ':' :: space ++ body) (some name) body

theorem dropWhile_of_mem_takeWhile {t : Text} (h : ':' ∈ t.takeWhile (· ≠ '"')) :
    ∃ body, t.dropWhile (fun c => c ≠ ':' && c ≠ '"') = ':' :: body := by
  induction t with
  | nil => cases h
  | cons c t ih =>
    by_cases hQuote : c = '"'
    · rw [List.takeWhile_cons_of_neg (by simpa using hQuote)] at h
      cases h
    by_cases hColon : c = ':'
    · exact ⟨t, by rw [hColon]; rfl⟩
    · rw [List.takeWhile_cons_of_pos (by simpa using hQuote)] at h
      obtain ⟨body, hBody⟩ := ih (List.mem_of_ne_of_mem (Ne.symm hColon) h)
      exact ⟨body, by rwa [List.dropWhile_cons_of_pos (by simp [hColon, hQuote])]⟩

theorem splitLabel_gap_append {name gap : Text} (hName : isIdentifier name = true) (hGap : Gap gap)
    (body : Text) : splitLabel (name ++ gap ++ ':' :: body) = .ok (some name, trim body) := by
  have hAll : ∀ c ∈ name ++ gap, (decide (c ≠ ':') && decide (c ≠ '"')) = true := by
    have hNot (mark : Char) (hPart : isNamePart mark = false) (hBlank : isBlank mark = false) :
        mark ∉ name ++ gap := by
      rw [List.mem_append]
      rintro (hMem | hMem)
      · exact not_mem_of_isIdentifier hName hPart hMem
      · exact hGap.not_mem hBlank hMem
    intro c hc
    have hColon : c ≠ ':' := fun hEq => hNot ':' (by decide) rfl (hEq ▸ hc)
    have hQuote : c ≠ '"' := fun hEq => hNot '"' (by decide) rfl (hEq ▸ hc)
    simp [hColon, hQuote]
  have hEnd : List.takeWhile (fun c => decide (c ≠ ':') && decide (c ≠ '"')) (':' :: body) = [] := rfl
  have hTrim : trim (name ++ gap) = name := by
    rw [trim_append_gap hGap, (trimmed_of_isIdentifier hName).trim_eq]
  simp only [splitLabel, List.dropWhile_append_of_pos hAll, List.takeWhile_append_of_pos hAll, hEnd,
    List.append_nil, hTrim, hName, if_true]
  rfl

theorem splitsAs_of_splitLabel {t body : Text} {label : Option Text} (hTrimmed : Trimmed t)
    (h : splitLabel t = .ok (label, body)) : SplitsAs t label body ∧ Trimmed body := by
  by_cases hColon : ':' ∈ t.takeWhile (· ≠ '"')
  · obtain ⟨rest, hRest⟩ := dropWhile_of_mem_takeWhile hColon
    simp only [splitLabel, hRest] at h
    generalize hFront : t.takeWhile (fun c => c ≠ ':' && c ≠ '"') = front at h
    have hText : t = front ++ ':' :: rest := by
      rw [← hFront, ← hRest, List.takeWhile_append_dropWhile]
    split at h
    · rename_i hName
      cases h
      obtain ⟨left, gap, hLeft, hGap, hSides⟩ := exists_gaps front
      have hLeftNil : left = [] := by
        rw [hText, hSides, List.append_assoc, List.append_assoc] at hTrimmed
        exact hTrimmed.eq_nil_of_gap_append hLeft
      rw [hLeftNil, List.nil_append] at hSides
      rw [hText, List.append_cons] at hTrimmed
      obtain ⟨space, hSpace, hBody⟩ := hTrimmed.exists_gap
      have hLine : t = trim front ++ gap ++ ':' :: space ++ trim rest := by
        rw [← hSides, List.append_assoc, List.cons_append, ← hBody, hText]
      rw [hLine]
      exact ⟨.label hName hGap hSpace, trimmed_trim rest⟩
    · cases h
  · rw [splitLabel_of_takeWhile hColon] at h
    cases h
    exact ⟨.plain hColon, hTrimmed⟩

theorem SplitsAs.splitLabel_eq {t body : Text} {label : Option Text} (h : SplitsAs t label body)
    (hBody : Trimmed body) : splitLabel t = .ok (label, body) := by
  cases h with
  | plain hColon => exact splitLabel_of_takeWhile hColon
  | @label name gap space _ hName hGap hSpace =>
    rw [List.append_assoc, List.cons_append, splitLabel_gap_append hName hGap, trim_gap_append hSpace,
      hBody.trim_eq]

theorem SplitsAs.trimmed {t body : Text} {label : Option Text} (h : SplitsAs t label body)
    (hTrimmed : Trimmed t) (hHead : ∃ c rest, body = c :: rest ∧ isBlank c = false) : Trimmed body := by
  obtain ⟨c, rest, rfl, hFirst⟩ := hHead
  refine ⟨fun _ hc => Option.some.inj hc ▸ hFirst, ?_⟩
  cases h with
  | plain => exact hTrimmed.last
  | label =>
    rw [← List.getLast?_append_of_ne_nil _ (List.cons_ne_nil c rest)]
    exact hTrimmed.last

end SourceLine

def Segment.directive : Segment → Text
  | .text => ".text".toList
  | .data => ".data".toList

namespace Statement

/-- The text is the statement and nothing else. -/
inductive Covers : Text → Statement → Prop
  | segment (s : Segment) : Covers s.directive (.segment s)
  | string {gap literal chars : Text} (hGap : Gap gap) (hGapNe : gap ≠ [])
      (hLiteral : Literal.Spells literal chars) :
      Covers (".asciiz".toList ++ gap ++ literal) (.string (Literal.utf8 chars))
  | instr {t : Text} {i : InstrText} (hDot : t.head? ≠ some '.') (hForm : i.WellFormed)
      (hText : InstrText.Spelled t i) : Covers t (.instr i)

/-- The text goes on behind the name of a section. -/
inductive Overruns : Text → Statement → Prop
  | segment (s : Segment) {c : Char} (hBlank : isBlank c = true) (rest : Text) :
      Overruns (s.directive ++ c :: rest) (.segment s)

theorem covers_or_overruns_of_read {body : Text} {s : Statement} (hTrimmed : Trimmed body)
    (h : Statement.read body = .ok s) : Covers body s ∨ Overruns body s := by
  have hSegment (segment : Segment) (hWord : (splitBlank body).1 = segment.directive) :
      Covers body (.segment segment) ∨ Overruns body (.segment segment) := by
    obtain ⟨hText, -⟩ | ⟨c, rest, hBlank, hText, -⟩ := eq_append_splitBlank body
    · rw [hText, hWord]
      exact .inl (.segment segment)
    · rw [hText, hWord]
      exact .inr (.segment segment hBlank rest)
  simp only [Statement.read] at h
  split at h
  · split at h
    · rename_i hWord
      cases h
      exact hSegment .text hWord
    split at h
    · rename_i hWord
      cases h
      exact hSegment .data hWord
    split at h
    · rename_i hWord
      obtain ⟨bytes, hRead, rfl⟩ := map_eq_ok.mp h
      obtain ⟨chars, hSpells, rfl⟩ := Literal.read_eq_ok_iff.mp hRead
      left
      obtain ⟨-, hRest⟩ | ⟨c, rest, hBlank, hText, hRest⟩ := eq_append_splitBlank body
      · exact absurd hRest hSpells.ne_nil
      · rw [hText] at hTrimmed
        obtain ⟨gap, hGap, hGapNe, -, hSplit⟩ := hTrimmed.exists_gap_of_blank hBlank
        rw [hText, hSplit, hWord, ← hRest, ← List.append_assoc]
        exact .string hGap hGapNe hSpells
    · cases h
  · rename_i hDot
    obtain ⟨i, hRead, rfl⟩ := map_eq_ok.mp h
    exact .inl (.instr hDot (InstrText.wellFormed_of_read hRead) (InstrText.spelled_of_read hTrimmed hRead))

theorem Covers.read_eq {body : Text} {s : Statement} (h : Covers body s) : Statement.read body = .ok s := by
  cases h with
  | segment s => cases s <;> rfl
  | @string gap literal chars hGap hGapNe hLiteral =>
    obtain ⟨c, blanks, rfl⟩ := List.exists_cons_of_ne_nil hGapNe
    obtain ⟨hBlank, hBlanks⟩ := List.forall_mem_cons.mp hGap
    have hSplit : splitBlank (".asciiz".toList ++ c :: (blanks ++ literal)) = (".asciiz".toList, literal) := by
      rw [splitBlank_append (not_blank_of_all (by decide)) hBlank, trim_gap_append hBlanks,
        hLiteral.trimmed.trim_eq]
    have hDot : (".asciiz".toList ++ c :: (blanks ++ literal)).head? = some '.' := rfl
    rw [List.append_assoc, List.cons_append, Statement.read, if_pos hDot, hSplit]
    change (Literal.read literal).map Statement.string = _
    rw [Literal.read_eq_ok_iff.mpr ⟨chars, hLiteral, rfl⟩]
    rfl
  | @instr t i hDot hForm hText =>
    rw [Statement.read, if_neg hDot, hText.read_eq hForm]
    rfl

theorem Overruns.read_eq {body : Text} {s : Statement} (h : Overruns body s) :
    Statement.read body = .ok s := by
  obtain @⟨segment, c, hBlank, rest⟩ := h
  have hDirective : ∀ c ∈ segment.directive, isBlank c = false := by
    cases segment
    · exact not_blank_of_all (by decide)
    · exact not_blank_of_all (by decide)
  have hDot : (segment.directive ++ c :: rest).head? = some '.' := by cases segment <;> rfl
  rw [Statement.read, if_pos hDot, splitBlank_append hDirective hBlank]
  cases segment <;> rfl

theorem Covers.exists_cons {body : Text} {s : Statement} (h : Covers body s) :
    ∃ c rest, body = c :: rest ∧ isBlank c = false := by
  cases h with
  | segment s =>
    cases s
    · exact ⟨'.', "text".toList, rfl, rfl⟩
    · exact ⟨'.', "data".toList, rfl, rfl⟩
  | string => exact ⟨'.', _, rfl, rfl⟩
  | @instr _ i hDot hForm hText =>
    obtain ⟨rest, rfl⟩ := hText.exists_append
    obtain ⟨c, mnemonic, hMnemonic⟩ := List.exists_cons_of_ne_nil hForm.mnemonic_ne_nil
    refine ⟨c, mnemonic ++ rest, by rw [hMnemonic, List.cons_append], ?_⟩
    exact hForm.mnemonic_not_blank c (hMnemonic ▸ List.mem_cons_self)

theorem Overruns.exists_cons {body : Text} {s : Statement} (h : Overruns body s) :
    ∃ c rest, body = c :: rest ∧ isBlank c = false := by
  obtain ⟨segment, hBlank, rest⟩ := h
  cases segment
  · exact ⟨'.', _, rfl, rfl⟩
  · exact ⟨'.', _, rfl, rfl⟩

theorem Covers.not_overruns {body : Text} {s : Statement} (h : Covers body s) : ¬Overruns body s := by
  rintro @⟨segment, c, hBlank, rest⟩
  generalize hBody : segment.directive ++ c :: rest = body at h
  cases h
  exact List.cons_ne_nil c rest (List.append_right_eq_self.mp hBody)

end Statement

namespace Entry

/-- The whole line is the label and the statement. -/
inductive Covers : Text → Entry → Prop
  | label {t : Text} {label : Option Text} (hSplit : SourceLine.SplitsAs t label []) : Covers t ⟨label, none⟩
  | statement {t body : Text} {label : Option Text} {s : Statement}
      (hSplit : SourceLine.SplitsAs t label body) (hBody : Statement.Covers body s) :
      Covers t ⟨label, some s⟩

inductive Overruns : Text → Entry → Prop
  | statement {t body : Text} {label : Option Text} {s : Statement}
      (hSplit : SourceLine.SplitsAs t label body) (hBody : Statement.Overruns body s) :
      Overruns t ⟨label, some s⟩

theorem covers_or_overruns_of_read {t : Text} {e : Entry} (hTrimmed : Trimmed t) (h : Entry.read t = .ok e) :
    Covers t e ∨ Overruns t e := by
  obtain ⟨⟨label, body⟩, hSplit, h⟩ := bind_eq_ok.mp h
  obtain ⟨hSplits, hBody⟩ := SourceLine.splitsAs_of_splitLabel hTrimmed hSplit
  dsimp only at h
  split at h
  · rename_i hEmpty
    rw [List.isEmpty_iff.mp hEmpty] at hSplits
    cases h
    exact .inl (.label hSplits)
  · obtain ⟨s, hRead, h⟩ := bind_eq_ok.mp h
    cases h
    rcases Statement.covers_or_overruns_of_read hBody hRead with hCovers | hOverruns
    · exact .inl (.statement hSplits hCovers)
    · exact .inr (.statement hSplits hOverruns)

theorem read_of_splitsAs {t body : Text} {label : Option Text} {s : Statement} (hTrimmed : Trimmed t)
    (hSplit : SourceLine.SplitsAs t label body) (hHead : ∃ c rest, body = c :: rest ∧ isBlank c = false)
    (hRead : Statement.read body = .ok s) : Entry.read t = .ok ⟨label, some s⟩ := by
  have hBody := hSplit.trimmed hTrimmed hHead
  obtain ⟨c, rest, rfl, -⟩ := hHead
  exact read_of_split (hSplit.splitLabel_eq hBody) (List.cons_ne_nil c rest) hRead

theorem Covers.read_eq {t : Text} {e : Entry} (h : Covers t e) (hTrimmed : Trimmed t) :
    Entry.read t = .ok e := by
  cases h with
  | label hSplit => exact bind_eq_ok.mpr ⟨_, hSplit.splitLabel_eq ⟨nofun, nofun⟩, rfl⟩
  | statement hSplit hBody => exact read_of_splitsAs hTrimmed hSplit hBody.exists_cons hBody.read_eq

theorem Overruns.read_eq {t : Text} {e : Entry} (h : Overruns t e) (hTrimmed : Trimmed t) :
    Entry.read t = .ok e := by
  obtain ⟨hSplit, hBody⟩ := h
  exact read_of_splitsAs hTrimmed hSplit hBody.exists_cons hBody.read_eq

theorem Covers.not_overruns {t : Text} {e : Entry} (h : Covers t e) (hTrimmed : Trimmed t) :
    ¬Overruns t e := by
  rintro ⟨hOther, hOverruns⟩
  cases h with
  | statement hSplit hCovers =>
    have hBody := hSplit.splitLabel_eq (hSplit.trimmed hTrimmed hCovers.exists_cons)
    rw [hOther.splitLabel_eq (hOther.trimmed hTrimmed hOverruns.exists_cons)] at hBody
    cases hBody
    exact hCovers.not_overruns hOverruns

end Entry

/-- A trimmed line is accepted with the entries that cover it, and besides them only with the section that
it overruns. -/
theorem accepted_lines_are_covered_or_overrun (site : Site) (hTrimmed : Trimmed site.text)
    (line : SourceLine) :
    (SourceLine.read site = .ok line ↔
      line.site = site ∧ (Entry.Covers site.text line.entry ∨ Entry.Overruns site.text line.entry)) ∧
    ¬(Entry.Covers site.text line.entry ∧ Entry.Overruns site.text line.entry) := by
  refine ⟨⟨fun hRead => ?_, ?_⟩, fun hBoth => hBoth.1.not_overruns hTrimmed hBoth.2⟩
  · exact ⟨SourceLine.site_of_read hRead,
      Entry.covers_or_overruns_of_read hTrimmed (SourceLine.entry_of_read hRead)⟩
  · rintro ⟨rfl, hLine⟩
    have hEntry : Entry.read line.site.text = .ok line.entry := by
      rcases hLine with hCovers | hOverruns
      · exact hCovers.read_eq hTrimmed
      · exact hOverruns.read_eq hTrimmed
    rw [SourceLine.read_eq, hEntry]
    rfl

theorem accepted_lines_are_covered_or_overrun_spaced :
    let site : Site := ⟨7, "next : sw $t0 , 4($sp)".toList⟩
    let line : SourceLine :=
      ⟨site, some "next".toList, some (.instr ⟨"sw".toList, ["$t0".toList, "4($sp)".toList]⟩)⟩
    Trimmed site.text ∧ SourceLine.read site = .ok line ∧
      (Entry.Covers site.text line.entry ∨ Entry.Overruns site.text line.entry) := by
  have hTrimmed : Trimmed "next : sw $t0 , 4($sp)".toList := by
    constructor
    · rintro c ⟨⟩
      rfl
    · rintro c ⟨⟩
      rfl
  exact ⟨hTrimmed, rfl, ((accepted_lines_are_covered_or_overrun ⟨7, _⟩ hTrimmed _).1.mp rfl).2⟩

/-- The operand behind the section is dropped without a word. -/
theorem section_operand_is_dropped :
    let site : Site := ⟨1, ".text 0x1000".toList⟩
    SourceLine.read site = .ok ⟨site, none, some (.segment .text)⟩ ∧
      ¬Entry.Covers site.text ⟨none, some (.segment .text)⟩ := by
  refine ⟨rfl, ?_⟩
  generalize hText : ".text 0x1000".toList = t
  rintro (_ | ⟨hSplit, hBody⟩)
  cases hSplit
  cases hBody
  revert hText
  decide

end MipsAsm
