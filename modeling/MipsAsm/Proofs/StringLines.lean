import MipsAsm.Proofs.LineGrammar

/-!
Lines with a string. The scan for comments, the search for a label and the reader of literals each look for
the end of a literal on their own; here they are shown to find the same one, so that every text comes back
from the line that it is written on.
-/

set_option autoImplicit false

namespace MipsAsm

open Outcome Text

/-- A line that defines a string, with white space where it may stand. -/
structure StringLine where
  label : Option Text
  chars : Text
  note : Option Text
  indent : Text
  gap : Text
  space : Text
  between : Text
  trail : Text
  label_isIdentifier : ∀ name ∈ label, isIdentifier name = true
  blank : ∀ t ∈ [indent, gap, space, between, trail], Gap t ∧ '\n' ∉ t
  between_ne_nil : between ≠ []
  feed_not_mem_note : ∀ text ∈ note, '\n' ∉ text

namespace StringLine

variable (line : StringLine)

def front : Text := line.label.elim [] fun name => name ++ line.gap ++ ':' :: line.space

def directive : Text := ".asciiz".toList ++ line.between

/-- The line without comment and outer blanks. -/
def core : Text := line.front ++ (line.directive ++ Literal.written line.chars)

def comment : Text := line.note.elim [] ('#' :: ·)

def text : Text := line.indent ++ line.core ++ line.trail ++ line.comment

/-- A character that white space inside of a line cannot be. -/
def Solid (c : Char) : Prop := isBlank c = false ∨ c = '\n'

theorem not_mem_blank {t : Text} (ht : t ∈ [line.indent, line.gap, line.space, line.between, line.trail])
    {c : Char} (hSolid : Solid c) : c ∉ t := by
  rcases hSolid with hBlank | rfl
  · exact (line.blank t ht).1.not_mem hBlank
  · exact (line.blank t ht).2

theorem not_mem_front {c : Char} (hSolid : Solid c) (hPart : isNamePart c = false) (hColon : c ≠ ':') :
    c ∉ line.front := by
  rw [front]
  cases hLabel : line.label with
  | none => exact List.not_mem_nil
  | some name =>
    have hName := not_mem_of_isIdentifier (line.label_isIdentifier name hLabel) hPart
    have hGap : c ∉ line.gap := line.not_mem_blank (by simp) hSolid
    have hSpace : c ∉ line.space := line.not_mem_blank (by simp) hSolid
    exact List.not_mem_append (List.not_mem_append hName hGap)
      (List.not_mem_cons_of_ne_of_not_mem hColon hSpace)

theorem not_mem_directive {c : Char} (hSolid : Solid c) (hName : c ∉ ".asciiz".toList) :
    c ∉ line.directive :=
  List.not_mem_append hName (line.not_mem_blank (by simp) hSolid)

theorem splitsAs_core :
    SourceLine.SplitsAs line.core line.label (line.directive ++ Literal.written line.chars) := by
  rw [core, front]
  cases hLabel : line.label with
  | none =>
    have hQuote : ∀ c ∈ line.directive, decide (c ≠ '"') = true := by
      intro c hc
      rw [decide_eq_true_eq]
      rintro rfl
      exact line.not_mem_directive (.inl rfl) (by decide) hc
    refine .plain ?_
    rw [Option.elim_none, List.nil_append, List.takeWhile_append_of_pos hQuote]
    exact List.not_mem_append (line.not_mem_directive (.inl rfl) (by decide)) List.not_mem_nil
  | some name =>
    exact .label (line.label_isIdentifier name hLabel) (line.blank line.gap (by simp)).1
      (line.blank line.space (by simp)).1

theorem covers_core :
    Entry.Covers line.core ⟨line.label, some (.string (Literal.utf8 line.chars))⟩ :=
  .statement line.splitsAs_core
    (.string (line.blank line.between (by simp)).1 line.between_ne_nil (Literal.spells_written line.chars))

theorem after_core : Scan.code.after line.core = some .code := by
  have hFront : Scan.code.after line.front = some .code :=
    Scan.after_code_of_not_mem (line.not_mem_front (.inl rfl) (by decide) (by decide))
      (line.not_mem_front (.inl rfl) (by decide) (by decide))
  have hDirective : Scan.code.after line.directive = some .code :=
    Scan.after_code_of_not_mem (line.not_mem_directive (.inl rfl) (by decide))
      (line.not_mem_directive (.inl rfl) (by decide))
  rw [core, Scan.after_append hFront, Scan.after_append hDirective,
    (Literal.spells_written line.chars).after_code]

theorem trimmed_core : Trimmed line.core := by
  have hLiteral := Literal.spells_written line.chars
  have hName : Trimmed ".asciiz".toList := trimmed_of_forall (not_blank_of_all (by decide))
  have hBody : Trimmed (line.directive ++ Literal.written line.chars) :=
    hName.append hLiteral.trimmed (by decide) hLiteral.ne_nil line.between
  rw [core, front]
  cases hLabel : line.label with
  | none => exact hBody
  | some name =>
    have hIdentifier := line.label_isIdentifier name hLabel
    have hNameNe : name ≠ [] := by
      rintro rfl
      cases hIdentifier
    rw [Option.elim_some, List.append_assoc name]
    exact (trimmed_of_isIdentifier hIdentifier).append hBody hNameNe
      (List.append_ne_nil_of_right_ne_nil _ hLiteral.ne_nil) _

theorem content_text : content line.text = line.core := by
  have hIndent := line.blank line.indent (by simp)
  have hTrail := line.blank line.trail (by simp)
  have hScan (t : Text) (ht : t ∈ [line.indent, line.gap, line.space, line.between, line.trail]) :
      Scan.code.after t = some .code :=
    Scan.after_code_of_not_mem (line.not_mem_blank ht (.inl rfl)) (line.not_mem_blank ht (.inl rfl))
  have hLine : content (line.indent ++ line.core ++ line.trail) = line.core := by
    rw [content_append_blanks hTrail.1, content_blanks_append hIndent.1, content,
      stripComment_of_after line.after_core, line.trimmed_core.trim_eq]
  rw [text, comment]
  cases line.note with
  | none => rw [Option.elim_none, List.append_nil, hLine]
  | some note =>
    have hAfter : Scan.code.after (line.indent ++ line.core ++ line.trail) = some .code := by
      rw [List.append_assoc, Scan.after_append (hScan _ (by simp)), Scan.after_append line.after_core,
        hScan _ (by simp)]
    rw [Option.elim_some, content_append_comment (.inl hAfter), hLine]

theorem feed_not_mem_text : '\n' ∉ line.text := by
  have hComment : '\n' ∉ line.comment := by
    rw [comment]
    cases hNote : line.note with
    | none => exact List.not_mem_nil
    | some note =>
      exact List.not_mem_cons_of_ne_of_not_mem (by decide) (line.feed_not_mem_note note hNote)
  have hCore : '\n' ∉ line.core :=
    List.not_mem_append (line.not_mem_front (.inr rfl) (by decide) (by decide))
      (List.not_mem_append (line.not_mem_directive (.inr rfl) (by decide)) (Literal.feed_not_mem_written _))
  have hIndent : '\n' ∉ line.indent := line.not_mem_blank (by simp) (.inr rfl)
  have hTrail : '\n' ∉ line.trail := line.not_mem_blank (by simp) (.inr rfl)
  exact List.not_mem_append (List.not_mem_append (List.not_mem_append hIndent hCore) hTrail) hComment

theorem readAll_text : SourceLine.readAll line.text =
    .ok [⟨⟨1, line.core⟩, line.label, some (.string (Literal.utf8 line.chars))⟩] := by
  have hEntry := line.covers_core.read_eq line.trimmed_core
  have hLiteral := (Literal.spells_written line.chars).ne_nil
  have hNe : content line.text ≠ [] := by
    rw [content_text]
    exact List.append_ne_nil_of_right_ne_nil _ (List.append_ne_nil_of_right_ne_nil _ hLiteral)
  rw [SourceLine.readAll_eq_ok_iff, SourceLine.sites_of_line line.feed_not_mem_text hNe, content_text]
  refine ⟨rfl, List.forall_mem_singleton.mpr ?_⟩
  rw [SourceLine.read_eq, hEntry]
  rfl

end StringLine

/-- Every text comes back from the line that defines it. A literal is what stands between two quotes and
is made of escapes and of characters that need none. -/
theorem string_lines_round_trip :
    (∀ line : StringLine, ∃ bytes : List UInt8,
      bytes.toByteArray = (String.ofList line.chars).toUTF8 ∧
        SourceLine.readAll line.text = .ok [⟨⟨1, line.core⟩, line.label, some (.string bytes)⟩]) ∧
    ∀ (t : Text) (bytes : List UInt8), Literal.read t = .ok bytes ↔
      ∃ (pieces : List Text) (chars : Text), t = '"' :: pieces.flatten ++ ['"'] ∧
        List.Forall₂ Literal.Piece pieces chars ∧ bytes.toByteArray = (String.ofList chars).toUTF8 := by
  refine ⟨fun line => ⟨_, Literal.toByteArray_utf8 line.chars, line.readAll_text⟩, fun t bytes => ?_⟩
  rw [Literal.read_eq_ok_iff]
  constructor
  · rintro ⟨chars, ⟨pieces, hText, hPieces⟩, rfl⟩
    exact ⟨pieces, chars, hText, hPieces, Literal.toByteArray_utf8 chars⟩
  · rintro ⟨pieces, chars, hText, hPieces, hBytes⟩
    refine ⟨chars, ⟨pieces, hText, hPieces⟩, ?_⟩
    rw [← Literal.toByteArray_utf8] at hBytes
    exact List.toByteArray_inj.mp hBytes

theorem string_lines_round_trip_marks : ∃ bytes : List UInt8,
    bytes.toByteArray = (String.ofList "a#:, \\".toList).toUTF8 ∧
      SourceLine.readAll "msg : .asciiz \"a#:, \\\\\" # \"".toList =
        .ok [⟨⟨1, "msg : .asciiz \"a#:, \\\\\"".toList⟩, some "msg".toList, some (.string bytes)⟩] := by
  have hBlank : Gap [' '] ∧ '\n' ∉ [' '] := ⟨List.forall_mem_singleton.mpr rfl, by decide⟩
  have hNone : Gap [] ∧ '\n' ∉ ([] : Text) := ⟨gap_nil, List.not_mem_nil⟩
  exact string_lines_round_trip.1
    { label := some "msg".toList, chars := "a#:, \\".toList, note := some " \"".toList, indent := []
      gap := [' '], space := [' '], between := [' '], trail := [' ']
      label_isIdentifier := fun name hName => Option.some.inj hName ▸ rfl
      blank := by simp [hBlank, hNone]
      between_ne_nil := List.cons_ne_nil _ _
      feed_not_mem_note := fun note hNote => Option.some.inj hNote ▸ by decide }

end MipsAsm
