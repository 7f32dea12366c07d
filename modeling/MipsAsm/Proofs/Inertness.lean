import MipsAsm.Program.Image
import MipsAsm.Proofs.Sites

/-!
Edits that say nothing: blank lines and comment lines put in, comments and blanks added to lines. Each
leaves the contents of the other lines as they are, so the sites of the edited source are those of the
source with other numbers. Reading, laying out and encoding never look at the numbers, and give the same
with the numbers changed.
-/

set_option autoImplicit false

namespace MipsAsm

open Outcome Text

section Renumbering

variable (f : Nat → Nat)

def Site.renumber (site : Site) : Site := { site with line := f site.line }

def Diagnostic.renumber : Diagnostic → Diagnostic
  | fault cause => fault cause
  | located site cause => located (site.renumber f) cause.renumber

def SourceLine.renumber (line : SourceLine) : SourceLine := { line with site := line.site.renumber f }

def Placed.renumber (p : Placed) : Placed := { p with site := p.site.renumber f }

def Layout.renumber (l : Layout) : Layout := { l with text := l.text.map (Placed.renumber f) }

theorem locate_renumber {α β : Type} (r : α → β) (site : Site) (x : Except Fault α) :
    Diagnostic.locate (site.renumber f) (carry id r x) =
      carry (Diagnostic.renumber f) r (Diagnostic.locate site x) := by
  cases x <;> rfl

theorem SourceLine.read_renumber (site : Site) :
    SourceLine.read (site.renumber f) = carry id (SourceLine.renumber f) (SourceLine.read site) := by
  rw [read_eq, read_eq]
  change Except.map _ (Entry.read site.text) = _
  cases Entry.read site.text <;> rfl

namespace Layout

variable (l : Layout)

theorem bindLabel_renumber (label : Option Text) :
    (l.renumber f).bindLabel label = carry id (renumber f) (l.bindLabel label) := by
  cases label with
  | none => rfl
  | some name =>
    change (l.symbols.bind l.segment name l.here >>= _) = carry id (renumber f) (_ >>= _)
    cases l.symbols.bind l.segment name l.here <;> rfl

theorem emitInstr_renumber (site : Site) (i : SymInstr) :
    (l.renumber f).emitInstr (site.renumber f) i = (l.emitInstr site i).renumber f := by
  simp only [emitInstr, renumber, Array.map_push]
  rfl

theorem emit_renumber (site : Site) (statement : Statement) :
    (l.renumber f).emit (site.renumber f) statement = carry id (renumber f) (l.emit site statement) := by
  have hSegment : (l.renumber f).segment = l.segment := rfl
  cases statement with
  | segment next => rfl
  | string bytes =>
    rw [emit, emit, hSegment]
    cases l.segment <;> rfl
  | instr i =>
    rw [emit, emit, hSegment]
    cases l.segment with
    | data => rfl
    | text =>
      dsimp only
      cases i.expand with
      | error fault => rfl
      | ok concrete =>
        refine foldlM_carry (fun now c => ?_) concrete l
        cases SymInstr.read c with
        | error fault => rfl
        | ok s => exact congrArg Except.ok (now.emitInstr_renumber f site s)

theorem step_renumber (line : SourceLine) :
    (l.renumber f).step (line.renumber f) = carry id (renumber f) (l.step line) := by
  obtain ⟨site, label, statement⟩ := line
  cases statement with
  | none =>
    have hBind (now : Layout) (place : Site) : now.step ⟨place, label, none⟩ = now.bindLabel label := by
      cases label <;> rfl
    rw [SourceLine.renumber, hBind, hBind]
    exact l.bindLabel_renumber f label
  | some statement =>
    have hEmit : (do (← (l.renumber f).bindLabel label).emit (site.renumber f) statement) =
        carry id (renumber f) (do (← l.bindLabel label).emit site statement) := by
      rw [bindLabel_renumber]
      exact carry_bind (fun bound => bound.emit_renumber f site statement) _
    cases label with
    | none => exact hEmit
    | some name =>
      cases statement with
      | segment next => rfl
      | string bytes => exact hEmit
      | instr i => exact hEmit

theorem ofLines_renumber (bases : Bases) (lines : List SourceLine) :
    ofLines bases (lines.map (SourceLine.renumber f)) =
      carry (Diagnostic.renumber f) (renumber f) (ofLines bases lines) := by
  have hStart : (start bases).renumber f = start bases := by
    simp [start, renumber]
  rw [ofLines, ofLines, List.foldlM_map]
  nth_rewrite 1 [← hStart]
  refine foldlM_carry (fun now line => ?_) lines (start bases)
  rw [step_renumber]
  exact locate_renumber f _ _ _

theorem words_renumber : (l.renumber f).words = carry (Diagnostic.renumber f) id l.words := by
  have hText : (l.renumber f).text.toList = l.text.toList.map (Placed.renumber f) := Array.toList_map
  rw [words, words, hText, List.mapM_map, ← List.map_id_fun]
  refine mapM_carry (fun p => ?_) l.text.toList
  change Diagnostic.locate (p.site.renumber f) (p.instr.word l.symbols p.address) = _
  cases p.instr.word l.symbols p.address <;> rfl

end Layout

section Sources

variable {source other : Text}
  (h : SourceLine.sites other = (SourceLine.sites source).map (Site.renumber f))

include h

theorem readAll_renumber :
    SourceLine.readAll other =
      carry (Diagnostic.renumber f) (List.map (SourceLine.renumber f)) (SourceLine.readAll source) := by
  rw [SourceLine.readAll, SourceLine.readAll, h, List.mapM_map]
  refine mapM_carry (fun site => ?_) _
  rw [Function.comp_apply, SourceLine.read_renumber]
  exact locate_renumber f _ site _

theorem entries_renumber :
    (SourceLine.readAll other).map (List.map SourceLine.entry) =
      ((SourceLine.readAll source).map (List.map SourceLine.entry)).mapError (Diagnostic.renumber f) := by
  rw [readAll_renumber f h]
  cases SourceLine.readAll source with
  | error d => rfl
  | ok lines =>
    have hEntry : (lines.map (SourceLine.renumber f)).map SourceLine.entry = lines.map SourceLine.entry := by
      rw [List.map_map]
      rfl
    exact congrArg Except.ok hEntry

theorem assemble_renumber (bases : Bases) :
    assemble bases other = (assemble bases source).mapError (Diagnostic.renumber f) := by
  rw [← carry_id, assemble, assemble, readAll_renumber f h]
  refine carry_bind (fun lines => ?_) _
  rw [Layout.ofLines_renumber]
  refine carry_bind (fun layout => ?_) _
  rw [Layout.words_renumber]
  cases layout.words <;> rfl

end Sources

end Renumbering

/-- Where a scan stands behind a text, unless it has met a comment. -/
def Scan.after : Scan → Text → Option Scan
  | scan, [] => some scan
  | scan, c :: rest => if scan = code ∧ c = '#' then none else after (scan.next c) rest

theorem Scan.beforeComment_append_of_none {scan : Scan} {t : Text} (h : scan.after t = none) (rest : Text) :
    scan.beforeComment (t ++ rest) = scan.beforeComment t := by
  induction t generalizing scan with
  | nil => cases h
  | cons c t ih =>
    rw [after] at h
    rw [List.cons_append, beforeComment, beforeComment]
    split at h
    · rename_i hMark
      rw [if_pos hMark, if_pos hMark]
    · rename_i hMark
      rw [if_neg hMark, if_neg hMark, ih h]

theorem Scan.next_code {c : Char} (hQuote : c ≠ '"') : code.next c = code := by
  rw [next.eq_def]
  split <;> simp_all

theorem Scan.beforeComment_append_of_some {scan next : Scan} {t : Text} (h : scan.after t = some next)
    (rest : Text) : scan.beforeComment (t ++ rest) = t ++ next.beforeComment rest := by
  induction t generalizing scan with
  | nil =>
    cases h
    rfl
  | cons c t ih =>
    rw [after] at h
    split at h
    · cases h
    · rename_i hMark
      rw [List.cons_append, beforeComment, if_neg hMark, ih h, List.cons_append]

namespace Text

theorem stripComment_of_after {t : Text} (h : Scan.code.after t = some .code) : stripComment t = t := by
  have hText := Scan.beforeComment_append_of_some h []
  rwa [Scan.beforeComment, List.append_nil] at hText

/-- A comment behind text that ends outside of literals, or in a comment, is left out with its mark. -/
theorem content_append_comment {line : Text}
    (hOutside : Scan.code.after line = some .code ∨ Scan.code.after line = none) (note : Text) :
    content (line ++ '#' :: note) = content line := by
  rw [content, content]
  rcases hOutside with hCode | hNone
  · have hComment : Scan.code.beforeComment ('#' :: note) = [] := rfl
    rw [stripComment_of_after hCode, stripComment, Scan.beforeComment_append_of_some hCode, hComment,
      List.append_nil]
  · rw [stripComment, stripComment, Scan.beforeComment_append_of_none hNone]

theorem content_append_blanks {blanks : Text} (hBlanks : ∀ c ∈ blanks, isBlank c = true) (line : Text) :
    content (line ++ blanks) = content line := by
  induction blanks generalizing line with
  | nil => rw [List.append_nil]
  | cons c blanks ih =>
    obtain ⟨hHead, hTail⟩ := List.forall_mem_cons.mp hBlanks
    rw [List.append_cons, ih hTail, content_append_blank hHead]

theorem content_cons_blank {c : Char} (hBlank : isBlank c = true) (line : Text) :
    content (c :: line) = content line := by
  have hMark : c ≠ '#' := by
    rintro rfl
    cases hBlank
  have hQuote : c ≠ '"' := by
    rintro rfl
    cases hBlank
  rw [content, content, stripComment, Scan.beforeComment, if_neg (fun hBoth => hMark hBoth.2),
    Scan.next_code hQuote, trim_cons_blank hBlank]
  rfl

theorem content_blanks_append {blanks : Text} (hBlanks : ∀ c ∈ blanks, isBlank c = true) (line : Text) :
    content (blanks ++ line) = content line := by
  induction blanks with
  | nil => rfl
  | cons c blanks ih =>
    obtain ⟨hHead, hTail⟩ := List.forall_mem_cons.mp hBlanks
    rw [List.cons_append, content_cons_blank hHead, ih hTail]

/-- The first character that is no blank, if there is one, starts a comment. -/
def Idle (line : Text) : Prop := ∀ c ∈ (trimStart line).head?, c = '#'

theorem Idle.content_eq {line : Text} (h : Idle line) : content line = [] := by
  have hBlanks : ∀ c ∈ line.takeWhile isBlank, isBlank c = true := fun c hc => List.mem_takeWhile_imp hc
  rw [← List.takeWhile_append_dropWhile (p := isBlank) (l := line), content_blanks_append hBlanks]
  unfold Idle trimStart at h
  cases hRest : line.dropWhile isBlank with
  | nil => rfl
  | cons c note =>
    rw [hRest] at h
    rw [h c rfl]
    rfl

/-- A line with a comment or with white space added to it. -/
inductive Decorated : Text → Text → Prop
  | comment {line note : Text} (hOutside : Scan.code.after line = some .code ∨ Scan.code.after line = none)
      (hFeed : '\n' ∉ note) : Decorated line (line ++ '#' :: note)
  | indent {line blanks : Text} (hBlanks : ∀ c ∈ blanks, isBlank c = true) (hFeed : '\n' ∉ blanks) :
      Decorated line (blanks ++ line)
  | trail {line blanks : Text} (hBlanks : ∀ c ∈ blanks, isBlank c = true) (hFeed : '\n' ∉ blanks) :
      Decorated line (line ++ blanks)

theorem Decorated.content_eq {line edited : Text} (h : Decorated line edited) :
    content edited = content line := by
  cases h with
  | comment hOutside hFeed => exact content_append_comment hOutside _
  | indent hBlanks hFeed => exact content_blanks_append hBlanks line
  | trail hBlanks hFeed => exact content_append_blanks hBlanks line

theorem Decorated.feed_not_mem {line edited : Text} (h : Decorated line edited) (hLine : '\n' ∉ line) :
    '\n' ∉ edited := by
  cases h <;> simp_all

end Text

/-- One edit of the pieces between line feeds, and the number that a line has behind it: an idle line is put
between two others, or a line, which may end in a carriage return, is decorated. -/
inductive LineEdit : (Nat → Nat) → List Text → List Text → Prop
  | insert {line : Text} (front back : List Text) (hIdle : Idle line) (hFeed : '\n' ∉ line) :
      LineEdit (fun n => if n ≤ front.length then n else n + 1) (front ++ back) (front ++ line :: back)
  | decorate {line edited ending : Text} (front back : List Text) (hLine : Decorated line edited)
      (hEnding : ending = [] ∨ ending = ['\r']) :
      LineEdit id (front ++ (line ++ ending) :: back) (front ++ (edited ++ ending) :: back)

inductive LineEdits : (Nat → Nat) → List Text → List Text → Prop
  | nil (lines : List Text) : LineEdits id lines lines
  | cons {f g : Nat → Nat} {first second last : List Text} (hHead : LineEdit f first second)
      (hTail : LineEdits g second last) : LineEdits (g ∘ f) first last

namespace SourceLine

theorem sitesFrom_renumber {f : Nat → Nat} {n m : Nat} {lines : List Text}
    (h : ∀ k < lines.length, f (n + k) = m + k) :
    (sitesFrom n lines).map (Site.renumber f) = sitesFrom m lines := by
  induction lines generalizing n m with
  | nil => rfl
  | cons line rest ih =>
    have hHead : f n = m := h 0 (Nat.zero_lt_succ _)
    have hTail : ∀ k < rest.length, f (n + 1 + k) = m + 1 + k := by
      intro k hk
      have hNext := h (k + 1) (Nat.succ_lt_succ hk)
      rwa [Nat.add_right_comm n, Nat.add_right_comm m]
    rw [sitesFrom, sitesFrom, ← ih hTail]
    split
    · rfl
    · rw [List.map_cons, Site.renumber, hHead]

end SourceLine

namespace LineEdit

variable {f : Nat → Nat} {lines edited : List Text}

theorem sitesFrom_eq (h : LineEdit f lines edited) :
    SourceLine.sitesFrom 1 edited = (SourceLine.sitesFrom 1 lines).map (Site.renumber f) := by
  cases h with
  | insert front back hIdle hFeed =>
    rw [SourceLine.sitesFrom_append, SourceLine.sitesFrom_append, List.map_append, SourceLine.sitesFrom,
      if_pos hIdle.content_eq]
    congr 1
    · refine (SourceLine.sitesFrom_renumber (fun k hk => ?_)).symm
      exact if_pos (by omega)
    · refine (SourceLine.sitesFrom_renumber (fun k hk => ?_)).symm
      rw [if_neg (by omega)]
      omega
  | @decorate line changed ending front back hLine hEnding =>
    have hContent : content (changed ++ ending) = content (line ++ ending) := by
      have hBlanks : ∀ c ∈ ending, isBlank c = true := by
        rcases hEnding with rfl | rfl
        · exact List.forall_mem_nil _
        · exact List.forall_mem_singleton.mpr rfl
      rw [content_append_blanks hBlanks, content_append_blanks hBlanks, hLine.content_eq]
    rw [SourceLine.sitesFrom_renumber (fun k _ => rfl)]
    refine SourceLine.sitesFrom_congr ?_ 1
    rw [List.map_append, List.map_append, List.map_cons, List.map_cons, hContent]

theorem feed_not_mem (h : LineEdit f lines edited) (hLines : ∀ line ∈ lines, '\n' ∉ line) :
    ∀ line ∈ edited, '\n' ∉ line := by
  cases h with
  | insert front back hIdle hFeed =>
    obtain ⟨hFront, hBack⟩ := List.forall_mem_append.mp hLines
    exact List.forall_mem_append.mpr ⟨hFront, List.forall_mem_cons.mpr ⟨hFeed, hBack⟩⟩
  | decorate front back hLine hEnding =>
    obtain ⟨hFront, hRest⟩ := List.forall_mem_append.mp hLines
    obtain ⟨hOld, hBack⟩ := List.forall_mem_cons.mp hRest
    obtain ⟨hText, hEnd⟩ := not_or.mp (List.mem_append.not.mp hOld)
    have hNew := List.mem_append.not.mpr (not_or.mpr ⟨hLine.feed_not_mem hText, hEnd⟩)
    exact List.forall_mem_append.mpr ⟨hFront, List.forall_mem_cons.mpr ⟨hNew, hBack⟩⟩

end LineEdit

namespace LineEdits

variable {f : Nat → Nat} {lines edited : List Text}

theorem sitesFrom_eq (h : LineEdits f lines edited) :
    SourceLine.sitesFrom 1 edited = (SourceLine.sitesFrom 1 lines).map (Site.renumber f) := by
  induction h with
  | nil lines => exact (SourceLine.sitesFrom_renumber (fun k _ => rfl)).symm
  | cons hHead hTail ih =>
    rw [ih, hHead.sitesFrom_eq, List.map_map]
    rfl

theorem feed_not_mem (h : LineEdits f lines edited) (hLines : ∀ line ∈ lines, '\n' ∉ line) :
    ∀ line ∈ edited, '\n' ∉ line := by
  induction h with
  | nil lines => exact hLines
  | cons hHead hTail ih => exact ih (hHead.feed_not_mem hLines)

theorem sites_joined {source : Text} (h : LineEdits f (source.splitOn '\n') edited) :
    SourceLine.sites (joined ['\n'] edited) = (SourceLine.sites source).map (Site.renumber f) := by
  have hPieces : ∀ piece ∈ source.splitOn '\n', '\n' ∉ piece :=
    fun piece hPiece hFeed => (mem_of_mem_splitOn hPiece hFeed).2 rfl
  rw [SourceLine.sites_joined (h.feed_not_mem hPieces), h.sitesFrom_eq, SourceLine.sites_eq_splitOn]

end LineEdits

/-- No sequence of edits that add comments, idle lines and white space around lines changes what the lines
say or what is assembled from them, and an error only changes in the number of its line. -/
theorem comments_and_blanks_are_inert {f : Nat → Nat} {source : Text} {edited : List Text}
    (h : LineEdits f (source.splitOn '\n') edited) (bases : Bases) :
    (SourceLine.readAll (joined ['\n'] edited)).map (List.map SourceLine.entry) =
        ((SourceLine.readAll source).map (List.map SourceLine.entry)).mapError (Diagnostic.renumber f) ∧
      assemble bases (joined ['\n'] edited) = (assemble bases source).mapError (Diagnostic.renumber f) :=
  ⟨entries_renumber f h.sites_joined, assemble_renumber f h.sites_joined bases⟩

theorem comments_and_blanks_are_inert_shifted :
    ∃ fault, assemble {} ".data\nx: .asciiz \"#\\\"\"\r\nnop".toList =
        .error (.located ⟨3, "nop".toList⟩ (.fault fault)) ∧
      assemble {} " # \"\n.data\nx: .asciiz \"#\\\"\"#\"\\\r\n\tnop".toList =
        .error (.located ⟨4, "nop".toList⟩ (.fault fault)) := by
  have hFails : ∃ fault, assemble {} ".data\nx: .asciiz \"#\\\"\"\r\nnop".toList =
      .error (.located ⟨3, "nop".toList⟩ (.fault fault)) := ⟨_, rfl⟩
  obtain ⟨fault, hFault⟩ := hFails
  have hIdle : Idle " # \"".toList := by
    rintro c ⟨⟩
    rfl
  have hNote : Decorated "x: .asciiz \"#\\\"\"".toList ("x: .asciiz \"#\\\"\"".toList ++ '#' :: "\"\\".toList) :=
    .comment (.inl rfl) (by decide)
  have hIndent : Decorated "nop".toList (['\t'] ++ "nop".toList) :=
    .indent (List.forall_mem_singleton.mpr rfl) (by decide)
  have hEdits : LineEdits _ (".data\nx: .asciiz \"#\\\"\"\r\nnop".toList.splitOn '\n')
      [" # \"".toList, ".data".toList, "x: .asciiz \"#\\\"\"#\"\\\r".toList, "\tnop".toList] :=
    .cons (.insert [] _ hIdle (by decide))
      (.cons (.decorate [_, _] [_] hNote (.inr rfl)) (.cons (.decorate [_, _, _] [] hIndent (.inl rfl)) (.nil _)))
  refine ⟨fault, hFault, (comments_and_blanks_are_inert hEdits {}).2.trans ?_⟩
  rw [hFault]
  rfl

end MipsAsm
