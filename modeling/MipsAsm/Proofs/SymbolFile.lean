import MipsAsm.Command.Assemble
import MipsAsm.Proofs.FirstBinding
import MipsAsm.Proofs.Operands
import MipsAsm.Proofs.Sites

/-!
The file of a symbol table. Its text is said line by line, without the JSON values that are rendered to it:
labels are identifiers, so nothing in them is escaped. No brace, comma or quote stands inside of what it
separates, so the text can be taken apart again and determines the table.
-/

set_option autoImplicit false

namespace MipsAsm

open Outcome Text

/-- All labels are identifiers. -/
def Symbols.Named (s : Symbols) : Prop :=
  ∀ segment, ∀ entry ∈ (s.ofSegment segment).entries, isIdentifier entry.1 = true

theorem SourceLine.label_isIdentifier {site : Site} {line : SourceLine} (h : read site = .ok line) :
    ∀ name ∈ line.label, isIdentifier name = true := by
  obtain ⟨⟨label, body⟩, hSplit, h⟩ := bind_eq_ok.mp h
  dsimp only at h
  split at h
  · cases h
    exact (splitLabel_eq_ok hSplit).1
  · obtain ⟨statement, -, h⟩ := bind_eq_ok.mp h
    cases h
    exact (splitLabel_eq_ok hSplit).1

theorem Symbols.named_of_assemble {bases : Bases} {source : Text} {image : Image}
    (h : assemble bases source = .ok image) : image.symbols.Named := by
  obtain ⟨lines, hLines, layout, hTracks, -, hSymbols, -⟩ := exists_tracks h
  intro segment entry hEntry
  have hBound : (image.symbols.get? segment entry.1).isSome :=
    List.lookup_isSome_iff.mpr ⟨entry, hEntry, beq_self_eq_true _⟩
  obtain ⟨address, hAddress⟩ := Option.isSome_iff_exists.mp hBound
  rw [hSymbols] at hAddress
  obtain ⟨above, ⟨line, rest, rfl, hLabel, -⟩, -⟩ := (hTracks.symbols _ _ _).mp hAddress
  have hRead := (SourceLine.readAll_eq_ok_iff.mp hLines).2 line (List.mem_append_right _ List.mem_cons_self)
  exact SourceLine.label_isIdentifier hRead entry.1 hLabel

namespace SymbolFile

/-- A label with its address, as in `"loop": 4194304`. -/
def entry (e : Text × Word) : Text := "\"".toList ++ e.1 ++ "\": ".toList ++ Numeral.decimal e.2.toNat

/-- The entries of a table on lines of their own. A table without entries takes no line. -/
def rows : List (Text × Word) → Text
  | [] => []
  | first :: rest => "\n    ".toList ++ joined ",\n    ".toList ((first :: rest).map entry) ++ "\n  ".toList

theorem rows_cons (first : Text × Word) (rest : List (Text × Word)) :
    rows (first :: rest) =
      "\n    ".toList ++ joined ",\n    ".toList ((first :: rest).map entry) ++ "\n  ".toList :=
  rfl

def opening : Text := "\x7b\n  \"text\": \x7b".toList

def between : Text := "\x7d,\n  \"data\": \x7b".toList

def closing : Text := "\x7d\n\x7d".toList

/-- The whole file: the rows of the two tables, each between its braces. -/
def content (s : Symbols) : Text := opening ++ rows s.text.entries ++ between ++ rows s.data.entries ++ closing

section Rendering

theorem escapeChar_of_isNamePart {c : Char} (h : isNamePart c = true) : Json.escapeChar c = [c] := by
  have hNe {other : Char} (hOther : isNamePart other = false) : c ≠ other := by
    rintro rfl
    rw [h] at hOther
    cases hOther
  have hPrinted : ¬c.toNat < 0x20 := by
    simp only [isNamePart, Bool.or_eq_true, isAlphanum_iff, beq_iff_eq] at h
    rcases h with (hRange | rfl) | rfl
    · omega
    · decide
    · decide
  rw [Json.escapeChar, if_neg (hNe (by decide)), if_neg (hNe (by decide)), if_neg (hNe (by decide)),
    if_neg (hNe (by decide)), if_neg (hNe (by decide)), if_neg (hNe (by decide)), if_neg (hNe (by decide)),
    if_neg hPrinted]

theorem quote_of_isIdentifier {name : Text} (h : isIdentifier name = true) :
    Json.quote name = "\"".toList ++ name ++ "\"".toList := by
  have hEach : name.flatMap Json.escapeChar = name.flatMap ([·]) :=
    List.flatMap_congr fun c hc => escapeChar_of_isNamePart (isNamePart_of_isIdentifier h c hc)
  rw [Json.quote, hEach, List.flatMap_singleton']

theorem prettyMembers_eq (depth : Nat) {entries : List (Text × Word)}
    (h : ∀ e ∈ entries, isIdentifier e.1 = true) :
    Json.prettyMembers depth (entries.map fun e => (e.1, .number e.2.toNat)) = entries.map entry := by
  induction entries with
  | nil => rw [List.map_nil, Json.prettyMembers, List.map_nil]
  | cons e rest ih =>
    obtain ⟨hHead, hRest⟩ := List.forall_mem_cons.mp h
    rw [List.map_cons, Json.prettyMembers, ih hRest, quote_of_isIdentifier hHead, Json.pretty, List.map_cons]
    congr 1
    rw [entry]
    simp

theorem pretty_toJson {b : Bindings} (h : ∀ e ∈ b.entries, isIdentifier e.1 = true) :
    b.toJson.pretty 1 = "\x7b".toList ++ rows b.entries ++ "\x7d".toList := by
  rw [Bindings.toJson, Json.pretty, prettyMembers_eq 2 h]
  cases b.entries with
  | nil => rfl
  | cons first rest =>
    rw [Json.block, if_neg (by simp), rows_cons]
    simp only [List.append_assoc]
    rfl

theorem render_toJson {s : Symbols} (h : s.Named) : s.toJson.render = content s := by
  have hText : s.text.toJson.pretty 1 = "\x7b".toList ++ rows s.text.entries ++ "\x7d".toList :=
    pretty_toJson (h .text)
  have hData : s.data.toJson.pretty 1 = "\x7b".toList ++ rows s.data.entries ++ "\x7d".toList :=
    pretty_toJson (h .data)
  have hOpening : opening =
      "\x7b".toList ++ Json.newline 1 ++ Json.quote "text".toList ++ ": ".toList ++ "\x7b".toList := rfl
  have hBetween : between = "\x7d".toList ++ ",".toList ++ Json.newline 1 ++
      Json.quote "data".toList ++ ": ".toList ++ "\x7b".toList := rfl
  have hClosing : closing = "\x7d".toList ++ Json.newline 0 ++ "\x7d".toList := rfl
  rw [Symbols.toJson, Json.render, Json.pretty, Json.prettyMembers, Json.prettyMembers, Json.prettyMembers,
    Nat.zero_add, hText, hData, Json.block, if_neg (by simp), joined_cons_cons, joined,
    List.intercalate_singleton, content, hOpening, hBetween, hClosing]
  simp only [List.append_assoc]

example : Symbols.empty.toJson.render = "\x7b\n  \"text\": \x7b\x7d,\n  \"data\": \x7b\x7d\n\x7d".toList := rfl

end Rendering

section Reading

variable {e e' : Text × Word} {entries entries' : List (Text × Word)}

theorem entry_eq (e : Text × Word) :
    entry e = '"' :: (e.1 ++ '"' :: (": ".toList ++ Numeral.decimal e.2.toNat)) := by
  rw [entry, List.append_assoc, List.append_assoc]
  rfl

theorem entry_inj (hName : isIdentifier e.1 = true) (hName' : isIdentifier e'.1 = true)
    (h : entry e = entry e') : e = e' := by
  rw [entry_eq, entry_eq] at h
  have hQuote {t : Text} (ht : isIdentifier t = true) : '"' ∉ t := not_mem_of_isIdentifier ht (by decide)
  obtain ⟨hKey, hNumber⟩ := eq_of_append_cons (hQuote hName) (hQuote hName') (List.cons.inj h).2
  have hValue := Numeral.decimal_inj (List.append_cancel_left hNumber)
  exact Prod.ext hKey (BitVec.eq_of_toNat_eq hValue)

theorem not_mem_entry (hName : isIdentifier e.1 = true) {c : Char} (hPart : isNamePart c = false)
    (hChar : isOperandChar c = false) (hMark : c ∉ "\": ".toList) : c ∉ entry e := by
  have hQuote : c ∉ "\"".toList := fun hc => hMark (List.mem_cons.mpr (.inl (List.mem_singleton.mp hc)))
  rw [entry]
  refine List.not_mem_append (List.not_mem_append (List.not_mem_append hQuote ?_) hMark) ?_
  · exact not_mem_of_isIdentifier hName hPart
  · exact (Numeral.plain_decimal _).not_mem hChar

theorem brace_not_mem_rows (h : ∀ e ∈ entries, isIdentifier e.1 = true) : '\x7d' ∉ rows entries := by
  cases entries with
  | nil => exact List.not_mem_nil
  | cons first rest =>
    refine List.not_mem_append (List.not_mem_append (by decide) fun hMem => ?_) (by decide)
    obtain hSep | ⟨part, hPart, hBrace⟩ := mem_joined hMem
    · exact absurd hSep (by decide)
    · obtain ⟨e, he, rfl⟩ := List.mem_map.mp hPart
      exact not_mem_entry (h e he) (by decide) (by decide) (by decide) hBrace

theorem map_entry_inj (h : ∀ e ∈ entries, isIdentifier e.1 = true)
    (h' : ∀ e ∈ entries', isIdentifier e.1 = true) (hEq : entries.map entry = entries'.map entry) :
    entries = entries' := by
  induction entries generalizing entries' with
  | nil => exact (List.map_eq_nil_iff.mp hEq.symm).symm
  | cons e rest ih =>
    obtain ⟨e', rest', rfl, hHead, hRest⟩ := List.map_eq_cons_iff.mp hEq.symm
    obtain ⟨hName, hNames⟩ := List.forall_mem_cons.mp h
    obtain ⟨hName', hNames'⟩ := List.forall_mem_cons.mp h'
    rw [entry_inj hName hName' hHead.symm, ih hNames hNames' hRest.symm]

theorem rows_inj (h : ∀ e ∈ entries, isIdentifier e.1 = true) (h' : ∀ e ∈ entries', isIdentifier e.1 = true)
    (hEq : rows entries = rows entries') : entries = entries' := by
  have hComma {entries : List (Text × Word)} (h : ∀ e ∈ entries, isIdentifier e.1 = true) :
      ∀ part ∈ entries.map entry, ',' ∉ part :=
    List.forall_mem_map.mpr fun e he => not_mem_entry (h e he) (by decide) (by decide) (by decide)
  cases entries with
  | nil =>
    cases entries' with
    | nil => rfl
    | cons first' rest' => cases hEq
  | cons first rest =>
    cases entries' with
    | nil => cases hEq
    | cons first' rest' =>
      have hJoined := List.append_cancel_left (List.append_cancel_right hEq)
      apply map_entry_inj h h'
      exact joined_inj (by decide : ',' ∉ "\n    ".toList) (List.cons_ne_nil _ _) (List.cons_ne_nil _ _)
        (hComma h) (hComma h') hJoined

/-- Tables with the same file are the same table. -/
theorem content_inj {s s' : Symbols} (h : s.Named) (h' : s'.Named) (hEq : content s = content s') : s = s' := by
  have hContent (s : Symbols) : content s = opening ++ (rows s.text.entries ++
      '\x7d' :: (between.tail ++ (rows s.data.entries ++ '\x7d' :: closing.tail))) := by
    rw [content, List.append_assoc, List.append_assoc, List.append_assoc]
    rfl
  rw [hContent, hContent] at hEq
  have hRows := List.append_cancel_left hEq
  obtain ⟨hText, hRest⟩ := eq_of_append_cons (brace_not_mem_rows (h .text)) (brace_not_mem_rows (h' .text)) hRows
  obtain ⟨hData, -⟩ := eq_of_append_cons (brace_not_mem_rows (h .data)) (brace_not_mem_rows (h' .data))
    (List.append_cancel_left hRest)
  have hSame (segment : Segment) : (s.ofSegment segment).entries = (s'.ofSegment segment).entries := by
    cases segment with
    | text => exact rows_inj (h .text) (h' .text) hText
    | data => exact rows_inj (h .data) (h' .data) hData
  exact Symbols.ext_get? fun segment name => congrArg (List.lookup name) (hSame segment)

end Reading

end SymbolFile

end MipsAsm
