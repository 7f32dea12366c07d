import MipsAsm.Proofs.Inertness
import MipsAsm.Proofs.Legibility

/-!
String literals. A literal is a sequence of pieces between quotes, each an escape or a character that
needs none, and reading it gives the bytes of the characters that its pieces stand for. Every text can be
written as a literal, and a scan that looks for comments leaves such a literal where it ends.
-/

set_option autoImplicit false

namespace MipsAsm

open Outcome Text

namespace Scan

theorem next_literal {c : Char} (hBackslash : c ≠ '\\') (hQuote : c ≠ '"') : literal.next c = literal := by
  rw [next.eq_def]
  split <;> simp_all

theorem after_append {scan next : Scan} {t : Text} (h : scan.after t = some next) (rest : Text) :
    scan.after (t ++ rest) = next.after rest := by
  induction t generalizing scan with
  | nil =>
    cases h
    rfl
  | cons c t ih =>
    rw [after] at h
    split at h
    · cases h
    · rename_i hMark
      rw [List.cons_append, after, if_neg hMark, ih h]

theorem after_code_of_not_mem {t : Text} (hMark : '#' ∉ t) (hQuote : '"' ∉ t) :
    code.after t = some code := by
  induction t with
  | nil => rfl
  | cons c t ih =>
    obtain ⟨hMarkHead, hMarkTail⟩ := not_or.mp (List.mem_cons.not.mp hMark)
    obtain ⟨hQuoteHead, hQuoteTail⟩ := not_or.mp (List.mem_cons.not.mp hQuote)
    rw [after, if_neg (fun hBoth => hMarkHead hBoth.2.symm), next_code (Ne.symm hQuoteHead)]
    exact ih hMarkTail hQuoteTail

end Scan

namespace Literal

/-- How a character is spelled in a literal. -/
inductive Piece : Text → Char → Prop
  | newline : Piece ['\\', 'n'] '\n'
  | tab : Piece ['\\', 't'] '\t'
  | carriageReturn : Piece ['\\', 'r'] '\r'
  | zero : Piece ['\\', '0'] '\x00'
  | backslash : Piece ['\\', '\\'] '\\'
  | quote : Piece ['\\', '"'] '"'
  | plain {c : Char} (hBackslash : c ≠ '\\') (hQuote : c ≠ '"') : Piece [c] c

/-- The literal's pieces stand for the characters, one each. -/
def Spells (t chars : Text) : Prop :=
  ∃ pieces : List Text, t = '"' :: pieces.flatten ++ ['"'] ∧ List.Forall₂ Piece pieces chars

theorem piece_of_lookup {code value : Char} (h : escapes.lookup code = some value) :
    Piece ['\\', code] value := by
  obtain ⟨front, back, hTable, -⟩ := List.lookup_eq_some_iff.mp h
  have hMem : (code, value) ∈ escapes := by
    rw [hTable]
    exact List.mem_append_right _ List.mem_cons_self
  simp only [escapes, List.mem_cons, Prod.mk.injEq, List.not_mem_nil, or_false] at hMem
  rcases hMem with ⟨rfl, rfl⟩ | ⟨rfl, rfl⟩ | ⟨rfl, rfl⟩ | ⟨rfl, rfl⟩ | ⟨rfl, rfl⟩ | ⟨rfl, rfl⟩
  · exact .newline
  · exact .tab
  · exact .carriageReturn
  · exact .zero
  · exact .backslash
  · exact .quote

theorem Piece.unescape_append {piece : Text} {c : Char} (h : Piece piece c) (whole rest : Text) :
    unescape whole (piece ++ rest) = (unescape whole rest).map (c :: ·) := by
  cases h with
  | newline | tab | carriageReturn | zero | backslash | quote => rfl
  | plain hBackslash hQuote =>
    exact unescape.eq_5 whole c rest hQuote (fun hEq _ => hBackslash hEq) fun _ _ hEq _ => hBackslash hEq

theorem Piece.after_literal {piece : Text} {c : Char} (h : Piece piece c) :
    Scan.literal.after piece = some .literal := by
  cases h with
  | newline | tab | carriageReturn | zero | backslash | quote => rfl
  | plain hBackslash hQuote =>
    have hInside : ¬(Scan.literal = .code ∧ c = '#') := by
      rintro ⟨⟨⟩, -⟩
    rw [Scan.after, if_neg hInside, Scan.next_literal hBackslash hQuote, Scan.after]

theorem Spells.ne_nil {t chars : Text} (h : Spells t chars) : t ≠ [] := by
  obtain ⟨pieces, rfl, -⟩ := h
  exact List.cons_ne_nil _ _

theorem Spells.trimmed {t chars : Text} (h : Spells t chars) : Trimmed t := by
  obtain ⟨pieces, rfl, -⟩ := h
  constructor
  · rintro c ⟨⟩
    rfl
  · rw [List.getLast?_concat]
    rintro c ⟨⟩
    rfl

/-- A scan for comments passes over a whole literal. -/
theorem Spells.after_code {t chars : Text} (h : Spells t chars) : Scan.code.after t = some .code := by
  obtain ⟨pieces, rfl, hPieces⟩ := h
  have hBody : Scan.literal.after pieces.flatten = some .literal := by
    induction hPieces with
    | nil => rfl
    | cons hHead _ ih => rw [List.flatten_cons, Scan.after_append hHead.after_literal, ih]
  exact Scan.after_append hBody ['"']

/-- A body is read exactly if it is a sequence of pieces. -/
theorem unescape_eq_ok_iff {whole body chars : Text} :
    unescape whole body = .ok chars ↔ ∃ pieces, body = pieces.flatten ∧ List.Forall₂ Piece pieces chars := by
  constructor
  · intro h
    fun_induction unescape whole body generalizing chars with
    | case1 =>
      cases h
      exact ⟨[], rfl, .nil⟩
    | case2 tail => cases h
    | case3 => cases h
    | case4 code rest value hLookup ih =>
      obtain ⟨read, hRead, rfl⟩ := map_eq_ok.mp h
      obtain ⟨pieces, rfl, hPieces⟩ := ih hRead
      exact ⟨['\\', code] :: pieces, rfl, .cons (piece_of_lookup hLookup) hPieces⟩
    | case5 code rest hLookup => cases h
    | case6 c rest hQuote hLast hEscape ih =>
      have hBackslash : c ≠ '\\' := by
        intro hEq
        cases rest with
        | nil => exact hLast hEq rfl
        | cons next rest => exact hEscape next rest hEq rfl
      obtain ⟨read, hRead, rfl⟩ := map_eq_ok.mp h
      obtain ⟨pieces, rfl, hPieces⟩ := ih hRead
      exact ⟨[c] :: pieces, rfl, .cons (.plain hBackslash hQuote) hPieces⟩
  · rintro ⟨pieces, rfl, hPieces⟩
    induction hPieces with
    | nil => rfl
    | cons hHead _ ih =>
      rw [List.flatten_cons, hHead.unescape_append, ih]
      rfl

theorem body?_eq_some_iff {t body : Text} : body? t = some body ↔ t = '"' :: body ++ ['"'] := by
  constructor
  · intro h
    unfold body? at h
    split at h
    · rename_i rest
      rw [eq_of_dropLast? h, List.cons_append]
    · cases h
  · rintro rfl
    simp [body?, dropLast?]

theorem characters_eq_ok_iff {t chars : Text} : characters t = .ok chars ↔ Spells t chars := by
  unfold characters
  split
  · rename_i body hBody
    rw [unescape_eq_ok_iff]
    have hText := body?_eq_some_iff.mp hBody
    constructor
    · rintro ⟨pieces, rfl, hPieces⟩
      exact ⟨pieces, hText, hPieces⟩
    · rintro ⟨pieces, hSpelled, hPieces⟩
      have hEq : body = pieces.flatten := by simpa [hSpelled] using hText.symm
      exact ⟨pieces, hEq, hPieces⟩
  · rename_i hNone
    refine iff_of_false nofun ?_
    rintro ⟨pieces, hSpelled, -⟩
    rw [body?_eq_some_iff.mpr hSpelled] at hNone
    cases hNone

theorem read_eq_ok_iff {t : Text} {bytes : List UInt8} :
    read t = .ok bytes ↔ ∃ chars, Spells t chars ∧ bytes = utf8 chars := by
  rw [read, map_eq_ok]
  constructor
  · rintro ⟨chars, hChars, rfl⟩
    exact ⟨chars, characters_eq_ok_iff.mp hChars, rfl⟩
  · rintro ⟨chars, hSpells, rfl⟩
    exact ⟨chars, characters_eq_ok_iff.mpr hSpells, rfl⟩

theorem toByteArray_utf8 (t : Text) : (utf8 t).toByteArray = (String.ofList t).toUTF8 := by
  rw [String.toUTF8_eq_toByteArray, String.toByteArray_ofList]
  rfl

/-- The spelling that is used for a character: an escape where there is one. -/
def escape (c : Char) : Text :=
  match c with
  | '\n' => ['\\', 'n']
  | '\t' => ['\\', 't']
  | '\r' => ['\\', 'r']
  | '\x00' => ['\\', '0']
  | '\\' => ['\\', '\\']
  | '"' => ['\\', '"']
  | c => [c]

/-- The literal of a text. -/
def written (t : Text) : Text := '"' :: t.flatMap escape ++ ['"']

theorem piece_escape (c : Char) : Piece (escape c) c := by
  unfold escape
  split
  · exact .newline
  · exact .tab
  · exact .carriageReturn
  · exact .zero
  · exact .backslash
  · exact .quote
  · rename_i hBackslash hQuote
    exact .plain hBackslash hQuote

theorem feed_not_mem_written (t : Text) : '\n' ∉ written t := by
  have hEscape (c : Char) : '\n' ∉ escape c := by
    unfold escape
    split
    any_goals decide
    rename_i hFeed _ _ _ _ _
    exact fun hMem => hFeed (List.mem_singleton.mp hMem).symm
  rw [written, List.cons_append, List.mem_cons, List.mem_append, List.mem_flatMap]
  rintro (hMem | ⟨c, -, hMem⟩ | hMem)
  · cases hMem
  · exact hEscape c hMem
  · cases List.mem_singleton.mp hMem

theorem spells_written (t : Text) : Spells (written t) t := by
  refine ⟨t.map escape, by rw [written, List.flatMap_def], ?_⟩
  rw [List.forall₂_map_left_iff, List.forall₂_same]
  exact fun c _ => piece_escape c

end Literal

end MipsAsm
