import MipsAsm.Proofs.Files
import MipsAsm.Proofs.Operands
import MipsAsm.Proofs.Sites
import MipsAsm.Proofs.Tokens
import MipsAsm.Storage.HexFile

/-!
Hex files. A file is read word by word from the lines that are not blank, and the file that is written for
some words is read as these words. The number of a line that is no word counts the blank lines above it.
-/

set_option autoImplicit false

namespace MipsAsm

open Outcome Text
open InstrText (Padded exists_padded_iff)

namespace Text

/-- Whether something besides blanks stands on the line. -/
def isFilled (line : Text) : Bool := line.any (!isBlank ·)

theorem isFilled_eq (line : Text) : isFilled line = !(trim line).isEmpty := by
  cases hTrim : trim line with
  | nil =>
    refine List.any_eq_false.mpr fun c hc => ?_
    rcases isBlank_or_mem_trim hc with hBlank | hMem
    · rw [hBlank]
      decide
    · rw [hTrim] at hMem
      cases hMem
  | cons c rest =>
    have hSolid : isBlank c = false := (trimmed_trim line).head c (by rw [hTrim]; rfl)
    refine List.any_eq_true.mpr ⟨c, mem_of_mem_trim (hTrim ▸ List.mem_cons_self), ?_⟩
    rw [hSolid]
    rfl

end Text

namespace Word

open Numeral

/-- The spellings of a word: eight hexadecimal digits of either case, behind a mark or not. -/
inductive Spells : Text → Word → Prop
  | bare {digits : Text} {w : Word} (hLength : digits.length = 8) (hDigits : Denotes 16 digits w.toNat) :
      Spells digits w
  | marked {mark digits : Text} {w : Word} (hMark : mark ∈ hexMarks) (hLength : digits.length = 8)
      (hDigits : Denotes 16 digits w.toNat) : Spells (mark ++ digits) w

theorem Spells.trimmed {t : Text} {w : Word} (h : Spells t w) : Trimmed t := by
  have hAlphanum : ∀ c ∈ t, c.isAlphanum = true := by
    cases h with
    | bare hLength hDigits => exact hDigits.isAlphanum (by decide)
    | marked hMark hLength hDigits =>
      exact List.forall_mem_append.mpr ⟨isAlphanum_of_mem_hexMarks hMark, hDigits.isAlphanum (by decide)⟩
  exact trimmed_of_forall fun c hc => isBlank_of_isAlphanum (hAlphanum c hc)

theorem hexValue_eq (digits : Text) : hexValue digits = valueFrom 16 0 digits := by
  simp only [hexValue, valueFrom, digit?_sixteen]

/-- Eight digits denote a number that fits in a word, so nothing is cut off. -/
theorem eight_digits_iff {digits : Text} {w : Word} :
    (digits.length = 8 ∧ digits.all (hexDigit? · |>.isSome) = true) ∧ BitVec.ofNat 32 (hexValue digits) = w ↔
      digits.length = 8 ∧ Denotes 16 digits w.toNat := by
  have hAll : digits.all (hexDigit? · |>.isSome) = true ↔ AllDigits 16 digits := by
    simp only [List.all_eq_true, AllDigits, digit?_sixteen]
  rw [and_assoc]
  refine and_congr_right fun hLength => ?_
  have hNe : digits ≠ [] := by
    rintro rfl
    cases hLength
  rw [hAll, hexValue_eq]
  constructor
  · rintro ⟨hDigits, rfl⟩
    have hDenotes := (denotes_iff (by decide)).mpr ⟨hNe, hDigits, rfl⟩
    have hFits : valueFrom 16 0 digits < 2 ^ 32 := by
      have hLt := hDenotes.lt
      rwa [hLength] at hLt
    rwa [BitVec.toNat_ofNat, Nat.mod_eq_of_lt hFits]
  · intro hDenotes
    obtain ⟨-, hDigits, hValue⟩ := (denotes_iff (by decide)).mp hDenotes
    rw [hValue, BitVec.ofNat_toNat, BitVec.setWidth_eq]
    exact ⟨hDigits, rfl⟩

theorem ofHex?_eq_some_iff {t : Text} {w : Word} : ofHex? t = some w ↔ Spells (trim t) w := by
  simp only [ofHex?, Option.ite_none_right_eq_some, Option.some.injEq, eight_digits_iff]
  generalize trim t = body
  constructor
  · rintro ⟨hLength, hDigits⟩
    cases hMark : dropHexMark? body with
    | none =>
      rw [hMark] at hLength hDigits
      exact .bare hLength hDigits
    | some digits =>
      rw [hMark] at hLength hDigits
      obtain ⟨mark, hMem, rfl⟩ := dropHexMark?_eq_some_iff.mp hMark
      exact .marked hMem hLength hDigits
  · intro h
    cases h with
    | bare hLength hDigits =>
      rw [(hDigits.allDigits (by decide)).dropHexMark?_eq]
      exact ⟨hLength, hDigits⟩
    | marked hMark hLength hDigits =>
      rw [dropHexMark?_eq_some_iff.mpr ⟨_, hMark, rfl⟩]
      exact ⟨hLength, hDigits⟩

/-- The line holds the word and white space. -/
def OnLine (line : Text) (w : Word) : Prop := ∃ body, Padded body line ∧ Spells body w

theorem written_eq_ok_iff {line : Text} {w : Word} : written line = .ok w ↔ OnLine line w := by
  rw [OnLine, exists_padded_iff fun body => Spells.trimmed, ← ofHex?_eq_some_iff, written]
  cases ofHex? line with
  | none => simp
  | some word => simp

theorem written_eq_error_iff {line : Text} {fault : Fault} :
    written line = .error fault ↔ (¬∃ w, OnLine line w) ∧ fault = .malformed (.hexWord line) := by
  simp only [← written_eq_ok_iff]
  rw [written]
  cases ofHex? line with
  | none => simp [eq_comm]
  | some word => simp

theorem allDigits_hex (w : Word) : AllDigits 16 w.hex := Numeral.allDigits_hex 8 w.toNat

theorem length_hex (w : Word) : w.hex.length = 8 := by
  have hWord := w.isLt
  have hDigits : (Nat.toDigits 16 w.toNat).length ≤ 8 :=
    (Nat.length_toDigits_le_iff (by decide) (by decide)).mpr hWord
  rw [hex, Numeral.hex, List.length_leftpad]
  omega

theorem written_hex (w : Word) : written w.hex = .ok w := by
  have hDenotes : Denotes 16 w.hex w.toNat :=
    (denotes_iff (by decide)).mpr ⟨hex_ne_nil 8 w.toNat, w.allDigits_hex, valueFrom_hex 8 w.toNat⟩
  exact written_eq_ok_iff.mpr ⟨w.hex, ⟨[], [], gap_nil, gap_nil, by simp⟩, .bare w.length_hex hDenotes⟩

end Word

namespace HexFile

/-- The lines of a text that are not blank. -/
def wordLines (t : Text) : List Text := (lines t).filter isFilled

theorem parse_eq_ok_iff {t : Text} {words : List Word} :
    parse t = .ok words ↔ List.Forall₂ (fun line w => Word.written line = .ok w) (wordLines t) words := by
  have hLines : ((numberedLines t).filter fun line => !(trim line.1).isEmpty).map Prod.fst = wordLines t := by
    rw [wordLines, ← List.zipIdx_map_fst 1 (lines t), List.filter_map]
    exact congrArg _ (List.filter_congr fun line _ => (isFilled_eq line.1).symm)
  rw [parse, mapM_eq_ok_iff, ← hLines, List.forall₂_map_left_iff]
  simp only [mapError_eq_ok]

/-- Of lines that are numbered from `n` on, the first that is neither blank nor a word has the number and
the fault. -/
def BadLine (n : Nat) (lines : List Text) (bad : Nat × Fault) : Prop :=
  ∃ above line below, lines = above ++ line :: below ∧
    (∀ l ∈ above, isFilled l = true → ∃ w, Word.written l = .ok w) ∧
    isFilled line = true ∧ Word.written line = .error bad.2 ∧ bad.1 = n + above.length

theorem badLine_cons_iff {n : Nat} {first : Text} {rest : List Text} {bad : Nat × Fault} :
    BadLine n (first :: rest) bad ↔
      (isFilled first = true ∧ Word.written first = .error bad.2 ∧ bad.1 = n) ∨
      (isFilled first = true → ∃ w, Word.written first = .ok w) ∧ BadLine (n + 1) rest bad := by
  constructor
  · rintro ⟨above, line, below, hLines, hAbove, hFilled, hLine, hNumber⟩
    cases above with
    | nil =>
      obtain ⟨rfl, rfl⟩ := List.cons.inj hLines
      exact .inl ⟨hFilled, hLine, hNumber⟩
    | cons l above =>
      obtain ⟨rfl, rfl⟩ := List.cons.inj hLines
      obtain ⟨hFirst, hAbove⟩ := List.forall_mem_cons.mp hAbove
      rw [List.length_cons] at hNumber
      exact .inr ⟨hFirst, above, line, below, rfl, hAbove, hFilled, hLine, by omega⟩
  · rintro (⟨hFilled, hLine, hNumber⟩ | ⟨hFirst, above, line, below, rfl, hAbove, hFilled, hLine, hNumber⟩)
    · exact ⟨[], first, rest, rfl, fun l hl => absurd hl List.not_mem_nil, hFilled, hLine, hNumber⟩
    · refine ⟨first :: above, line, below, rfl, List.forall_mem_cons.mpr ⟨hFirst, hAbove⟩, hFilled, hLine, ?_⟩
      rw [List.length_cons]
      omega

theorem parse_eq_error_iff {t : Text} {bad : Nat × Fault} :
    parse t = .error bad ↔ BadLine 1 (lines t) bad := by
  rw [parse, numberedLines]
  generalize lines t = raw, 1 = n
  induction raw generalizing n with
  | nil =>
    constructor
    · intro h
      cases h
    · rintro ⟨above, line, below, hLines, -⟩
      cases (List.append_eq_nil_iff.mp hLines.symm).2
  | cons first rest ih =>
    rw [List.zipIdx_cons, badLine_cons_iff, ← ih, isFilled_eq]
    by_cases hFilled : (!(trim first).isEmpty) = true
    · have hFirst : (Word.written first).mapError (fun fault => (n, fault)) = .error bad ↔
          Word.written first = .error bad.2 ∧ bad.1 = n := by
        rw [mapError_eq_error]
        constructor
        · rintro ⟨fault, hFault, rfl⟩
          exact ⟨hFault, rfl⟩
        · rintro ⟨hFault, rfl⟩
          exact ⟨bad.2, hFault, rfl⟩
      rw [List.filter_cons, if_pos hFilled, mapM_cons_eq_error, hFirst]
      simp only [mapError_eq_ok, hFilled, true_and, forall_const]
    · rw [List.filter_cons, if_neg hFilled]
      simp only [hFilled, Bool.false_eq_true, false_and, false_or, false_implies, true_and]

theorem render_eq (words : List Word) : render words = words.flatMap fun w => w.hex ++ ['\n'] := by
  rw [render, unlines, List.flatMap_map]

theorem wordLines_render (words : List Word) : wordLines (render words) = words.map Word.hex := by
  have hPlain : ∀ part ∈ words.map Word.hex, Plain part ∧ part ≠ [] := by
    intro part hPart
    obtain ⟨w, -, rfl⟩ := List.mem_map.mp hPart
    exact ⟨w.allDigits_hex.plain, Numeral.hex_ne_nil 8 w.toNat⟩
  have hLines : lines (render words) = words.map Word.hex :=
    lines_unlines (fun part hPart => (hPlain part hPart).1.not_mem (by decide))
      (fun part hPart => (hPlain part hPart).1.not_mem (by decide))
  rw [wordLines, hLines, List.filter_eq_self]
  intro part hPart
  rw [isFilled_eq, (hPlain part hPart).1.trim_eq]
  simpa using (hPlain part hPart).2

theorem parse_render (words : List Word) : parse (render words) = .ok words := by
  rw [parse_eq_ok_iff, wordLines_render, List.forall₂_map_left_iff, List.forall₂_same]
  exact fun w _ => w.written_hex

section Store

variable {σ : Type} [FileStore σ]

theorem load_eq {store : σ} {path : Path} {t : Text} (h : FileStore.readText store path = .ok t) :
    load store path = (parse t).mapError fun bad => Failure.ofFault [atLine path bad.1] bad.2 := by
  rw [load, h]
  rfl

theorem load_eq_ok_iff {store : σ} {path : Path} {t : Text} (h : FileStore.readText store path = .ok t)
    {words : List Word} : load store path = .ok words ↔ List.Forall₂ Word.OnLine (wordLines t) words := by
  rw [load_eq h, mapError_eq_ok, parse_eq_ok_iff]
  simp only [Word.written_eq_ok_iff]

theorem load_eq_error_iff {store : σ} {path : Path} {t : Text} (h : FileStore.readText store path = .ok t)
    {failure : Failure} :
    load store path = .error failure ↔
      ∃ above line below, lines t = above ++ line :: below ∧
        (∀ l ∈ above, isFilled l = true → ∃ w, Word.OnLine l w) ∧
        isFilled line = true ∧ (¬∃ w, Word.OnLine line w) ∧
        failure = .ofFault [atLine path (1 + above.length)] (.malformed (.hexWord line)) := by
  rw [load_eq h, mapError_eq_error]
  simp only [parse_eq_error_iff, BadLine, Word.written_eq_ok_iff, Word.written_eq_error_iff]
  constructor
  · rintro ⟨⟨number, fault⟩, ⟨above, line, below, hLines, hAbove, hFilled, ⟨hBad, rfl⟩, rfl⟩, rfl⟩
    exact ⟨above, line, below, hLines, hAbove, hFilled, hBad, rfl⟩
  · rintro ⟨above, line, below, hLines, hAbove, hFilled, hBad, rfl⟩
    exact ⟨(1 + above.length, _), ⟨above, line, below, hLines, hAbove, hFilled, ⟨hBad, rfl⟩, rfl⟩, rfl⟩

/-- Saved words are loaded again if the store keeps what is written at the path. Of any text, each line
that is not blank has to hold one word, and the words are those of the lines in order. Otherwise the
failure names the first line that does not, by its number among all lines. -/
theorem hex_files_are_read_exactly (path : Path) :
    ((∀ (store final : σ) (content : ByteArray), FileStore.write store path content = .ok final →
        FileStore.read final path = .ok content) →
      ∀ (store final : σ) (words : List Word), save store path words = .ok final →
        load final path = .ok words) ∧
    ∀ (store : σ) (t : Text), FileStore.readText store path = .ok t →
      (∀ words, load store path = .ok words ↔
        List.Forall₂ (fun line w => ∃ body, Padded body line ∧ Word.Spells body w)
          ((lines t).filter isFilled) words) ∧
      ∀ failure, load store path = .error failure ↔
        ∃ above line below, lines t = above ++ line :: below ∧
          (∀ l ∈ above, isFilled l = true → ∃ w body, Padded body l ∧ Word.Spells body w) ∧
          isFilled line = true ∧ (¬∃ w body, Padded body line ∧ Word.Spells body w) ∧
          failure = .ofFault [path ++ ":".toList ++ Numeral.decimal (1 + above.length)]
            (.malformed (.hexWord line)) := by
  refine ⟨?_, fun store t hRead => ⟨fun words => load_eq_ok_iff hRead, fun failure => load_eq_error_iff hRead⟩⟩
  intro hKept store final words hSave
  have hWrite : FileStore.writeText store path (render words) = .ok final := mapError_eq_ok.mp hSave
  have hRead : FileStore.readText final path = .ok (render words) :=
    bind_eq_ok.mpr ⟨_, hKept store final _ hWrite, FileStore.decodeText_encodeText _⟩
  rw [load_eq hRead, parse_render]
  rfl

end Store

theorem hex_files_are_read_exactly_tree :
    (∃ final : Tree, save ({} : Tree) "w".toList [0xdeadbeef, 0xc] = .ok final ∧
      load final "w".toList = .ok [0xdeadbeef, 0xc]) ∧
    ∃ store : Tree,
      FileStore.readText store "w".toList = .ok " 0XDEADbeef\r\n \n\n0x0x1234".toList ∧
      load store "w".toList = .error (.ofFault ["w:4".toList] (.malformed (.hexWord "0x0x1234".toList))) := by
  obtain ⟨hSaved, hText⟩ := @hex_files_are_read_exactly Tree _ "w".toList
  constructor
  · have hSave : ∃ final, save ({} : Tree) "w".toList [0xdeadbeef, 0xc] = .ok final := ⟨_, rfl⟩
    obtain ⟨final, hSave⟩ := hSave
    exact ⟨final, hSave, hSaved (fun _ _ _ => Tree.read_write) _ _ _ hSave⟩
  · have hStore : ∃ store : Tree,
        FileStore.readText store "w".toList = .ok " 0XDEADbeef\r\n \n\n0x0x1234".toList :=
      ⟨⟨[], [(["w".toList], .file (FileStore.encodeText " 0XDEADbeef\r\n \n\n0x0x1234".toList))]⟩,
        bind_eq_ok.mpr ⟨_, rfl, FileStore.decodeText_encodeText _⟩⟩
    obtain ⟨store, hRead⟩ := hStore
    refine ⟨store, hRead, ((hText store _ hRead).2 _).mpr
      ⟨[" 0XDEADbeef".toList, " ".toList, []], _, [], rfl, ?_, rfl, (Word.written_eq_error_iff.mp rfl).1, rfl⟩⟩
    simp only [List.forall_mem_cons]
    refine ⟨fun _ => ⟨0xdeadbeef, Word.written_eq_ok_iff.mp rfl⟩, fun hFilled => ?_, fun hFilled => ?_, ?_⟩
    · cases hFilled
    · cases hFilled
    · exact fun l hl => absurd hl List.not_mem_nil

end HexFile

end MipsAsm
