import Mathlib.Data.List.DropRight
import MipsAsm.Text.Basic

/-!
Blanks at the ends of a text and between its words. A trimmed text is what trimming leaves alone, and
texts that are put together from trimmed parts are trimmed.
-/

set_option autoImplicit false

namespace MipsAsm.Text

/-- No blank stands at either end. -/
structure Trimmed (t : Text) : Prop where
  head : ∀ c ∈ t.head?, isBlank c = false
  last : ∀ c ∈ t.getLast?, isBlank c = false

theorem trimStart_eq_self {t : Text} (h : ∀ c ∈ t.head?, isBlank c = false) : trimStart t = t := by
  cases t with
  | nil => rfl
  | cons c rest => exact List.dropWhile_cons_of_neg (by simp [h c rfl])

theorem trimEnd_eq_self {t : Text} (h : ∀ c ∈ t.getLast?, isBlank c = false) : trimEnd t = t := by
  have hReverse : trimStart t.reverse = t.reverse :=
    trimStart_eq_self (by rwa [List.head?_reverse])
  exact (congrArg List.reverse hReverse).trans t.reverse_reverse

theorem Trimmed.trim_eq {t : Text} (h : Trimmed t) : trim t = t := by
  rw [trim, trimStart_eq_self h.head, trimEnd_eq_self h.last]

theorem trimmed_trim (t : Text) : Trimmed (trim t) := by
  have hPrefix : trimEnd (trimStart t) <+: trimStart t := List.rdropWhile_prefix isBlank _
  constructor
  · intro c hHead
    have hStart : (trimStart t).head? = some c := by
      obtain ⟨rest, hRest⟩ := hPrefix
      rw [← hRest, List.head?_append, ← trim, hHead]
      rfl
    have hNot := List.head?_dropWhile_not isBlank t
    rw [← trimStart, hStart] at hNot
    exact hNot
  · intro c hLast
    have hNot := List.head?_dropWhile_not isBlank (trimStart t).reverse
    rw [trim, trimEnd, List.getLast?_reverse] at hLast
    rw [hLast] at hNot
    exact hNot

@[simp] theorem trim_trim (t : Text) : trim (trim t) = trim t := (trimmed_trim t).trim_eq

theorem trim_cons_blank {c : Char} (hBlank : isBlank c = true) (t : Text) :
    trim (c :: t) = trim t := by
  rw [trim, trim, trimStart, List.dropWhile_cons_of_pos hBlank, ← trimStart]

theorem trim_append_blank {c : Char} (hBlank : isBlank c = true) (t : Text) :
    trim (t ++ [c]) = trim t := by
  have hEnd (u : Text) : trimEnd (u ++ [c]) = trimEnd u := by
    rw [trimEnd, trimEnd, List.reverse_append, List.reverse_singleton, List.singleton_append,
      List.dropWhile_cons_of_pos hBlank]
  rw [trim, trim, trimStart, trimStart, List.dropWhile_append]
  split
  · rename_i hEmpty
    rw [List.isEmpty_iff.mp hEmpty, List.dropWhile_cons_of_pos hBlank]
    rfl
  · exact hEnd _

theorem mem_of_mem_trim {t : Text} {c : Char} (h : c ∈ trim t) : c ∈ t := by
  have hStart : c ∈ trimStart t := (List.rdropWhile_prefix isBlank (trimStart t)).subset h
  exact (List.dropWhile_suffix isBlank).subset hStart

/-- White space, or nothing. -/
def Gap (t : Text) : Prop := ∀ c ∈ t, isBlank c = true

theorem gap_nil : Gap [] := List.forall_mem_nil _

theorem Gap.not_mem {gap : Text} (h : Gap gap) {c : Char} (hChar : isBlank c = false) : c ∉ gap := by
  intro hc
  rw [h c hc] at hChar
  cases hChar

theorem trim_gap_append {gap : Text} (h : Gap gap) (t : Text) : trim (gap ++ t) = trim t := by
  induction gap with
  | nil => rfl
  | cons c gap ih =>
    obtain ⟨hHead, hTail⟩ := List.forall_mem_cons.mp h
    rw [List.cons_append, trim_cons_blank hHead, ih hTail]

theorem trim_append_gap {gap : Text} (h : Gap gap) (t : Text) : trim (t ++ gap) = trim t := by
  induction gap generalizing t with
  | nil => rw [List.append_nil]
  | cons c gap ih =>
    obtain ⟨hHead, hTail⟩ := List.forall_mem_cons.mp h
    rw [List.append_cons, ih hTail, trim_append_blank hHead]

/-- A text is what trimming leaves of it, between white space. -/
theorem exists_gaps (t : Text) : ∃ left right, Gap left ∧ Gap right ∧ t = left ++ trim t ++ right := by
  have hStart (u : Text) : u = u.takeWhile isBlank ++ trimStart u := List.takeWhile_append_dropWhile.symm
  have hEnd (u : Text) : u = trimEnd u ++ (u.reverse.takeWhile isBlank).reverse := by
    rw [trimEnd, ← List.reverse_append, List.takeWhile_append_dropWhile, List.reverse_reverse]
  refine ⟨t.takeWhile isBlank, ((trimStart t).reverse.takeWhile isBlank).reverse, ?_, ?_, ?_⟩
  · exact fun c hc => List.mem_takeWhile_imp hc
  · exact fun c hc => List.mem_takeWhile_imp (List.mem_reverse.mp hc)
  · rw [List.append_assoc, trim, ← hEnd, ← hStart]

/-- White space is what trimming takes away. -/
theorem trim_eq_nil_iff {t : Text} : trim t = [] ↔ Gap t := by
  constructor
  · intro hNil
    obtain ⟨left, right, hLeft, hRight, hText⟩ := exists_gaps t
    rw [hText, hNil, List.append_nil]
    exact List.forall_mem_append.mpr ⟨hLeft, hRight⟩
  · intro hGap
    rw [← List.append_nil t, trim_gap_append hGap]
    rfl

/-- Trimming takes blanks only. -/
theorem isBlank_or_mem_trim {t : Text} {c : Char} (h : c ∈ t) : isBlank c = true ∨ c ∈ trim t := by
  obtain ⟨left, right, hLeft, hRight, hText⟩ := exists_gaps t
  rw [hText, List.mem_append, List.mem_append] at h
  rcases h with (h | h) | h
  · exact .inl (hLeft c h)
  · exact .inr h
  · exact .inl (hRight c h)

theorem exists_trim_cons {c : Char} (h : isBlank c = false) (rest : Text) :
    ∃ tail, trim (c :: rest) = c :: tail := by
  obtain ⟨left, right, hLeft, hRight, hText⟩ := exists_gaps (c :: rest)
  cases left with
  | nil =>
    cases hTrim : trim (c :: rest) with
    | nil =>
      rw [hTrim, List.nil_append, List.nil_append] at hText
      exact absurd (hText ▸ List.mem_cons_self) (hRight.not_mem h)
    | cons d tail =>
      rw [hTrim] at hText
      cases hText
      exact ⟨tail, rfl⟩
  | cons d left =>
    obtain ⟨rfl, -⟩ := List.cons.inj hText
    exact absurd List.mem_cons_self (hLeft.not_mem h)

theorem mem_of_mem_splitOn {sep c : Char} {t piece : Text} (hPiece : piece ∈ t.splitOn sep)
    (hc : c ∈ piece) : c ∈ t ∧ c ≠ sep := by
  induction t generalizing piece with
  | nil =>
    rw [List.splitOn_nil, List.mem_singleton] at hPiece
    rw [hPiece] at hc
    cases hc
  | cons first rest ih =>
    rw [List.splitOn_cons_eq_if_modifyHead] at hPiece
    split at hPiece
    · rcases List.mem_cons.mp hPiece with rfl | hPiece
      · cases hc
      · exact (ih hPiece hc).imp_left (List.mem_cons_of_mem _)
    · rename_i hFirst
      cases hPieces : rest.splitOn sep with
      | nil => exact absurd hPieces (List.splitOn_ne_nil _ _)
      | cons head tail =>
        rw [hPieces] at hPiece ih
        rcases List.mem_cons.mp hPiece with rfl | hPiece
        · rcases List.mem_cons.mp hc with rfl | hc
          · exact ⟨List.mem_cons_self, by simpa using hFirst⟩
          · exact (ih List.mem_cons_self hc).imp_left (List.mem_cons_of_mem _)
        · exact (ih (List.mem_cons_of_mem _ hPiece) hc).imp_left (List.mem_cons_of_mem _)

theorem not_blank_of_all {t : Text} (h : (t.all fun c => !isBlank c) = true) :
    ∀ c ∈ t, isBlank c = false := by
  intro c hc
  simpa using List.all_eq_true.mp h c hc

theorem trimmed_of_forall {t : Text} (h : ∀ c ∈ t, isBlank c = false) : Trimmed t where
  head c hc := h c (List.mem_of_mem_head? hc)
  last c hc := h c (List.mem_of_getLast? hc)

theorem Trimmed.append {front back : Text} (hFront : Trimmed front) (hBack : Trimmed back)
    (hFrontNe : front ≠ []) (hBackNe : back ≠ []) (between : Text) :
    Trimmed (front ++ between ++ back) where
  head c hc := by
    rw [List.append_assoc, List.head?_append_of_ne_nil _ hFrontNe] at hc
    exact hFront.head c hc
  last c hc := by
    rw [List.getLast?_append_of_ne_nil _ hBackNe] at hc
    exact hBack.last c hc

theorem splitBlank_of_forall {t : Text} (h : ∀ c ∈ t, isBlank c = false) : splitBlank t = (t, []) := by
  have hAll : ∀ c ∈ t, (!isBlank c) = true := fun c hc => by simp [h c hc]
  rw [splitBlank, List.takeWhile_eq_self_iff.mpr hAll, List.dropWhile_eq_nil_iff.mpr hAll]
  rfl

theorem splitBlank_append {word : Text} (hWord : ∀ c ∈ word, isBlank c = false) {c : Char}
    (hBlank : isBlank c = true) (rest : Text) : splitBlank (word ++ c :: rest) = (word, trim rest) := by
  have hAll : ∀ a ∈ word, (!isBlank a) = true := fun a ha => by simp [hWord a ha]
  rw [splitBlank, List.takeWhile_append_of_pos hAll, List.dropWhile_append_of_pos hAll,
    List.takeWhile_cons_of_neg (by simp [hBlank]), List.dropWhile_cons_of_neg (by simp [hBlank]),
    trim_cons_blank hBlank, List.append_nil]

/-- Trimming in front of the split changes neither half. -/
theorem splitBlank_trim_append {word gap : Text} (hWordNe : word ≠ [])
    (hWord : ∀ c ∈ word, isBlank c = false) (hGap : Gap gap) (hGapNe : gap ≠ []) (rest : Text) :
    splitBlank (trim (word ++ gap ++ rest)) = (word, trim rest) := by
  have hTrimmed := trimmed_of_forall hWord
  by_cases hNil : trim rest = []
  · have hBlanks : Gap (gap ++ rest) := List.forall_mem_append.mpr ⟨hGap, trim_eq_nil_iff.mp hNil⟩
    rw [hNil, List.append_assoc, trim_append_gap hBlanks, hTrimmed.trim_eq, splitBlank_of_forall hWord]
  · obtain ⟨left, right, hLeft, hRight, hRest⟩ := exists_gaps rest
    obtain ⟨c, blanks, rfl⟩ := List.exists_cons_of_ne_nil hGapNe
    obtain ⟨hBlank, hBlanks⟩ := List.forall_mem_cons.mp hGap
    have hLine : trim (word ++ c :: blanks ++ rest) = word ++ c :: (blanks ++ (left ++ trim rest)) := by
      calc trim (word ++ c :: blanks ++ rest)
          = trim (word ++ (c :: blanks ++ left) ++ trim rest ++ right) :=
            congrArg trim ((congrArg (word ++ c :: blanks ++ ·) hRest).trans (by simp only [List.append_assoc]))
        _ = word ++ (c :: blanks ++ left) ++ trim rest := by
            rw [trim_append_gap hRight, (hTrimmed.append (trimmed_trim rest) hWordNe hNil _).trim_eq]
        _ = word ++ c :: (blanks ++ (left ++ trim rest)) := by
            simp only [List.append_assoc, List.cons_append]
    rw [hLine, splitBlank_append hWord hBlank, trim_gap_append hBlanks, trim_gap_append hLeft, trim_trim]

theorem joined_cons_cons (sep first second : Text) (rest : List Text) :
    joined sep (first :: second :: rest) = first ++ sep ++ joined sep (second :: rest) :=
  List.intercalate_cons_cons

/-- Parts between commas, the gap behind each comma taken as the start of the next part. -/
theorem joined_eq_intercalate (gap first : Text) (rest : List Text) :
    joined (',' :: gap) (first :: rest) = [','].intercalate (first :: rest.map (gap ++ ·)) := by
  have hFront (second : Text) (more : List Text) :
      [','].intercalate ((gap ++ second) :: more) = gap ++ [','].intercalate (second :: more) := by
    cases more with
    | nil => rw [List.intercalate_singleton, List.intercalate_singleton]
    | cons third more => simp only [List.intercalate_cons_cons, List.append_assoc]
  induction rest generalizing first with
  | nil => rfl
  | cons second rest ih =>
    rw [joined_cons_cons, ih, List.map_cons, List.intercalate_cons_cons, hFront, List.append_assoc,
      List.append_assoc]
    rfl

theorem joined_inj {gap : Text} (hGap : ',' ∉ gap) {parts parts' : List Text} (hNe : parts ≠ [])
    (hNe' : parts' ≠ []) (hComma : ∀ part ∈ parts, ',' ∉ part) (hComma' : ∀ part ∈ parts', ',' ∉ part)
    (h : joined (',' :: gap) parts = joined (',' :: gap) parts') : parts = parts' := by
  obtain ⟨first, rest, rfl⟩ := List.exists_cons_of_ne_nil hNe
  obtain ⟨first', rest', rfl⟩ := List.exists_cons_of_ne_nil hNe'
  have hPieces {first : Text} {rest : List Text} (hComma : ∀ part ∈ first :: rest, ',' ∉ part) :
      (joined (',' :: gap) (first :: rest)).splitOn ',' = first :: rest.map (gap ++ ·) := by
    obtain ⟨hFirst, hRest⟩ := List.forall_mem_cons.mp hComma
    rw [joined_eq_intercalate, List.splitOn_intercalate ',' _ (List.cons_ne_nil _ _)]
    refine List.forall_mem_cons.mpr ⟨hFirst, List.forall_mem_map.mpr fun part hPart => ?_⟩
    exact List.not_mem_append hGap (hRest part hPart)
  have hSplit := congrArg (List.splitOn ',') h
  rw [hPieces hComma, hPieces hComma'] at hSplit
  obtain ⟨rfl, hRest⟩ := List.cons.inj hSplit
  rw [List.map_injective_iff.mpr (fun _ _ => List.append_cancel_left) hRest]

/-- Two texts are taken apart at the first place of a character in both. -/
theorem eq_of_append_cons {c : Char} {front front' back back' : Text} (hFront : c ∉ front) (hFront' : c ∉ front')
    (h : front ++ c :: back = front' ++ c :: back') : front = front' ∧ back = back' := by
  obtain ⟨mid, hMid, hBack⟩ | ⟨mid, hMid, hBack⟩ := List.append_eq_append_iff.mp h
  · cases mid with
    | nil => exact ⟨(hMid.trans (List.append_nil _)).symm, (List.cons.inj hBack).2⟩
    | cons d mid =>
      rw [hMid, (List.cons.inj hBack).1] at hFront'
      exact absurd (List.mem_append_right _ List.mem_cons_self) hFront'
  · cases mid with
    | nil => exact ⟨hMid.trans (List.append_nil _), (List.cons.inj hBack).2.symm⟩
    | cons d mid =>
      rw [hMid, (List.cons.inj hBack).1] at hFront
      exact absurd (List.mem_append_right _ List.mem_cons_self) hFront

theorem mem_joined {sep : Text} {parts : List Text} {c : Char} (h : c ∈ joined sep parts) :
    c ∈ sep ∨ ∃ part ∈ parts, c ∈ part := by
  induction parts with
  | nil => cases h
  | cons first rest ih =>
    cases rest with
    | nil =>
      rw [joined, List.intercalate_singleton] at h
      exact .inr ⟨first, List.mem_cons_self, h⟩
    | cons second rest =>
      rw [joined_cons_cons, List.mem_append, List.mem_append] at h
      rcases h with (hFirst | hSep) | hRest
      · exact .inr ⟨first, List.mem_cons_self, hFirst⟩
      · exact .inl hSep
      · obtain hSep | ⟨part, hPart, hMem⟩ := ih hRest
        · exact .inl hSep
        · exact .inr ⟨part, List.mem_cons_of_mem _ hPart, hMem⟩

theorem joined_ne_nil (sep : Text) {parts : List Text} (hParts : parts ≠ [])
    (hEach : ∀ part ∈ parts, part ≠ []) : joined sep parts ≠ [] := by
  cases parts with
  | nil => exact absurd rfl hParts
  | cons first rest =>
    have hFirst := hEach first List.mem_cons_self
    cases rest with
    | nil => rwa [joined, List.intercalate_singleton]
    | cons second rest =>
      rw [joined_cons_cons, List.append_assoc]
      exact List.append_ne_nil_of_left_ne_nil hFirst _

theorem trimmed_joined (sep : Text) {parts : List Text} (hNe : ∀ part ∈ parts, part ≠ [])
    (hTrimmed : ∀ part ∈ parts, Trimmed part) : Trimmed (joined sep parts) := by
  induction parts with
  | nil => exact trimmed_of_forall (fun c hc => absurd hc List.not_mem_nil)
  | cons first rest ih =>
    have hFirst := hTrimmed first List.mem_cons_self
    cases rest with
    | nil => rwa [joined, List.intercalate_singleton]
    | cons second rest =>
      have hRestNe := fun part hPart => hNe part (List.mem_cons_of_mem _ hPart)
      rw [joined_cons_cons]
      exact hFirst.append (ih hRestNe fun part hPart => hTrimmed part (List.mem_cons_of_mem _ hPart))
        (hNe first List.mem_cons_self) (joined_ne_nil sep (List.cons_ne_nil _ _) hRestNe) sep

theorem Trimmed.eq_nil_of_gap_append {gap rest : Text} (h : Trimmed (gap ++ rest)) (hGap : Gap gap) :
    gap = [] := by
  cases gap with
  | nil => rfl
  | cons c gap =>
    have hBlank := hGap c List.mem_cons_self
    rw [h.head c rfl] at hBlank
    cases hBlank

theorem Trimmed.eq_nil_of_append_gap {front gap : Text} (h : Trimmed (front ++ gap)) (hGap : Gap gap) :
    gap = [] := by
  obtain rfl | ⟨init, c, rfl⟩ := gap.eq_nil_or_concat'
  · rfl
  · have hBlank := hGap c (List.mem_append_right _ List.mem_cons_self)
    rw [h.last c (by rw [← List.append_assoc, List.getLast?_concat]; rfl)] at hBlank
    cases hBlank

/-- At the end of a trimmed text, white space can only stand in front of something. -/
theorem Trimmed.exists_gap {front rest : Text} (h : Trimmed (front ++ rest)) :
    ∃ gap, Gap gap ∧ rest = gap ++ trim rest := by
  obtain ⟨left, right, hLeft, hRight, hText⟩ := exists_gaps rest
  have hNil : right = [] := by
    rw [hText, ← List.append_assoc] at h
    exact h.eq_nil_of_append_gap hRight
  refine ⟨left, hLeft, ?_⟩
  rwa [hNil, List.append_nil] at hText

theorem Trimmed.exists_gap_of_blank {front rest : Text} {c : Char} (h : Trimmed (front ++ c :: rest))
    (hBlank : isBlank c = true) :
    ∃ gap, Gap gap ∧ gap ≠ [] ∧ trim (c :: rest) ≠ [] ∧ c :: rest = gap ++ trim (c :: rest) := by
  obtain ⟨gap, hGap, hRest⟩ := h.exists_gap
  refine ⟨gap, hGap, ?_, ?_, hRest⟩
  · rintro rfl
    have hHead := (trimmed_trim (c :: rest)).head c
    rw [← List.nil_append (trim _), ← hRest] at hHead
    rw [hHead rfl] at hBlank
    cases hBlank
  · intro hNil
    rw [hNil, List.append_nil] at hRest
    exact List.cons_ne_nil c rest (h.eq_nil_of_append_gap (hRest ▸ hGap))

/-- What stands before the first blank, and what the second half has been trimmed from. -/
theorem eq_append_splitBlank (t : Text) :
    (t = (splitBlank t).1 ∧ (splitBlank t).2 = []) ∨
      ∃ c rest, isBlank c = true ∧ t = (splitBlank t).1 ++ c :: rest ∧ (splitBlank t).2 = trim (c :: rest) := by
  have hText : t = (splitBlank t).1 ++ t.dropWhile (!isBlank ·) := List.takeWhile_append_dropWhile.symm
  cases hRest : t.dropWhile (!isBlank ·) with
  | nil =>
    rw [hRest, List.append_nil] at hText
    exact .inl ⟨hText, by rw [splitBlank, hRest]; rfl⟩
  | cons c rest =>
    have hNot := List.head?_dropWhile_not (!isBlank ·) t
    rw [hRest] at hNot hText
    exact .inr ⟨c, rest, by simpa using hNot, hText, by rw [splitBlank, hRest]⟩

/-- A trimmed text is one word, or nothing, or a word with white space and more text behind it. -/
theorem Trimmed.word_cases {t : Text} (h : Trimmed t) :
    (∀ c ∈ t, isBlank c = false) ∨
      ∃ word gap rest, t = word ++ gap ++ rest ∧ word ≠ [] ∧ (∀ c ∈ word, isBlank c = false) ∧
        Gap gap ∧ gap ≠ [] ∧ ¬Gap rest := by
  have hWord : ∀ c ∈ (splitBlank t).1, isBlank c = false := by
    intro c hc
    simpa using List.mem_takeWhile_imp hc
  obtain ⟨hText, -⟩ | ⟨c, rest, hBlank, hText, -⟩ := eq_append_splitBlank t
  · rw [← hText] at hWord
    exact .inl hWord
  · have hLine := h
    rw [hText] at hLine
    obtain ⟨gap, hGap, hGapNe, hRestNe, hRest⟩ := hLine.exists_gap_of_blank hBlank
    refine .inr ⟨(splitBlank t).1, gap, trim (c :: rest), ?_, ?_, hWord, hGap, hGapNe, ?_⟩
    · rwa [List.append_assoc, ← hRest]
    · intro hNil
      rw [hNil] at hLine
      rw [hLine.head c rfl] at hBlank
      cases hBlank
    · rwa [← trim_eq_nil_iff, trim_trim]

end MipsAsm.Text
