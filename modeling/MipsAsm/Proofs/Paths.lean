import Mathlib.Data.List.DropRight
import MipsAsm.Proofs.Blanks
import MipsAsm.Storage.Path

/-!
What paths stand for. The components of a path are what is left of it when the pieces that say nothing are
taken away; two paths are the same path if they have the same components. The file name and the directory
of a path are read off its components, and joining a name to a directory adds one component.
-/

set_option autoImplicit false

namespace MipsAsm.Path

inductive Component
  | root
  | here
  | parent
  | name (t : Text)
  deriving DecidableEq, Repr

def Component.ofPiece (piece : Text) : Component := if piece = Path.parent then .parent else .name piece

/-- A path that starts with a slash has an empty first piece. -/
def firstComponent (piece : Text) : Component :=
  if piece = [] then .root else if piece = here then .here else .ofPiece piece

def component? (piece : Text) : Option Component :=
  if piece = [] ∨ piece = here then none else some (.ofPiece piece)

def componentsOf : List Text → List Component
  | [] => []
  | first :: rest => firstComponent first :: rest.filterMap component?

def components (p : Path) : List Component := if p.isEmpty then [] else componentsOf (pieces p)

/-- The last component, if it is a name. -/
def lastName? (cs : List Component) : Option Text :=
  match cs.getLast? with
  | some (.name t) => some t
  | _ => none

/-- What stands before the last component. The root and the empty path lie in no directory. -/
def directory? (cs : List Component) : Option (List Component) :=
  match cs.getLast? with
  | none | some .root => none
  | some _ => some cs.dropLast

/-- A text that stands for a file when it is the last piece of a path. -/
structure IsName (t : Text) : Prop where
  ne_nil : t ≠ []
  ne_here : t ≠ here
  ne_parent : t ≠ parent
  slash : '/' ∉ t

theorem IsName.ofPiece_eq {t : Text} (h : IsName t) : Component.ofPiece t = .name t := if_neg h.ne_parent

theorem IsName.firstComponent_eq {t : Text} (h : IsName t) : firstComponent t = .name t := by
  rw [firstComponent, if_neg h.ne_nil, if_neg h.ne_here, h.ofPiece_eq]

theorem IsName.component?_eq {t : Text} (h : IsName t) : component? t = some (.name t) := by
  rw [component?, if_neg (not_or.mpr ⟨h.ne_nil, h.ne_here⟩), h.ofPiece_eq]

theorem isFiller_iff {piece : Text} : isFiller piece = true ↔ piece = [] ∨ piece = here := by
  rw [isFiller, Bool.or_eq_true, List.isEmpty_iff, beq_iff_eq]

theorem pieces_ne_nil (p : Path) : pieces p ≠ [] := List.splitOn_ne_nil '/' p

theorem pieces_append_slash (front back : Path) : pieces (front ++ '/' :: back) = pieces front ++ pieces back :=
  List.splitOn_append_cons_self front back

theorem IsName.pieces_eq {t : Text} (h : IsName t) : pieces t = [t] := List.splitOn_eq_singleton h.slash

theorem componentsOf_append {front : List Text} (hFront : front ≠ []) (back : List Text) :
    componentsOf (front ++ back) = componentsOf front ++ back.filterMap component? := by
  obtain ⟨first, rest, rfl⟩ := List.exists_cons_of_ne_nil hFront
  simp [componentsOf]

theorem componentsOf_concat (front : List Text) {t : Text} (h : IsName t) :
    componentsOf (front ++ [t]) = componentsOf front ++ [.name t] := by
  cases front with
  | nil => simp [componentsOf, h.firstComponent_eq]
  | cons first rest => simp [componentsOf, h.component?_eq]

theorem filterMap_rdropWhile (rest : List Text) :
    (rest.rdropWhile isFiller).filterMap component? = rest.filterMap component? := by
  induction rest using List.reverseRecOn with
  | nil => rfl
  | append_singleton front last ih =>
    by_cases hFiller : isFiller last = true
    · have hNone : component? last = none := if_pos (isFiller_iff.mp hFiller)
      rw [List.rdropWhile_concat_pos _ _ _ hFiller, ih, List.filterMap_append]
      simp [hNone]
    · rw [List.rdropWhile_concat_neg _ _ _ hFiller]

theorem componentsOf_dropFillers (ps : List Text) : componentsOf (dropFillers ps) = componentsOf ps := by
  cases ps with
  | nil => rfl
  | cons first rest => exact congrArg (firstComponent first :: ·) (filterMap_rdropWhile rest)

theorem mem_of_mem_dropFillers {ps : List Text} {piece : Text} (h : piece ∈ dropFillers ps) : piece ∈ ps := by
  cases ps with
  | nil => cases h
  | cons first rest =>
    rcases List.mem_cons.mp h with rfl | hRest
    · exact List.mem_cons_self
    · exact List.mem_cons_of_mem _ ((List.rdropWhile_prefix isFiller rest).subset hRest)

theorem slash_not_mem_of_mem_pieces {p : Path} {piece : Text} (h : piece ∈ pieces p) : '/' ∉ piece :=
  fun hSlash => (Text.mem_of_mem_splitOn h hSlash).2 rfl

theorem components_of_ne_nil {p : Path} (h : p ≠ []) : components p = componentsOf (pieces p) := by
  rw [components, if_neg (by simpa using h)]

theorem lastName?_concat (cs : List Component) (t : Text) : lastName? (cs ++ [.name t]) = some t := by
  rw [lastName?, List.getLast?_concat]

theorem directory?_concat (cs : List Component) (t : Text) : directory? (cs ++ [.name t]) = some cs := by
  rw [directory?, List.getLast?_concat, List.dropLast_concat]

theorem directory?_of_lastName? {cs : List Component} {t : Text} (h : lastName? cs = some t) :
    directory? cs = some cs.dropLast := by
  unfold lastName? at h
  split at h
  · rename_i hLast
    rw [directory?, hLast]
  · cases h

/-- The last piece that counts. It is a filler only if it is the first one. -/
theorem exists_last_piece (p : Path) :
    ∃ front last, dropFillers (pieces p) = front ++ [last] ∧ (front ≠ [] → ¬isFiller last = true) := by
  obtain ⟨first, rest, hPieces⟩ := List.exists_cons_of_ne_nil (pieces_ne_nil p)
  have hBody : dropFillers (pieces p) = first :: rest.rdropWhile isFiller := congrArg dropFillers hPieces
  rw [hBody]
  obtain hNil | ⟨front, last, hRest⟩ := (rest.rdropWhile isFiller).eq_nil_or_concat'
  · rw [hNil]
    exact ⟨[], first, rfl, fun h => absurd rfl h⟩
  · refine ⟨first :: front, last, by rw [hRest, List.cons_append], fun _ => ?_⟩
    have hStop := List.rdropWhile_last_not isFiller rest (by simp [hRest])
    simpa [hRest] using hStop

theorem splitName?_eq {p : Path} {front : List Text} {last : Text}
    (h : dropFillers (pieces p) = front ++ [last]) :
    splitName? p = if isFiller last || last == parent then none else some (dropFillers front, last) := by
  simp only [splitName?, h, List.getLast?_concat, List.dropLast_concat]

theorem components_of_splitName? {p : Path} {dir : List Text} {name : Text}
    (h : splitName? p = some (dir, name)) :
    IsName name ∧ (∀ piece ∈ dir, '/' ∉ piece) ∧ components p = componentsOf dir ++ [.name name] := by
  have hPath : p ≠ [] := by
    rintro rfl
    cases h
  obtain ⟨front, last, hBody, -⟩ := exists_last_piece p
  have hSlash : ∀ piece ∈ front ++ [last], '/' ∉ piece :=
    fun piece hPiece => slash_not_mem_of_mem_pieces (mem_of_mem_dropFillers (hBody ▸ hPiece))
  rw [splitName?_eq hBody, Option.ite_none_left_eq_some, Bool.or_eq_true, isFiller_iff, beq_iff_eq] at h
  obtain ⟨hEnd, hSplit⟩ := h
  cases hSplit
  have hName : IsName name :=
    { ne_nil := fun hNil => hEnd (.inl (.inl hNil))
      ne_here := fun hHere => hEnd (.inl (.inr hHere))
      ne_parent := fun hParent => hEnd (.inr hParent)
      slash := hSlash name (List.mem_append_right _ List.mem_cons_self) }
  refine ⟨hName, fun piece hPiece => hSlash piece ?_, ?_⟩
  · exact List.mem_append_left _ (mem_of_mem_dropFillers hPiece)
  · rw [components_of_ne_nil hPath, ← componentsOf_dropFillers, hBody, componentsOf_concat front hName,
      componentsOf_dropFillers]

theorem lastName?_of_splitName? {p : Path} (h : splitName? p = none) : lastName? (components p) = none := by
  by_cases hPath : p = []
  · rw [hPath]
    rfl
  obtain ⟨front, last, hBody, hStop⟩ := exists_last_piece p
  rw [components_of_ne_nil hPath, ← componentsOf_dropFillers, hBody]
  have hLast : isFiller last = true ∨ last = parent := by
    rw [splitName?_eq hBody] at h
    split at h
    · rename_i hEnd
      simpa using hEnd
    · cases h
  cases front with
  | nil =>
    rw [isFiller_iff] at hLast
    rcases hLast with (rfl | rfl) | rfl
    · rfl
    · rfl
    · rfl
  | cons first rest =>
    have hParent : last = parent := hLast.resolve_left (hStop (List.cons_ne_nil _ _))
    have hComponent : [last].filterMap component? = [.parent] := by
      rw [hParent]
      rfl
    rw [componentsOf_append (List.cons_ne_nil first rest), hComponent, lastName?, List.getLast?_concat]

theorem fileName?_eq (p : Path) : fileName? p = lastName? (components p) := by
  rw [fileName?]
  cases hSplit : splitName? p with
  | none => rw [lastName?_of_splitName? hSplit, Option.map_none]
  | some split =>
    obtain ⟨-, -, hComponents⟩ := components_of_splitName? hSplit
    rw [hComponents, lastName?_concat, Option.map_some]

theorem components_append_slash (front : Path) {t : Text} (h : IsName t) :
    components (front ++ '/' :: t) = componentsOf (pieces front) ++ [.name t] := by
  rw [components_of_ne_nil (by simp), pieces_append_slash, h.pieces_eq, componentsOf_concat _ h]

theorem components_join (dir : Path) {t : Text} (h : IsName t) :
    components (join dir t) = components dir ++ [.name t] := by
  by_cases hDir : dir = []
  · rw [hDir, join, List.isEmpty_nil, Bool.true_or, if_pos rfl, List.nil_append, components_of_ne_nil h.ne_nil,
      h.pieces_eq]
    exact componentsOf_concat [] h
  rw [components_of_ne_nil hDir, join, List.isEmpty_eq_false_iff.mpr hDir, Bool.false_or]
  by_cases hSlash : dir.getLast? = some '/'
  · obtain ⟨front, rfl⟩ := List.getLast?_eq_some_iff.mp hSlash
    have hEmpty : (pieces []).filterMap component? = [] := rfl
    rw [if_pos (by simp), List.append_assoc, List.singleton_append, components_append_slash front h,
      pieces_append_slash, componentsOf_append (pieces_ne_nil front), hEmpty, List.append_nil]
  · rw [if_neg (by simpa using hSlash), List.append_assoc]
    exact components_append_slash dir h

theorem components_ofPieces {dir : List Text} (hDir : ∀ piece ∈ dir, '/' ∉ piece) {t : Text} (h : IsName t) :
    components (ofPieces (dir ++ [t])) = componentsOf dir ++ [.name t] := by
  have hSlash : ∀ piece ∈ dir ++ [t], '/' ∉ piece :=
    List.forall_mem_append.mpr ⟨hDir, List.forall_mem_singleton.mpr h.slash⟩
  have hPieces : pieces (ofPieces (dir ++ [t])) = dir ++ [t] :=
    List.splitOn_intercalate '/' hSlash (List.concat_ne_nil t dir)
  have hNe : ofPieces (dir ++ [t]) ≠ [] := by
    intro hNil
    have hLast := congrArg List.getLast? hPieces
    rw [hNil, List.getLast?_concat] at hLast
    exact h.ne_nil (Option.some.inj hLast).symm
  rw [components_of_ne_nil hNe, hPieces, componentsOf_concat dir h]

theorem isName_of_length {t : Text} (hSlash : '/' ∉ t) (hLength : 2 < t.length) : IsName t := by
  have hNe {other : Text} (hShort : other.length ≤ 2) : t ≠ other := by
    rintro rfl
    omega
  exact ⟨hNe (by decide), hNe (by decide), hNe (by decide), hSlash⟩

/-- A new file name takes the place of the old one, or stands behind a path that has none. -/
theorem components_withFileName (p : Path) {t : Text} (h : IsName t) :
    components (withFileName p t) =
      (if (lastName? (components p)).isSome then (components p).dropLast else components p) ++ [.name t] := by
  rw [withFileName, ← fileName?_eq, fileName?]
  cases hSplit : splitName? p with
  | none => exact components_join p h
  | some split =>
    obtain ⟨-, hDir, hComponents⟩ := components_of_splitName? hSplit
    rw [hComponents, List.dropLast_concat]
    exact components_ofPieces hDir h

/-- The file name of an input, for its artifacts. -/
def artifactBase (input : Path) : Text := (lastName? (components input)).getD "out".toList

/-- Where the artifacts of an input lie. -/
def artifactDirectory (input : Path) : Option Path → List Component
  | some dir => components dir
  | none => if (lastName? (components input)).isSome then (components input).dropLast else components input

theorem slash_not_mem_artifactBase (input : Path) : '/' ∉ artifactBase input := by
  rw [artifactBase, ← fileName?_eq, fileName?]
  cases hSplit : splitName? input with
  | none => decide
  | some split => exact (components_of_splitName? hSplit).1.slash

theorem components_artifactPath (input : Path) (outDir : Option Path) {extension : String}
    (hSlash : '/' ∉ extension.toList) (hLength : 2 < extension.toList.length) :
    components (artifactPath input outDir extension) =
      artifactDirectory input outDir ++ [.name (artifactBase input ++ extension.toList)] := by
  have hName : IsName (artifactBase input ++ extension.toList) := by
    refine isName_of_length ?_ ?_
    · rw [List.mem_append]
      exact fun h => h.elim (slash_not_mem_artifactBase input) hSlash
    · rw [List.length_append]
      omega
  unfold artifactPath
  rw [fileName?_eq]
  cases outDir with
  | some dir => exact components_join dir hName
  | none => exact components_withFileName input hName

/-- An artifact has a longer file name than its input. -/
theorem components_artifactPath_ne (input : Path) (outDir : Option Path) {extension : String}
    (hSlash : '/' ∉ extension.toList) (hLength : 2 < extension.toList.length) :
    components (artifactPath input outDir extension) ≠ components input := by
  intro hEq
  rw [components_artifactPath input outDir hSlash hLength] at hEq
  have hBase : artifactBase input = artifactBase input ++ extension.toList := by
    conv_lhs => rw [artifactBase, ← hEq, lastName?_concat]
    rfl
  rw [List.self_eq_append_right.mp hBase] at hLength
  exact absurd hLength (by decide)

/-- The two artifacts of an input are named after it and lie in one directory: the one asked for, or else the
input's own, or the input itself if it has no file name. Neither is the other one, nor the input. -/
theorem artifacts_never_collide (input : Path) (outDir : Option Path) :
    let base := (lastName? (components input)).getD "out".toList
    let text := components (artifactPath input outDir ".text")
    let data := components (artifactPath input outDir ".data")
    lastName? text = some (base ++ ".text".toList) ∧ lastName? data = some (base ++ ".data".toList) ∧
    text ≠ data ∧ text ≠ components input ∧ data ≠ components input ∧
    directory? text = directory? data ∧
    (∀ dir, outDir = some dir → directory? text = some (components dir)) ∧
    (outDir = none → directory? text =
      if (lastName? (components input)).isSome then directory? (components input)
      else some (components input)) := by
  intro base text data
  have hText : text = artifactDirectory input outDir ++ [.name (base ++ ".text".toList)] :=
    components_artifactPath input outDir (by decide) (by decide)
  have hData : data = artifactDirectory input outDir ++ [.name (base ++ ".data".toList)] :=
    components_artifactPath input outDir (by decide) (by decide)
  refine ⟨?_, ?_, ?_, components_artifactPath_ne input outDir (by decide) (by decide),
    components_artifactPath_ne input outDir (by decide) (by decide), ?_, ?_, ?_⟩
  · rw [hText, lastName?_concat]
  · rw [hData, lastName?_concat]
  · intro hEq
    have hNames := congrArg lastName? hEq
    rw [hText, hData, lastName?_concat, lastName?_concat] at hNames
    exact absurd (List.append_cancel_left (Option.some.inj hNames)) (by decide)
  · rw [hText, hData, directory?_concat, directory?_concat]
  · rintro dir rfl
    rw [hText, directory?_concat]
    rfl
  · rintro rfl
    rw [hText, directory?_concat, artifactDirectory]
    cases hName : lastName? (components input) with
    | none => rfl
    | some name =>
      rw [directory?_of_lastName? hName]
      rfl

theorem artifacts_never_collide_dotted :
    let input := "src//prog.asm/.".toList
    let dir := "out/".toList
    components input = [.name "src".toList, .name "prog.asm".toList] ∧
      artifactPath input none ".text" = "src/prog.asm.text".toList ∧
      directory? (components (artifactPath input none ".text")) = directory? (components input) ∧
      directory? (components (artifactPath input (some dir) ".text")) = some (components dir) := by
  intro input dir
  obtain ⟨-, -, -, -, -, -, -, hBeside⟩ := artifacts_never_collide input none
  obtain ⟨-, -, -, -, -, -, hInside, -⟩ := artifacts_never_collide input (some dir)
  exact ⟨rfl, rfl, hBeside rfl, hInside dir rfl⟩

end MipsAsm.Path
