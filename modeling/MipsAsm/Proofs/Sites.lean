import MipsAsm.Proofs.Lines

/-!
The lines of a source with their numbers. Only what a line says and where it stands is kept of it, so the
sites of a source can be taken from the pieces between its line feeds. A site splits the lines of its
source into those above it, its own and those below, and cutting the source behind a site leaves the
sites up to there.
-/

set_option autoImplicit false

namespace MipsAsm

open Outcome Text

namespace Text

theorem lines_of_not_mem {line : Text} (h : '\n' ∉ line) :
    lines line = if line = [] then [] else [line] := by
  rw [lines, List.splitOn_eq_singleton h]
  cases line with
  | nil => rfl
  | cons c rest => rfl

theorem lines_append {line : Text} (h : '\n' ∉ line) (rest : Text) :
    lines (line ++ '\n' :: rest) = dropReturn line :: lines rest := by
  have hRest : rest.splitOn '\n' ≠ [] := List.splitOn_ne_nil _ _
  simp only [lines]
  rw [List.splitOn_append_cons_self, List.splitOn_eq_singleton h, List.singleton_append,
    List.dropLast_cons_of_ne_nil hRest, List.map_cons, List.cons_append, List.getLast?_cons,
    List.getLast?_eq_some_getLast hRest]
  rfl

theorem splitOn_unlines {parts : List Text} (hFeed : ∀ part ∈ parts, '\n' ∉ part) :
    (unlines parts).splitOn '\n' = parts ++ [[]] := by
  induction parts with
  | nil => rfl
  | cons part parts ih =>
    obtain ⟨hPart, hParts⟩ := List.forall_mem_cons.mp hFeed
    have hText : unlines (part :: parts) = part ++ '\n' :: unlines parts := by
      rw [unlines, List.flatMap_cons, List.append_assoc]
      rfl
    rw [hText, List.splitOn_append_cons_self, List.splitOn_eq_singleton hPart, ih hParts]
    rfl

theorem dropReturn_eq_self {line : Text} (h : '\r' ∉ line) : dropReturn line = line := by
  have hLast : line.getLast? ≠ some '\r' := fun hLast => h (List.mem_of_getLast? hLast)
  rw [dropReturn, dropLast?, if_neg hLast]
  rfl

theorem lines_unlines {parts : List Text} (hFeed : ∀ part ∈ parts, '\n' ∉ part)
    (hReturn : ∀ part ∈ parts, '\r' ∉ part) : lines (unlines parts) = parts := by
  simp only [lines, splitOn_unlines hFeed, List.dropLast_concat, List.getLast?_concat]
  have hSame : parts.map dropReturn = parts :=
    (List.map_congr_left fun part hPart => dropReturn_eq_self (hReturn part hPart)).trans (List.map_id parts)
  rw [hSame]
  exact List.append_nil parts

/-- The text up to the `n`-th line feed, which is its first `n` lines. -/
def takeLines : Nat → Text → Text
  | 0, _ => []
  | _ + 1, [] => []
  | n + 1, c :: rest => c :: takeLines (if c = '\n' then n else n + 1) rest

theorem takeLines_succ_append {line : Text} (h : '\n' ∉ line) (n : Nat) (rest : Text) :
    takeLines (n + 1) (line ++ rest) = line ++ takeLines (n + 1) rest := by
  induction line with
  | nil => rfl
  | cons c line ih =>
    obtain ⟨hHead, hTail⟩ := not_or.mp (List.mem_cons.not.mp h)
    rw [List.cons_append, takeLines, if_neg (Ne.symm hHead), ih hTail, List.cons_append]

theorem lines_takeLines (n : Nat) (t : Text) : lines (takeLines n t) = (lines t).take n := by
  induction n generalizing t with
  | zero => rw [takeLines, List.take_zero, lines_of_not_mem List.not_mem_nil, if_pos rfl]
  | succ n ih =>
    by_cases hFeed : '\n' ∈ t
    · obtain ⟨line, rest, rfl, hLine⟩ := List.eq_append_cons_of_mem hFeed
      rw [takeLines_succ_append hLine, takeLines, if_pos rfl, lines_append hLine, lines_append hLine,
        List.take_succ_cons, ih]
    · have hAll : takeLines (n + 1) t = t := by
        have hEnd := takeLines_succ_append hFeed n []
        rwa [List.append_nil, takeLines, List.append_nil] at hEnd
      rw [hAll, lines_of_not_mem hFeed]
      split
      · rfl
      · rw [List.take_succ_cons, List.take_nil]

end Text

namespace SourceLine

/-- The sites of lines that are numbered from `n` on. -/
def sitesFrom (n : Nat) : List Text → List Site
  | [] => []
  | line :: rest =>
    if content line = [] then sitesFrom (n + 1) rest else ⟨n, content line⟩ :: sitesFrom (n + 1) rest

theorem sitesFrom_append (n : Nat) (front back : List Text) :
    sitesFrom n (front ++ back) = sitesFrom n front ++ sitesFrom (n + front.length) back := by
  induction front generalizing n with
  | nil => rfl
  | cons line rest ih =>
    have hNumber : n + 1 + rest.length = n + (rest.length + 1) := by omega
    rw [List.cons_append, sitesFrom, sitesFrom, ih, hNumber, List.length_cons]
    split
    · rfl
    · rfl

theorem sites_eq (source : Text) : sites source = sitesFrom 1 (lines source) := by
  rw [sites, numberedLines]
  generalize lines source = raw, 1 = n
  induction raw generalizing n with
  | nil => rfl
  | cons line rest ih =>
    rw [List.zipIdx_cons, List.filterMap_cons, sitesFrom, ← ih (n + 1), content]
    by_cases hEmpty : trim (stripComment line) = []
    · simp [hEmpty]
    · simp [hEmpty]

/-- Lines that say the same have the same sites. -/
theorem sitesFrom_congr {lines lines' : List Text} (h : lines.map content = lines'.map content) (n : Nat) :
    sitesFrom n lines = sitesFrom n lines' := by
  induction lines generalizing lines' n with
  | nil =>
    rw [List.map_nil, eq_comm, List.map_eq_nil_iff] at h
    rw [h]
  | cons line rest ih =>
    cases lines' with
    | nil => cases h
    | cons line' rest' =>
      obtain ⟨hHead, hTail⟩ := List.cons.inj h
      rw [sitesFrom, sitesFrom, hHead, ih hTail]

/-- Neither the carriage return before a line feed nor an empty last piece matters. -/
theorem sites_eq_splitOn (source : Text) : sites source = sitesFrom 1 (source.splitOn '\n') := by
  rw [sites_eq, lines]
  obtain hNil | ⟨init, last, hPieces⟩ := (source.splitOn '\n').eq_nil_or_concat
  · exact absurd hNil (List.splitOn_ne_nil _ _)
  · have hInit : (init.map dropReturn).map content = init.map content := by
      rw [List.map_map]
      exact List.map_congr_left (fun line _ => content_dropReturn line)
    rw [hPieces, List.concat_eq_append, List.dropLast_concat, List.getLast?_concat, sitesFrom_append,
      sitesFrom_append, sitesFrom_congr hInit, List.length_map]
    congr 1
    cases last with
    | nil => rfl
    | cons c rest => rfl

theorem sites_of_line {line : Text} (hFeed : '\n' ∉ line) (hNe : content line ≠ []) :
    sites line = [⟨1, content line⟩] := by
  rw [sites_eq_splitOn, List.splitOn_eq_singleton hFeed, sitesFrom, if_neg hNe]
  rfl

theorem sites_unlines {parts : List Text} (hFeed : ∀ part ∈ parts, '\n' ∉ part) :
    sites (unlines parts) = sitesFrom 1 parts := by
  rw [sites_eq_splitOn, splitOn_unlines hFeed, sitesFrom_append]
  exact List.append_nil _

theorem sites_joined {parts : List Text} (hFeed : ∀ part ∈ parts, '\n' ∉ part) :
    sites (joined ['\n'] parts) = sitesFrom 1 parts := by
  cases parts with
  | nil => rfl
  | cons first rest =>
    rw [sites_eq_splitOn, joined, List.splitOn_intercalate '\n' hFeed (List.cons_ne_nil _ _)]

theorem exists_split_of_sitesFrom {n : Nat} {lines : List Text} {front back : List Site} {site : Site}
    (h : sitesFrom n lines = front ++ site :: back) :
    ∃ above line below, lines = above ++ line :: below ∧ sitesFrom n above = front ∧
      content line ≠ [] ∧ site = ⟨n + above.length, content line⟩ := by
  induction lines generalizing n front with
  | nil => cases (List.append_eq_nil_iff.mp h.symm).2
  | cons line rest ih =>
    rw [sitesFrom] at h
    split at h
    · rename_i hEmpty
      obtain ⟨above, found, below, rfl, hFront, hNe, rfl⟩ := ih h
      refine ⟨line :: above, found, below, rfl, ?_, hNe, ?_⟩
      · rw [sitesFrom, if_pos hEmpty, hFront]
      · rw [List.length_cons, Nat.add_assoc, Nat.add_comm 1]
    · rename_i hNe
      cases front with
      | nil =>
        obtain ⟨rfl, -⟩ := List.cons.inj h
        exact ⟨[], line, rest, rfl, rfl, hNe, rfl⟩
      | cons first front =>
        obtain ⟨rfl, hRest⟩ := List.cons.inj h
        obtain ⟨above, found, below, rfl, hFront, hFound, rfl⟩ := ih hRest
        refine ⟨line :: above, found, below, rfl, ?_, hFound, ?_⟩
        · rw [sitesFrom, if_neg hNe, hFront]
        · rw [List.length_cons, Nat.add_assoc, Nat.add_comm 1]

/-- A site has the number and the content of a line of its source. -/
theorem exists_line_of_mem_sites {source : Text} {site : Site} (h : site ∈ sites source) :
    ∃ line, (lines source)[site.line - 1]? = some line ∧ 1 ≤ site.line ∧
      site.line ≤ (lines source).length ∧ site.text = content line ∧ site.text ≠ [] := by
  obtain ⟨front, back, hSites⟩ := List.append_of_mem h
  rw [sites_eq] at hSites
  obtain ⟨above, line, below, hLines, -, hNe, rfl⟩ := exists_split_of_sitesFrom hSites
  rw [hLines]
  refine ⟨line, ?_, Nat.le_add_right _ _, ?_, rfl, hNe⟩
  · rw [Nat.add_sub_cancel_left, List.getElem?_append_right (Nat.le_refl _), Nat.sub_self]
    rfl
  · rw [List.length_append, List.length_cons]
    dsimp only
    omega

theorem sites_takeLines {source : Text} {front back : List Site} {site : Site}
    (h : sites source = front ++ site :: back) :
    sites (takeLines site.line source) = front ++ [site] := by
  rw [sites_eq] at h
  obtain ⟨above, line, below, hLines, hFront, hNe, rfl⟩ := exists_split_of_sitesFrom h
  have hTake : (above ++ line :: below).take (1 + above.length) = above ++ [line] := by
    rw [List.take_append, List.take_of_length_le (Nat.le_add_left _ _), Nat.add_sub_cancel, List.take_succ_cons,
      List.take_zero]
  rw [sites_eq, lines_takeLines, hLines, hTake, sitesFrom_append, hFront, sitesFrom, if_neg hNe, sitesFrom]

theorem site_of_read {site : Site} {line : SourceLine} (h : SourceLine.read site = .ok line) :
    line.site = site := by
  rw [read_eq] at h
  obtain ⟨e, -, rfl⟩ := map_eq_ok.mp h
  rfl

theorem readAll_eq_ok_iff {source : Text} {lines : List SourceLine} :
    readAll source = .ok lines ↔
      sites source = lines.map site ∧ ∀ line ∈ lines, SourceLine.read line.site = .ok line := by
  rw [readAll, mapM_eq_ok_iff]
  simp only [locate_eq_ok]
  generalize sites source = places
  constructor
  · intro h
    induction h with
    | nil => exact ⟨rfl, nofun⟩
    | cons hHead _ ih =>
      have hSite := site_of_read hHead
      refine ⟨?_, List.forall_mem_cons.mpr ⟨?_, ih.2⟩⟩
      · rw [List.map_cons, hSite, ih.1]
      · rw [hSite, hHead]
  · rintro ⟨rfl, hRead⟩
    rw [List.forall₂_map_left_iff, List.forall₂_same]
    exact hRead

end SourceLine

end MipsAsm
