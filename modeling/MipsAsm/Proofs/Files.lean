import Mathlib.Data.List.DropRight
import MipsAsm.Proofs.Outcome
import MipsAsm.Storage.Tree

/-!
Files. Texts come back from their bytes. In memory, a write changes one place, which is no directory, so
every path leads where it led before and the path that was written is read as what was written.
-/

set_option autoImplicit false

namespace MipsAsm

open Outcome

namespace FileStore

theorem decodeText_encodeText (t : Text) : decodeText (encodeText t) = .ok t := by
  have hDecode (s : String) : String.fromUTF8? s.toUTF8 = some s := by
    unfold String.fromUTF8?
    rw [String.toUTF8_eq_toByteArray, dif_pos s.isValidUTF8]
    rfl
  rw [decodeText, encodeText, hDecode]
  exact congrArg Except.ok String.toList_ofList

end FileStore

namespace Path

theorem getLast?_pieces_ne {path : Path} (hPath : path ≠ []) (hSlash : path.getLast? ≠ some '/') :
    (pieces path).getLast? ≠ some [] := by
  induction path with
  | nil => exact absurd rfl hPath
  | cons c rest ih =>
    rw [pieces, List.splitOn_cons_eq_if_modifyHead]
    cases rest with
    | nil =>
      have hChar : c ≠ '/' := fun h => hSlash (congrArg some h)
      simp [hChar]
    | cons d rest =>
      have hRest := ih (List.cons_ne_nil _ _) (by rwa [List.getLast?_cons_cons] at hSlash)
      rw [pieces] at hRest
      cases hPieces : (d :: rest).splitOn '/' with
      | nil => exact absurd hPieces (List.splitOn_ne_nil _ _)
      | cons first more =>
        rw [hPieces] at hRest
        split
        · rwa [List.getLast?_cons_cons]
        · cases more with
          | nil => simp
          | cons second more =>
            rw [List.getLast?_cons_cons] at hRest
            rwa [List.modifyHead_cons, List.getLast?_cons_cons]

/-- Only a path that ends in a slash has empty pieces to drop at its end. -/
theorem rdropWhile_pieces {path : Path} (hPath : path ≠ []) (hSlash : path.getLast? ≠ some '/') :
    (pieces path).rdropWhile (·.isEmpty) = pieces path := by
  rw [List.rdropWhile_eq_self_iff]
  intro hNe hEmpty
  apply getLast?_pieces_ne hPath hSlash
  rw [List.getLast?_eq_some_getLast hNe, List.isEmpty_iff.mp hEmpty]

end Path

namespace Tree

variable {t : Tree} {place : Location}

theorem node?_setNode_self (hPlace : place ≠ []) (node : Node) :
    (t.setNode place node).node? place = some node := by
  rw [node?, if_neg (mt List.isEmpty_iff.mp hPlace), setNode, List.lookup_cons_self]

theorem node?_setNode_of_ne {other : Location} (h : other ≠ place) (node : Node) :
    (t.setNode place node).node? other = t.node? other := by
  have hOther : (other == place) = false := beq_eq_false_iff_ne.mpr h
  have hFilter (nodes : List (Location × Node)) :
      (nodes.filter (·.1 ≠ place)).lookup other = nodes.lookup other := by
    induction nodes with
    | nil => rfl
    | cons entry nodes ih =>
      by_cases hEntry : entry.1 = place
      · rw [List.filter_cons_of_neg (by simp [hEntry]), List.lookup_cons, hEntry, hOther, ih]
      · rw [List.filter_cons_of_pos (by simp [hEntry]), List.lookup_cons, List.lookup_cons, ih]
  rw [node?, node?, setNode, List.lookup_cons, hOther, hFilter]

theorem enter_setNode (hPlace : t.node? place ≠ some .directory) (node : Node) {dir next : Location}
    {piece : Text} (h : t.enter dir piece = .ok next) : (t.setNode place node).enter dir piece = .ok next := by
  rw [enter] at h ⊢
  by_cases hFiller : Path.isFiller piece = true
  · rwa [if_pos hFiller] at h ⊢
  rw [if_neg hFiller] at h ⊢
  by_cases hParent : piece = Path.parent
  · rwa [if_pos hParent] at h ⊢
  rw [if_neg hParent] at h ⊢
  cases hNode : t.node? (dir ++ [piece]) with
  | none =>
    rw [hNode] at h
    cases h
  | some entered =>
    cases entered with
    | file content =>
      rw [hNode] at h
      cases h
    | directory =>
      have hNe : dir ++ [piece] ≠ place := by
        rintro rfl
        exact hPlace hNode
      rwa [node?_setNode_of_ne hNe]

theorem foldlM_enter_setNode (hPlace : t.node? place ≠ some .directory) (node : Node) {start dir : Location}
    {pieces : List Text} (h : pieces.foldlM t.enter start = .ok dir) :
    pieces.foldlM (t.setNode place node).enter start = .ok dir := by
  induction pieces generalizing start with
  | nil => exact h
  | cons piece pieces ih =>
    rw [List.foldlM_cons] at h ⊢
    obtain ⟨next, hEnter, hRest⟩ := bind_eq_ok.mp h
    exact bind_eq_ok.mpr ⟨next, enter_setNode hPlace node hEnter, ih hRest⟩

theorem child_eq_ok_iff {dir : Location} {piece : Text} :
    t.child dir piece = .ok place ↔
      (Path.isFiller piece || piece == Path.parent) = false ∧ dir ++ [piece] = place ∧
        t.node? place ≠ some .directory := by
  rw [child]
  cases Path.isFiller piece || piece == Path.parent with
  | true => simp
  | false =>
    simp only [Bool.false_eq_true, if_false, true_and]
    cases hNode : t.node? (dir ++ [piece]) with
    | none =>
      simp only [Except.ok.injEq, iff_self_and]
      rintro rfl
      simp [hNode]
    | some node =>
      cases node with
      | directory =>
        constructor
        · intro h
          cases h
        · rintro ⟨rfl, hPlace⟩
          exact absurd hNode hPlace
      | file content =>
        simp only [Except.ok.injEq, iff_self_and]
        rintro rfl
        simp [hNode]

theorem exists_place_of_write {final : Tree} {path : Path} {content : ByteArray}
    (h : t.write path content = .ok final) :
    path ≠ [] ∧ ∃ dir place, (Path.pieces path).dropLast.foldlM t.enter (t.origin path) = .ok dir ∧
      t.child dir ((Path.pieces path).getLast?.getD []) = .ok place ∧
      final = t.setNode place (.file content) := by
  unfold write at h
  by_cases hPath : path = []
  · rw [hPath] at h
    cases h
  rw [if_neg (mt List.isEmpty_iff.mp hPath)] at h
  obtain ⟨dir, hDir, h⟩ := bind_eq_ok.mp h
  by_cases hSlash : path.getLast? = some '/'
  · rw [if_pos hSlash] at h
    cases h
  rw [if_neg hSlash] at h
  obtain ⟨place, hChild, h⟩ := bind_eq_ok.mp h
  rw [← List.rdropWhile, Path.rdropWhile_pieces hPath hSlash] at hDir hChild
  exact ⟨hPath, dir, place, hDir, hChild, (pure_eq_ok.mp h).symm⟩

/-- A file that has been written is read as it was written. -/
theorem read_write {final : Tree} {path : Path} {content : ByteArray} (h : t.write path content = .ok final) :
    final.read path = .ok content := by
  obtain ⟨hPath, dir, place, hDir, hChild, rfl⟩ := exists_place_of_write h
  obtain ⟨hName, hEq, hPlace⟩ := child_eq_ok_iff.mp hChild
  have hNode : (t.setNode place (.file content)).node? place = some (.file content) :=
    node?_setNode_self (hEq ▸ List.concat_ne_nil _ dir) _
  have hChild : (t.setNode place (.file content)).child dir _ = .ok place :=
    child_eq_ok_iff.mpr ⟨hName, hEq, by simp [hNode]⟩
  unfold read
  rw [if_neg (mt List.isEmpty_iff.mp hPath)]
  refine bind_eq_ok.mpr ⟨dir, foldlM_enter_setNode hPlace _ hDir, bind_eq_ok.mpr ⟨place, hChild, ?_⟩⟩
  rw [hNode]
  rfl

end Tree

end MipsAsm
