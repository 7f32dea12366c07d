import MipsAsm.Word.Basic

/-!
Label bindings of one segment, sorted by name. Two tables with the same bindings are equal, whatever
the order in which the labels were bound.
-/

set_option autoImplicit false

namespace MipsAsm

/-- Names with their addresses, in strictly ascending order of code points. -/
structure Bindings where
  entries : List (Text × Word) := []
  sorted : entries.Pairwise (fun a b => a.1 < b.1) := by exact List.Pairwise.nil
  deriving DecidableEq, Repr

namespace Bindings

def get? (b : Bindings) (name : Text) : Option Word := b.entries.lookup name

/-- Adds a binding in its place. An old address of the name is replaced. -/
def addEntry (name : Text) (address : Word) : List (Text × Word) → List (Text × Word)
  | [] => [(name, address)]
  | entry :: rest =>
    if name < entry.1 then (name, address) :: entry :: rest
    else if name = entry.1 then (name, address) :: rest
    else entry :: addEntry name address rest

theorem mem_addEntry {name : Text} {address : Word} {entries : List (Text × Word)}
    {entry : Text × Word} (h : entry ∈ addEntry name address entries) :
    entry = (name, address) ∨ entry ∈ entries := by
  induction entries with
  | nil => simpa [addEntry] using h
  | cons first rest ih =>
    simp only [addEntry] at h
    split at h
    · simpa using h
    split at h
    · exact (List.mem_cons.mp h).imp_right (List.mem_cons_of_mem _)
    · rcases List.mem_cons.mp h with hFirst | hRest
      · exact .inr (hFirst ▸ List.mem_cons_self)
      · exact (ih hRest).imp_right (List.mem_cons_of_mem _)

theorem pairwise_addEntry (name : Text) (address : Word) {entries : List (Text × Word)}
    (h : entries.Pairwise (fun a b => a.1 < b.1)) :
    (addEntry name address entries).Pairwise (fun a b => a.1 < b.1) := by
  induction entries with
  | nil => exact List.pairwise_singleton ..
  | cons first rest ih =>
    obtain ⟨hFirst, hRest⟩ := List.pairwise_cons.mp h
    simp only [addEntry]
    split
    · rename_i hLess
      refine List.pairwise_cons.mpr ⟨fun entry hEntry => ?_, h⟩
      rcases List.mem_cons.mp hEntry with rfl | hEntry
      · exact hLess
      · exact List.lt_trans hLess (hFirst entry hEntry)
    split
    · rename_i hEq
      exact List.pairwise_cons.mpr ⟨hEq ▸ hFirst, hRest⟩
    · rename_i hLess hNe
      refine List.pairwise_cons.mpr ⟨fun entry hEntry => ?_, ih hRest⟩
      rcases mem_addEntry hEntry with rfl | hEntry
      · exact (List.le_iff_lt_or_eq.mp (List.not_lt.mp hLess)).resolve_right (Ne.symm hNe)
      · exact hFirst entry hEntry

/-- Binds a name, whether or not it is bound already. -/
def insert (b : Bindings) (name : Text) (address : Word) : Bindings :=
  ⟨addEntry name address b.entries, pairwise_addEntry name address b.sorted⟩

end Bindings

end MipsAsm
