import MipsAsm.Fault

/-!
Diagnostics: a fault under any number of source locations.
-/

set_option autoImplicit false

namespace MipsAsm

/-- A line of a source: its number, counted from one, and its text without comment and outer blanks. -/
structure Site where
  line : Nat
  text : Text
  deriving DecidableEq, Repr

inductive Diagnostic
  | fault (cause : Fault)
  | located (site : Site) (cause : Diagnostic)
  deriving DecidableEq, Repr

namespace Diagnostic

/-- Locates a diagnostic that has no location yet. -/
def atSite (site : Site) : Diagnostic → Diagnostic
  | fault cause => located site (fault cause)
  | located inner cause => located inner cause

/-- The fault below all locations. -/
def kind : Diagnostic → Fault
  | fault cause => cause
  | located _ cause => cause.kind

def site? : Diagnostic → Option Site
  | fault _ => none
  | located site _ => some site

def message : Diagnostic → Text
  | fault cause => cause.message
  | located site cause =>
    "line ".toList ++ Numeral.decimal site.line ++ ": ".toList ++ Text.quoted site.text ++
      ": ".toList ++ cause.message

/-- The messages from the outermost layer inward. -/
def chain : Diagnostic → List Text
  | fault cause => [cause.message]
  | located site cause => (located site cause).message :: cause.chain

/-- The result of work on one line, its fault located there. -/
def locate {α : Type} (site : Site) (result : Except Fault α) : Except Diagnostic α :=
  result.mapError fun cause => atSite site (fault cause)

end Diagnostic

end MipsAsm
