import MipsAsm.Word.Basic

/-!
Bit fields of a word. A field reads and writes `width` bits from bit `lsb` upward; packing writes fields
in order into the zero word, so a later field overwrites the bits it shares with an earlier one.
-/

set_option autoImplicit false

namespace MipsAsm

structure Field where
  name : Text
  lsb : Nat
  width : Nat
  deriving DecidableEq, Repr

namespace Field

def opcode : Field := ⟨"opcode".toList, 26, 6⟩

def rs : Field := ⟨"rs".toList, 21, 5⟩

def rt : Field := ⟨"rt".toList, 16, 5⟩

def rd : Field := ⟨"rd".toList, 11, 5⟩

def shamt : Field := ⟨"shamt".toList, 6, 5⟩

def funct : Field := ⟨"funct".toList, 0, 6⟩

def immediate : Field := ⟨"immediate".toList, 0, 16⟩

def index : Field := ⟨"index".toList, 0, 26⟩

def code : Field := ⟨"code".toList, 6, 20⟩

/-- The fields of the three layouts, from the top bit down. -/
def registerLayout : List Field := [opcode, rs, rt, rd, shamt, funct]

def immediateLayout : List Field := [opcode, rs, rt, immediate]

def jumpLayout : List Field := [opcode, index]

/-- The greatest value that fits the field, and never more than a word holds. -/
def max (f : Field) : Nat := (1 <<< min f.width 32) - 1

/-- The field has a bit and all its bits lie in the word. -/
def InWord (f : Field) : Prop := 0 < f.width ∧ f.lsb + f.width ≤ 32

instance (f : Field) : Decidable f.InWord := inferInstanceAs (Decidable (_ ∧ _))

def mask (f : Field) : Word := BitVec.ofNat 32 f.max <<< f.lsb

def read (f : Field) (w : Word) : Word := (w >>> f.lsb) &&& BitVec.ofNat 32 f.max

def write (f : Field) (w value : Word) : Word := (w &&& ~~~f.mask) ||| ((value <<< f.lsb) &&& f.mask)

end Field

inductive FieldError
  | overflow (field : Text) (value : Word) (width : Nat)
  | outsideWord (field : Text)
  deriving DecidableEq, Repr

namespace Field

/-- The field's value, provided that the field lies in the word. -/
def extract (f : Field) (w : Word) : Except FieldError Word :=
  if f.InWord then .ok (f.read w) else .error (.outsideWord f.name)

/-- Writes a value that fits; the value is checked before the position. -/
def place (w : Word) (part : Field × Word) : Except FieldError Word :=
  if part.1.max < part.2.toNat then .error (.overflow part.1.name part.2 part.1.width)
  else if part.1.InWord then .ok (part.1.write w part.2)
  else .error (.outsideWord part.1.name)

def pack (parts : List (Field × Word)) : Except FieldError Word := parts.foldlM place 0

def unpack (layout : List Field) (w : Word) : List Word := layout.map (·.read w)

end Field

end MipsAsm
