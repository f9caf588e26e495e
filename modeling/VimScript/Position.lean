/-!
Places in a script. A `Place` says where a character stands in the text it came from; a `Position` adds the
cursor that leads back to it.
-/

set_option autoImplicit false

namespace VimScript

/-- Lines and columns count from one, offsets from zero; columns and offsets count bytes. -/
structure Place where
  line : Nat
  column : Nat
  offset : Nat
deriving DecidableEq, Repr

structure Position where
  cursor : Nat := 0
  line : Nat := 0
  column : Nat := 0
  offset : Nat := 0
deriving DecidableEq, Repr

namespace Position

def ofPlace (cursor : Nat) (place : Place) : Position :=
  ⟨cursor, place.line, place.column, place.offset⟩

def place (p : Position) : Place :=
  ⟨p.line, p.column, p.offset⟩

/-- A position that was never set. -/
def unset : Position := {}

/-- Where a script starts. -/
def origin : Position := ⟨0, 1, 1, 0⟩

@[simp] theorem place_ofPlace (cursor : Nat) (place : Place) :
    (Position.ofPlace cursor place).place = place := rfl

@[simp] theorem cursor_ofPlace (cursor : Nat) (place : Place) :
    (Position.ofPlace cursor place).cursor = cursor := rfl

end Position

end VimScript
