/-
The types a value can have. An address is anything of the size of a pointer, strings included.
-/
namespace Ia32Backend

inductive ValueType where
  | int | char | bool | float | address
  deriving DecidableEq, Repr

def ValueType.name : ValueType → String
  | .int => "Int"
  | .char => "Char"
  | .bool => "Bool"
  | .float => "Float"
  | .address => "Address"

/-- Bytes a variable takes on the stack. A character has a slot of its own; none are packed. -/
def ValueType.slotSize (_ : ValueType) : Nat := 4

/-- The type two operands are computed at: a float wins, two characters stay a character, and
everything else is an integer. -/
def ValueType.promote : ValueType → ValueType → ValueType
  | .float, _ => .float
  | _, .float => .float
  | .char, .char => .char
  | _, _ => .int

theorem ValueType.promote_comm (a b : ValueType) : a.promote b = b.promote a := by
  cases a <;> cases b <;> rfl

end Ia32Backend
