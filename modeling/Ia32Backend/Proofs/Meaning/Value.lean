import Ia32Backend.Proofs.Machine.Memory
import Ia32Backend.Tree

/-!
Values of the source language and its operators. A value is a byte or a long, in two's complement;
arithmetic wraps, and a byte becomes a long by its sign.
-/
namespace Ia32Backend

structure Value where
  width : Width
  bits : BitVec width.bits
  deriving DecidableEq, Repr

/-- A value taken at a width: extended by its sign, or cut off. -/
def Value.at (v : Value) (w : Width) : BitVec w.bits := v.bits.signExtend w.bits

def Value.isTrue (v : Value) : Bool := v.bits != 0

/-- One for true, zero for false. -/
def truth (n : Nat) (b : Bool) : BitVec n := if b then 1 else 0

/-- Both operands are characters, or the operation is one of longs. -/
def operandWidth (left right : ValueType) : Width :=
  if left = .char ∧ right = .char then .byte else .long

/-- The result of an operator, if there is one: a quotient by zero does not exist, and that of the
least number by minus one does not fit. -/
def BinaryOp.apply {n : Nat} (a b : BitVec n) : BinaryOp → Option (BitVec n)
  | .plus => some (a + b)
  | .minus => some (a - b)
  | .multiply => some (a * b)
  | .divide => if b = 0 ∨ (a = BitVec.intMin n ∧ b = -1) then none else some (a.sdiv b)
  | .and => some (a &&& b)
  | .or => some (a ||| b)
  | .equal => some (truth n (a == b))
  | .notEqual => some (truth n (a != b))
  | .lessThan => some (truth n (a.slt b))
  | .lessEqual => some (truth n (a.sle b))
  | .greaterThan => some (truth n (b.slt a))
  | .greaterEqual => some (truth n (b.sle a))

/-- Extending by the sign and cutting off again changes nothing. -/
theorem Value.setWidth_signExtend {n k : Nat} (x : BitVec n) (wider : n ≤ k) :
    (x.signExtend k).setWidth n = x := by
  ext i inside
  rw [BitVec.getElem_setWidth, BitVec.getLsbD_signExtend, if_pos inside,
    decide_eq_true (Nat.lt_of_lt_of_le inside wider), Bool.true_and]
  exact BitVec.getLsbD_eq_getElem inside

end Ia32Backend
