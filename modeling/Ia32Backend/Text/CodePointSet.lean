/-
Sets of code points, written as the points at which membership changes, in rising order and
starting outside the set.
-/
namespace Ia32Backend

structure CodePointSet where
  turns : List Nat
  deriving DecidableEq, Repr

namespace CodePointSet

def holds (code : Nat) : List Nat → Bool
  | [] => false
  | turn :: rest => if code < turn then false else !holds code rest

def contains (s : CodePointSet) (c : Char) : Bool := holds c.toNat s.turns

end CodePointSet

end Ia32Backend
