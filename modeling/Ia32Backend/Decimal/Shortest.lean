/-!
The shortest decimal of a value that stands for a whole interval of values. The coarsest decimal
grid that meets the interval fixes the number of digits; of two points of that grid in the interval
the one nearer to the value is taken, and of two equally near the larger.
-/
namespace Ia32Backend

/-- A positive value and the ends of its interval, over a common denominator `2 ^ scale`. -/
structure Rounding where
  lo : Nat
  mid : Nat
  hi : Nat
  scale : Nat
  /-- Whether the ends belong to the interval. -/
  closed : Bool
  deriving DecidableEq, Repr

/-- The number `digits * 10 ^ exp`. -/
structure Decimal where
  digits : Nat
  exp : Int
  deriving DecidableEq, Repr

namespace Rounding

/-- One numerator unit, counted in steps of the grid `10 ^ k`, is `up k / down r k`. -/
def up (k : Int) : Nat := Nat.pow 10 (-k).toNat

def down (r : Rounding) (k : Int) : Nat := Nat.pow 2 r.scale * Nat.pow 10 k.toNat

/-- Whether `n * 10 ^ k` lies in the interval. -/
def holds (r : Rounding) (k : Int) (n : Nat) : Bool :=
  let x := n * r.down k
  if r.closed then r.lo * up k ≤ x && x ≤ r.hi * up k
  else r.lo * up k < x && x < r.hi * up k

/-- The last point of the grid `10 ^ k` that is not above the value. -/
def below (r : Rounding) (k : Int) : Nat := r.mid * up k / r.down k

/-- The point of the grid `10 ^ k` that stands for the value, if the grid meets the interval. -/
def onGrid? (r : Rounding) (k : Int) : Option Nat :=
  let n := r.below k
  let nearer := if 2 * (r.mid * up k) < (2 * n + 1) * r.down k then n else n + 1
  match r.holds k n, r.holds k (n + 1) with
  | true, true => some nearer
  | true, false => some n
  | false, true => some (n + 1)
  | false, false => none

/-- Tries grids from `10 ^ k` on, each ten times finer than the one before. -/
def search (r : Rounding) (k : Int) : Nat → Decimal
  | 0 => ⟨r.below k, k⟩
  | steps + 1 =>
      match r.onGrid? k with
      | some n => ⟨n, k⟩
      | none => search r (k - 1) steps

/-- The first grid lies above the interval. The value itself is on the grid `10 ^ -scale`, where
the search ends if not before. -/
def shortest (r : Rounding) : Decimal :=
  let top := (Nat.toDigits 10 (r.hi / Nat.pow 2 r.scale)).length
  r.search top (top + r.scale)

end Rounding

end Ia32Backend
