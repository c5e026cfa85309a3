import Ia32Backend.Asm.Instr
import Mathlib.Algebra.Group.Int.Defs
import Mathlib.Algebra.Group.Nat.Defs

/-!
Memory of the target: a byte at each of 2^32 addresses, longs stored low byte first. Addresses wrap,
so a cell is known to be untouched only where the cell that was written ends below 2^32.
-/
namespace Ia32Backend

abbrev Word := BitVec 32
abbrev Byte := BitVec 8

abbrev Width.bits : Width → Nat
  | .byte => 8
  | .long => 32

abbrev Width.bytes : Width → Nat
  | .byte => 1
  | .long => 4

abbrev Memory := Word → Byte

namespace Memory

def byteAt (m : Memory) (a : Word) (k : Nat) : Byte := m (a + BitVec.ofNat 32 k)

def read (m : Memory) (a : Word) : (w : Width) → BitVec w.bits
  | .byte => m.byteAt a 0
  | .long => m.byteAt a 3 ++ m.byteAt a 2 ++ m.byteAt a 1 ++ m.byteAt a 0

/-- The byte at a distance of `k` takes bits `8 * k` and up of the value. -/
def write (m : Memory) (a : Word) (w : Width) (v : BitVec w.bits) : Memory :=
  fun x => if (x - a).toNat < w.bytes then v.extractLsb' (8 * (x - a).toNat) 8 else m x

/-- Whether an address lies in the cell at `a`. -/
def InCell (a : Word) (w : Width) (x : Word) : Prop :=
  a.toNat ≤ x.toNat ∧ x.toNat < a.toNat + w.bytes

theorem write_outside (m : Memory) {a x : Word} {w : Width} (v : BitVec w.bits)
    (ends : a.toNat + w.bytes ≤ 2 ^ 32) (outside : ¬ InCell a w x) : m.write a w v x = m x := by
  have far : ¬ (x - a).toNat < w.bytes := by
    intro near
    apply outside
    rw [BitVec.toNat_sub] at near
    have bound := x.isLt
    constructor <;> omega
  rw [write, if_neg far]

theorem byteAt_write (m : Memory) (a : Word) {w : Width} (v : BitVec w.bits) {k : Nat}
    (inside : k < w.bytes) : (m.write a w v).byteAt a k = v.extractLsb' (8 * k) 8 := by
  have small : w.bytes ≤ 4 := by cases w <;> decide
  have offset : (a + BitVec.ofNat 32 k - a).toNat = k := by
    simp only [BitVec.toNat_sub, BitVec.toNat_add, BitVec.toNat_ofNat]
    omega
  rw [byteAt, write, offset, if_pos inside]

theorem read_write_same (m : Memory) (a : Word) (w : Width) (v : BitVec w.bits) :
    (m.write a w v).read a w = v := by
  cases w with
  | byte =>
    rw [read, byteAt_write m a v (by decide)]
    exact BitVec.extractLsb'_eq_self
  | long =>
    simp only [read]
    rw [byteAt_write m a v (k := 3) (by decide), byteAt_write m a v (k := 2) (by decide),
      byteAt_write m a v (k := 1) (by decide), byteAt_write m a v (k := 0) (by decide)]
    rw [BitVec.extractLsb'_append_extractLsb'_eq_extractLsb' (by decide),
      BitVec.extractLsb'_append_extractLsb'_eq_extractLsb' (by decide),
      BitVec.extractLsb'_append_extractLsb'_eq_extractLsb' (by decide)]
    exact BitVec.extractLsb'_eq_self

theorem read_congr {m n : Memory} {a : Word} {w : Width} (ends : a.toNat + w.bytes ≤ 2 ^ 32)
    (same : ∀ x, InCell a w x → m x = n x) : m.read a w = n.read a w := by
  have cell : ∀ k, k < w.bytes → m.byteAt a k = n.byteAt a k := by
    intro k inside
    apply same
    simp only [InCell, BitVec.toNat_add, BitVec.toNat_ofNat]
    omega
  cases w with
  | byte => exact cell 0 (by decide)
  | long =>
    simp only [read]
    rw [cell 3 (by decide), cell 2 (by decide), cell 1 (by decide), cell 0 (by decide)]

/-- A cell that ends before or starts after the one that was written reads as before. -/
theorem read_write_apart (m : Memory) {a b : Word} {w u : Width} (v : BitVec u.bits)
    (endsA : a.toNat + w.bytes ≤ 2 ^ 32) (endsB : b.toNat + u.bytes ≤ 2 ^ 32)
    (apart : a.toNat + w.bytes ≤ b.toNat ∨ b.toNat + u.bytes ≤ a.toNat) :
    (m.write b u v).read a w = m.read a w := by
  apply read_congr endsA
  intro x inside
  apply write_outside m v endsB
  intro both
  simp only [InCell] at inside both
  omega

end Memory

end Ia32Backend
