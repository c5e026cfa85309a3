import Ia32Backend.Proofs.Meaning.Truth

/-!
Which of its words a truth comes to. A formula that is true is all ones or one, and which of the two
goes by the literals in it: a comparison and a negation make one of whatever they are given.
-/
namespace Ia32Backend

namespace Expr

/-- A truth built from literals and comparisons of operands without calls. -/
inductive IsFormula : Expr → Prop where
  | literal (node : NodeId) (b : Bool) : IsFormula (.lit .bool node (.bool b))
  | compare {op : BinaryOp} {left right : Expr} (relational : op.isRelational = true)
      (leftType : left.ty = .int ∨ left.ty = .char)
      (rightType : right.ty = .int ∨ right.ty = .char) (leftFree : left.callFree = true)
      (rightFree : right.callFree = true) : IsFormula (.binary .bool op left right)
  | not {operand : Expr} (inner : IsFormula operand) : IsFormula (.unary .bool .not operand)
  | both {op : BinaryOp} {left right : Expr} (joins : op = .and ∨ op = .or)
      (first : IsFormula left) (second : IsFormula right) : IsFormula (.binary .bool op left right)

/-- Whether a formula is true as all ones. A conjunction takes two such operands, a disjunction
one. -/
def fills (t : Terrain) : Expr → Store Unit → Bool
  | .lit _ _ (.bool b), _ => b
  | .binary _ .and left right, s => left.fills t s && right.fills t (left.after t s)
  | .binary _ .or left right, s => left.fills t s || right.fills t (left.after t s)
  | _, _ => false

theorem fills_relational {t : Terrain} {op : BinaryOp} (relational : op.isRelational = true)
    (ty : ValueType) (left right : Expr) (s : Store Unit) :
    (binary ty op left right).fills t s = false := by
  cases op <;> first | rfl | cases relational

theorem callFree_of_formula {e : Expr} (formula : e.IsFormula) : e.callFree = true := by
  induction formula with
  | literal => rfl
  | compare _ _ _ leftFree rightFree => exact Bool.and_eq_true_iff.mpr ⟨leftFree, rightFree⟩
  | not _ ih => exact ih
  | both _ _ _ ihl ihr => exact Bool.and_eq_true_iff.mpr ⟨ihl, ihr⟩

theorem bool_of_formula {e : Expr} (formula : e.IsFormula) : e.ty = .bool := by
  cases formula <;> rfl

/-- The word of a truth, by whether it is true and whether as all ones. -/
def encoded (holds fills : Bool) : Word := if fills then -1 else truth 32 holds

theorem encoded_ne_zero {a b : Bool} (full : b = true → a = true) :
    encoded a b ≠ 0 ↔ a = true := by
  cases a <;> cases b <;> first | decide | exact absurd (full rfl) (by decide)

theorem encoded_inj {a b c d : Bool} (first : b = true → a = true) (second : d = true → c = true) :
    encoded a b = encoded c d ↔ a = c ∧ b = d := by
  cases a <;> cases b <;> cases c <;> cases d <;>
    first | decide | exact absurd (first rfl) (by decide) | exact absurd (second rfl) (by decide)

theorem encoded_and {a b c d : Bool} (first : b = true → a = true) (second : d = true → c = true) :
    encoded a b &&& encoded c d = encoded (a && c) (b && d) := by
  cases a <;> cases b <;> cases c <;> cases d <;>
    first | decide | exact absurd (first rfl) (by decide) | exact absurd (second rfl) (by decide)

theorem encoded_or (a b c d : Bool) :
    encoded a b ||| encoded c d = encoded (a || c) (b || d) := by
  cases a <;> cases b <;> cases c <;> cases d <;> decide

/-- A formula comes to the word of its encoding, and nothing false is all ones. -/
theorem encoded_of_formula {t : Terrain} {e : Expr} (formula : e.IsFormula) :
    ∀ {s last : Store Unit} {x : Value}, e.evaluate t noCallees s = .ok (x, last) →
      x.at .long = encoded (e.holds t s) (e.fills t s) ∧
        (e.fills t s = true → e.holds t s = true) := by
  induction formula with
  | literal node b =>
    intro s last x done
    cases b with
    | false => cases done; exact ⟨rfl, id⟩
    | true => cases done; exact ⟨rfl, id⟩
  | compare relational =>
    intro s last x done
    rw [fills_relational relational]
    exact ⟨compare_word relational done, fun full => by cases full⟩
  | not inner ih =>
    intro s last x done
    obtain ⟨y, evaluated, rfl⟩ := evaluate_not_ok done
    obtain ⟨word, full⟩ := ih evaluated
    have nonzero := y.isTrue_iff
    rw [word, encoded_ne_zero full] at nonzero
    exact ⟨not_word (Bool.eq_iff_iff.mpr nonzero), fun full => by cases full⟩
  | both joins first second ihl ihr =>
    intro s last x done
    obtain ⟨a, mid, b, evaluated, evaluatedRight, result⟩ :=
      both_word (bool_of_formula first) (bool_of_formula second) done
    obtain ⟨wordA, fullA⟩ := ihl evaluated
    obtain ⟨wordB, fullB⟩ := ihr evaluatedRight
    rw [wordA, wordB] at result
    rcases joins with rfl | rfl
    · rw [← Option.some.inj result, encoded_and fullA fullB, fills, holds, after_eq evaluated]
      refine ⟨rfl, fun full => ?_⟩
      obtain ⟨left, right⟩ := Bool.and_eq_true_iff.mp full
      exact Bool.and_eq_true_iff.mpr ⟨fullA left, fullB right⟩
    · rw [← Option.some.inj result, encoded_or, fills, holds, after_eq evaluated]
      refine ⟨rfl, fun full => ?_⟩
      exact Bool.or_eq_true_iff.mpr ((Bool.or_eq_true_iff.mp full).imp fullA fullB)

end Expr

end Ia32Backend
