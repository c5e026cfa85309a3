import Ia32Backend.Proofs.Meaning.Truth

/-!
Values of characters. What is read, assigned or combined is a byte; a literal is the long of its
code point, and stays one where it is negated. A variable takes on the low byte.
-/
namespace Ia32Backend

namespace Expr

/-- A character, built from variables, literals, assignments, negation and the operators that are no
comparisons. -/
inductive IsCharacter (symbols : SymbolTable) : Expr → Prop where
  | var {v : VarId} (declared : symbols.typeOf? v = some .char) :
      IsCharacter symbols (.ident .char v)
  | literal (node : NodeId) (c : Char) : IsCharacter symbols (.lit .char node (.char c))
  | assign {target : VarId} {value : Expr} (declared : symbols.typeOf? target = some .char)
      (inner : IsCharacter symbols value) : IsCharacter symbols (.assign .char target value)
  | negate {operand : Expr} (inner : IsCharacter symbols operand) :
      IsCharacter symbols (.unary .char .negate operand)
  | combine {op : BinaryOp} {left right : Expr} (combines : op.isRelational = false)
      (first : IsCharacter symbols left) (second : IsCharacter symbols right) :
      IsCharacter symbols (.binary .char op left right)

/-- The number of a literal, under negations. -/
def literal? : Expr → Option Int
  | .lit _ _ (.char c) => some c.toNat
  | .unary _ .negate operand => operand.literal?.map (-·)
  | _ => none

section
variable {symbols : SymbolTable} {t : Terrain} {e : Expr}

theorem callFree_of_character (character : e.IsCharacter symbols) : e.callFree = true := by
  induction character with
  | var | literal => rfl
  | assign _ _ ih | negate _ ih => exact ih
  | combine _ _ _ ihl ihr => exact Bool.and_eq_true_iff.mpr ⟨ihl, ihr⟩

theorem char_of_character (character : e.IsCharacter symbols) : e.ty = .char := by
  cases character <;> rfl

/-- No character asks where anything lies. -/
theorem evaluate_of_widths (character : e.IsCharacter symbols) {other : Terrain}
    (same : t.width = other.width) :
    e.evaluate t noCallees = e.evaluate other noCallees := by
  have load : t.load = other.load := by
    funext v x
    rw [Terrain.load, Terrain.load, same]
  have convert : t.convert = other.convert := by
    funext v x
    rw [Terrain.convert, Terrain.convert, same]
  induction character with
  | var => rw [evaluate, evaluate, load]
  | literal => rfl
  | assign _ _ ih => rw [evaluate, evaluate, convert, ih]
  | negate _ ih => rw [evaluate, evaluate, ih]
  | combine _ _ _ ihl ihr => rw [evaluate, evaluate, ihl, ihr]

theorem literal?_bounds {n : Int} :
    ∀ {e : Expr}, e.literal? = some n → -0x110000 < n ∧ n < 0x110000 := by
  intro e
  induction e using Expr.args_induction generalizing n with
  | lit ty node x =>
    intro found
    cases x with
    | char c =>
      cases found
      have valid := c.valid
      simp only [UInt32.isValidChar, Nat.isValidChar] at valid
      change -0x110000 < (c.val.toNat : Int) ∧ (c.val.toNat : Int) < 0x110000
      omega
    | _ => cases found
  | unary ty op operand ih =>
    intro found
    cases op with
    | negate =>
      obtain ⟨k, inner, rfl⟩ := Option.map_eq_some_iff.mp found
      have bounds := ih inner
      omega
    | _ => cases found
  | _ =>
    intro found
    cases found

theorem evaluate_negate_ok {ty : ValueType} {operand : Expr} {s last : Store Unit} {x : Value}
    (done : (unary ty .negate operand).evaluate t noCallees s = .ok (x, last)) :
    ∃ y, operand.evaluate t noCallees s = .ok (y, last) ∧ x = ⟨y.width, -y.bits⟩ := by
  rw [evaluate] at done
  obtain ⟨y, mid, inner, done⟩ := Eval.bind_ok.mp done
  cases done
  exact ⟨y, inner, rfl⟩

/-- A character is a byte, or the long of a literal. -/
theorem value_of_character (character : e.IsCharacter symbols)
    (narrow : ∀ v, symbols.typeOf? v = some .char → t.width v = .byte) :
    ∀ {s last : Store Unit} {x : Value}, e.evaluate t noCallees s = .ok (x, last) →
      (e.literal? = none ∧ x.width = .byte) ∨
        ∃ n, e.literal? = some n ∧ x = ⟨.long, BitVec.ofInt 32 n⟩ := by
  induction character with
  | @var v declared =>
    intro s last x done
    cases done
    exact .inl ⟨rfl, narrow v declared⟩
  | literal node c =>
    intro s last x done
    cases done
    exact .inr ⟨_, rfl, by rw [BitVec.ofInt_natCast]⟩
  | @assign target _ declared inner ih =>
    intro s last x done
    obtain ⟨_, _, _, rfl, _⟩ := evaluate_assign_ok done
    exact .inl ⟨rfl, narrow target declared⟩
  | negate inner ih =>
    intro s last x done
    obtain ⟨y, evaluated, rfl⟩ := evaluate_negate_ok done
    rcases ih evaluated with ⟨none, byte⟩ | ⟨n, some, rfl⟩
    · exact .inl ⟨by rw [literal?, none]; rfl, byte⟩
    · exact .inr ⟨-n, by rw [literal?, some]; rfl, by rw [BitVec.ofInt_neg]⟩
  | combine combines first second ihl ihr =>
    intro s last x done
    obtain ⟨_, _, _, _, _, _, _, rfl⟩ := evaluate_binary_ok done
    refine .inl ⟨rfl, ?_⟩
    change operandWidth _ _ = _
    rw [char_of_character first, char_of_character second]
    rfl

end

end Expr

theorem Value.at_own {w : Width} (b : BitVec w.bits) : Value.at ⟨w, b⟩ w = b :=
  BitVec.signExtend_eq b

/-- The low byte of a value is that of its long. -/
theorem Value.at_byte (x : Value) : x.at .byte = (x.at .long).setWidth 8 := by
  obtain ⟨w, bits⟩ := x
  cases w with
  | byte =>
    exact (Value.at_own bits).trans (Value.setWidth_signExtend bits (by decide)).symm
  | long =>
    rw [Value.at_own]
    exact BitVec.signExtend_eq_setWidth_of_le bits (show 8 ≤ 32 by decide)

theorem Value.extend_of_byte {x : Value} (byte : x.width = .byte) :
    ((x.at .long).setWidth 8).signExtend 32 = x.at .long := by
  obtain ⟨w, bits⟩ := x
  subst byte
  exact congrArg (BitVec.signExtend 32) (Value.setWidth_signExtend bits (by decide))

/-- A number of a code point's size, cut off to its low byte and extended again. -/
theorem extend_ofInt {n : Int} (low : -0x110000 < n) (high : n < 0x110000) :
    BitVec.ofInt 32 n = ((BitVec.ofInt 32 n).setWidth 8).signExtend 32 ↔ -128 ≤ n ∧ n < 128 := by
  have cut : (BitVec.ofInt 32 n).setWidth 8 = BitVec.ofInt 8 n := by
    apply BitVec.eq_of_toNat_eq
    rw [BitVec.toNat_setWidth, BitVec.toNat_ofInt, BitVec.toNat_ofInt]
    omega
  rw [cut, ← BitVec.toInt_inj, BitVec.toInt_signExtend_of_le (by decide), BitVec.toInt_ofInt,
    BitVec.toInt_ofInt, Int.bmod_def, Int.bmod_def]
  split <;> split <;> omega

end Ia32Backend
