import Ia32Backend.Proofs.Meaning.Valuation

/-!
Truth of expressions. A literal is true as all ones, a comparison or a negation as one, and a
variable may hold either. Zero and these two words are closed under conjunction and disjunction bit
by bit, which is why words and truth do not part.
-/
namespace Ia32Backend

/-- False, and true in its two forms. -/
def truthWords : List Word := [0, 1, -1]

theorem mem_truthWords {a : Word} : a ∈ truthWords ↔ a = 0 ∨ a = 1 ∨ a = -1 := by
  simp [truthWords]

theorem truthWords_and {a b : Word} (left : a ∈ truthWords) (right : b ∈ truthWords) :
    a &&& b ∈ truthWords ∧ (a &&& b ≠ 0 ↔ a ≠ 0 ∧ b ≠ 0) := by
  rw [mem_truthWords] at left right ⊢
  rcases left with rfl | rfl | rfl <;> rcases right with rfl | rfl | rfl <;> decide

theorem truthWords_or {a b : Word} (left : a ∈ truthWords) (right : b ∈ truthWords) :
    a ||| b ∈ truthWords ∧ (a ||| b ≠ 0 ↔ a ≠ 0 ∨ b ≠ 0) := by
  rw [mem_truthWords] at left right ⊢
  rcases left with rfl | rfl | rfl <;> rcases right with rfl | rfl | rfl <;> decide

theorem truth_mem (b : Bool) : truth 32 b ∈ truthWords ∧ (truth 32 b ≠ 0 ↔ b = true) := by
  rw [mem_truthWords]
  cases b <;> decide

theorem signExtend_truth (w : Width) (b : Bool) :
    (truth w.bits b).signExtend 32 = truth 32 b := by
  cases w <;> cases b <;> rfl

theorem Value.isTrue_iff (x : Value) : x.isTrue = true ↔ x.at .long ≠ 0 := by
  obtain ⟨w, bits⟩ := x
  have within : w.bits ≤ 32 := by cases w <;> decide
  refine bne_iff_ne.trans (not_congr ⟨?_, ?_⟩)
  · intro zero
    exact (congrArg (BitVec.signExtend 32) zero).trans (by cases w <;> rfl)
  · intro zero
    rw [← Value.setWidth_signExtend bits within]
    exact (congrArg (BitVec.setWidth w.bits) zero).trans (BitVec.setWidth_zero _ _)

/-- What a relational operator asks of two numbers. -/
def BinaryOp.relates (a b : Int) : BinaryOp → Bool
  | .equal => a = b
  | .notEqual => a ≠ b
  | .lessThan => a < b
  | .lessEqual => a ≤ b
  | .greaterThan => b < a
  | .greaterEqual => b ≤ a
  | _ => false

theorem BinaryOp.apply_relational {op : BinaryOp} (relational : op.isRelational = true) {n : Nat}
    (a b : BitVec n) : op.apply a b = some (truth n (op.relates a.toInt b.toInt)) := by
  have same : (a == b) = decide (a.toInt = b.toInt) := by
    rw [Bool.eq_iff_iff, beq_iff_eq, decide_eq_true_eq]
    exact BitVec.toInt_inj.symm
  cases op with
  | equal => simp only [apply, relates, same]
  | notEqual => simp only [apply, relates, bne, same, ne_eq, decide_not]
  | lessThan => rfl
  | lessEqual => rfl
  | greaterThan => rfl
  | greaterEqual => rfl
  | _ => cases relational

namespace Expr

/-- The store that an expression without calls leaves, or the one before it if it has no value. -/
def after (t : Terrain) (e : Expr) (s : Store Unit) : Store Unit :=
  match e.evaluate t noCallees s with
  | .ok (_, later) => later
  | .error _ => s

/-- The number that an expression without calls is compared as, at a width. -/
def number (t : Terrain) (w : Width) (e : Expr) (s : Store Unit) : Int :=
  match e.evaluate t noCallees s with
  | .ok (x, _) => (x.at w).toInt
  | .error _ => 0

/-- Whether an expression is true. Both operands of a conjunction or a disjunction are evaluated,
the right one behind the left. -/
def holds (t : Terrain) : Expr → Store Unit → Bool
  | .ident _ v, s => s.vars v != 0
  | .lit _ _ (.bool b), _ => b
  | .lit _ _ _, _ => false
  | .assign _ _ value, s => value.holds t s
  | .unary _ .not operand, s => !operand.holds t s
  | .unary _ _ _, _ => false
  | .binary _ .and left right, s => left.holds t s && right.holds t (left.after t s)
  | .binary _ .or left right, s => left.holds t s || right.holds t (left.after t s)
  | .binary _ op left right, s =>
      let w := operandWidth left.ty right.ty
      op.relates (left.number t w s) (right.number t w (left.after t s))
  | .call _ _ _, _ => false

theorem holds_relational {t : Terrain} {op : BinaryOp} (relational : op.isRelational = true)
    (ty : ValueType) (left right : Expr) (s : Store Unit) :
    (binary ty op left right).holds t s =
      op.relates (left.number t (operandWidth left.ty right.ty) s)
        (right.number t (operandWidth left.ty right.ty) (left.after t s)) := by
  cases op <;> first | rfl | cases relational

section
variable {t : Terrain} {e left right : Expr} {s mid last : Store Unit} {x y : Value}

theorem after_eq (done : e.evaluate t noCallees s = .ok (x, last)) : e.after t s = last := by
  rw [after, done]

theorem number_eq (done : e.evaluate t noCallees s = .ok (x, last)) (w : Width) :
    e.number t w s = (x.at w).toInt := by
  rw [number, done]

theorem evaluate_assign_ok {ty : ValueType} {target : VarId} {value : Expr}
    (done : (assign ty target value).evaluate t noCallees s = .ok (x, last)) :
    ∃ y mid, value.evaluate t noCallees s = .ok (y, mid) ∧ x = t.convert target y ∧
      last = { mid with vars := fun u =>
        if u = target then x.bits.signExtend 32 else mid.vars u } := by
  rw [evaluate] at done
  obtain ⟨y, mid, inner, done⟩ := Eval.bind_ok.mp done
  cases done
  exact ⟨y, mid, inner, rfl, rfl⟩

theorem evaluate_assign {ty : ValueType} {target : VarId} {value : Expr}
    (done : value.evaluate t noCallees s = .ok (x, mid)) :
    (assign ty target value).evaluate t noCallees s =
      .ok (t.convert target x, { mid with vars := fun u =>
        if u = target then (t.convert target x).bits.signExtend 32 else mid.vars u }) := by
  rw [evaluate]
  exact Eval.bind_ok.mpr ⟨x, mid, done, rfl⟩

theorem evaluate_lit_ok {ty : ValueType} {node : NodeId} {literal : Literal}
    (done : (lit ty node literal).evaluate t noCallees s = .ok (x, last)) :
    t.literal node literal = .ok x ∧ last = s := by
  rw [evaluate] at done
  cases value : t.literal node literal with
  | error stop =>
    rw [value] at done
    cases done
  | ok y =>
    rw [value] at done
    cases done
    exact ⟨rfl, rfl⟩

/-- Whatever is made of it, the operand is evaluated, and nothing behind it. -/
theorem evaluate_unary_ok {ty : ValueType} {op : UnaryOp} {operand : Expr}
    (done : (unary ty op operand).evaluate t noCallees s = .ok (x, last)) :
    ∃ y, operand.evaluate t noCallees s = .ok (y, last) := by
  cases op with
  | addressOf =>
    cases operand <;> cases done
    exact ⟨_, rfl⟩
  | not | negate =>
    rw [evaluate] at done
    obtain ⟨y, mid, inner, done⟩ := Eval.bind_ok.mp done
    cases done
    exact ⟨y, inner⟩

theorem evaluate_not_ok {ty : ValueType} {operand : Expr}
    (done : (unary ty .not operand).evaluate t noCallees s = .ok (x, last)) :
    ∃ y, operand.evaluate t noCallees s = .ok (y, last) ∧ x = ⟨.long, truth 32 (!y.isTrue)⟩ := by
  rw [evaluate] at done
  obtain ⟨y, mid, inner, done⟩ := Eval.bind_ok.mp done
  cases done
  exact ⟨y, inner, rfl⟩

theorem evaluate_binary_ok {ty : ValueType} {op : BinaryOp}
    (done : (binary ty op left right).evaluate t noCallees s = .ok (x, last)) :
    ∃ a mid b r, left.evaluate t noCallees s = .ok (a, mid) ∧
      right.evaluate t noCallees mid = .ok (b, last) ∧
      op.apply (a.at (operandWidth left.ty right.ty)) (b.at (operandWidth left.ty right.ty)) =
        some r ∧ x = ⟨operandWidth left.ty right.ty, r⟩ := by
  rw [evaluate] at done
  obtain ⟨a, mid, first, done⟩ := Eval.bind_ok.mp done
  obtain ⟨b, later, second, done⟩ := Eval.bind_ok.mp done
  obtain ⟨r, result, rfl, rfl⟩ := Eval.operate_ok done
  exact ⟨a, mid, b, r, first, second, result, rfl⟩

end

end Expr

/-- Bool variables of a list hold truths. -/
def Truthful (symbols : SymbolTable) (known : List VarId) (vars : VarId → Word) : Prop :=
  ∀ v ∈ known, symbols.typeOf? v = some .bool → vars v ∈ truthWords

/-- What an expression is there for: to be true or false, or to be a number that is compared. -/
inductive Role where
  | truth | number

/-- An expression without calls, in a place where some variables are known to hold truths if they
are Bool variables. A truth is a literal, a comparison of numbers, a negation, conjunction or
disjunction of truths, a Bool variable known to hold one, or the assignment of one to a Bool
variable. A number may be anything, as long as it assigns Bool variables nothing but truths. -/
inductive Expr.Plays (symbols : SymbolTable) : Role → List VarId → Expr → Prop where
  | var {known : List VarId} {v : VarId} (bool : symbols.typeOf? v = some .bool)
      (inside : v ∈ known) : Plays symbols .truth known (.ident .bool v)
  | literal (known : List VarId) (node : NodeId) (b : Bool) :
      Plays symbols .truth known (.lit .bool node (.bool b))
  | assign {known : List VarId} {target : VarId} {value : Expr}
      (bool : symbols.typeOf? target = some .bool) (inner : Plays symbols .truth known value) :
      Plays symbols .truth known (.assign .bool target value)
  | not {known : List VarId} {operand : Expr} (inner : Plays symbols .truth known operand) :
      Plays symbols .truth known (.unary .bool .not operand)
  | both {known : List VarId} {op : BinaryOp} {left right : Expr} (joins : op = .and ∨ op = .or)
      (first : Plays symbols .truth known left)
      (second : Plays symbols .truth (known ++ left.assigned) right) :
      Plays symbols .truth known (.binary .bool op left right)
  | compare {known : List VarId} {op : BinaryOp} {left right : Expr}
      (relational : op.isRelational = true) (leftType : left.ty = .int ∨ left.ty = .char)
      (rightType : right.ty = .int ∨ right.ty = .char)
      (first : Plays symbols .number known left)
      (second : Plays symbols .number (known ++ left.assigned) right) :
      Plays symbols .truth known (.binary .bool op left right)
  | read (known : List VarId) (ty : ValueType) (v : VarId) :
      Plays symbols .number known (.ident ty v)
  | constant (known : List VarId) (ty : ValueType) (node : NodeId) (x : Literal) :
      Plays symbols .number known (.lit ty node x)
  | store {known : List VarId} {target : VarId} {value : Expr} (ty : ValueType)
      (other : symbols.typeOf? target ≠ some .bool) (inner : Plays symbols .number known value) :
      Plays symbols .number known (.assign ty target value)
  | storeTruth {known : List VarId} {target : VarId} {value : Expr} (ty : ValueType)
      (inner : Plays symbols .truth known value) :
      Plays symbols .number known (.assign ty target value)
  | unary {known : List VarId} {operand : Expr} (ty : ValueType) (op : UnaryOp)
      (inner : Plays symbols .number known operand) :
      Plays symbols .number known (.unary ty op operand)
  | binary {known : List VarId} {left right : Expr} (ty : ValueType) (op : BinaryOp)
      (first : Plays symbols .number known left)
      (second : Plays symbols .number (known ++ left.assigned) right) :
      Plays symbols .number known (.binary ty op left right)

namespace Expr

section
variable {symbols : SymbolTable} {t : Terrain} {role : Role} {known : List VarId} {e : Expr}

theorem callFree_of_plays (plays : e.Plays symbols role known) : e.callFree = true := by
  induction plays with
  | var | literal | read | constant => rfl
  | assign _ _ ih | not _ ih | store _ _ _ ih | storeTruth _ _ ih | unary _ _ _ ih => exact ih
  | both _ _ _ ihl ihr | compare _ _ _ _ _ ihl ihr | binary _ _ _ _ ihl ihr =>
    exact Bool.and_eq_true_iff.mpr ⟨ihl, ihr⟩

theorem bool_of_plays (plays : e.Plays symbols .truth known) : e.ty = .bool := by
  cases plays <;> rfl

end

/-- A value is a truth, and the right one. -/
def Tells (t : Terrain) (e : Expr) (s : Store Unit) (x : Value) : Prop :=
  x.at .long ∈ truthWords ∧ (x.at .long ≠ 0 ↔ e.holds t s = true)

section
variable {t : Terrain} {left right : Expr} {s mid last : Store Unit} {a b x : Value}

theorem isTrue_of_tells {e : Expr} (tells : e.Tells t s x) : x.isTrue = e.holds t s :=
  Bool.eq_iff_iff.mpr (x.isTrue_iff.trans tells.2)

theorem not_word {ty : ValueType} {operand : Expr} (agrees : a.isTrue = operand.holds t s) :
    (⟨.long, truth 32 (!a.isTrue)⟩ : Value).at .long =
      truth 32 ((unary ty .not operand).holds t s) := by
  rw [holds, agrees]
  exact BitVec.signExtend_eq _

theorem compare_word {ty : ValueType} {op : BinaryOp} (relational : op.isRelational = true)
    (done : (binary ty op left right).evaluate t noCallees s = .ok (x, last)) :
    x.at .long = truth 32 ((binary ty op left right).holds t s) := by
  obtain ⟨a, mid, b, r, first, second, result, rfl⟩ := evaluate_binary_ok done
  rw [BinaryOp.apply_relational relational, Option.some.injEq] at result
  rw [holds_relational relational, number_eq first, after_eq first, number_eq second, ← result]
  exact signExtend_truth _ _

/-- A conjunction or a disjunction of truths is one of longs. -/
theorem both_word {ty : ValueType} {op : BinaryOp} (leftBool : left.ty = .bool)
    (rightBool : right.ty = .bool)
    (done : (binary ty op left right).evaluate t noCallees s = .ok (x, last)) :
    ∃ a mid b, left.evaluate t noCallees s = .ok (a, mid) ∧
      right.evaluate t noCallees mid = .ok (b, last) ∧
      op.apply (a.at .long) (b.at .long) = some (x.at .long) := by
  obtain ⟨a, mid, b, r, first, second, result, rfl⟩ := evaluate_binary_ok done
  have long : operandWidth left.ty right.ty = .long := by rw [leftBool, rightBool]; rfl
  clear done
  revert r
  rw [long]
  intro r result
  exact ⟨a, mid, b, first, second, result.trans (congrArg some (BitVec.signExtend_eq r).symm)⟩

theorem tells_of_word {e : Expr} (word : x.at .long = truth 32 (e.holds t s)) :
    e.Tells t s x := by
  rw [Tells, word]
  exact truth_mem _

theorem tells_both {ty : ValueType} {op : BinaryOp} (joins : op = .and ∨ op = .or)
    (first : left.evaluate t noCallees s = .ok (a, mid)) (tellsLeft : left.Tells t s a)
    (tellsRight : right.Tells t mid b)
    (result : op.apply (a.at .long) (b.at .long) = some (x.at .long)) :
    (binary ty op left right).Tells t s x := by
  obtain ⟨wordA, trueA⟩ := tellsLeft
  obtain ⟨wordB, trueB⟩ := tellsRight
  rw [Tells]
  rcases joins with rfl | rfl
  · rw [← Option.some.inj result]
    obtain ⟨member, nonzero⟩ := truthWords_and wordA wordB
    exact ⟨member, by rw [nonzero, holds, after_eq first, Bool.and_eq_true, trueA, trueB]⟩
  · rw [← Option.some.inj result]
    obtain ⟨member, nonzero⟩ := truthWords_or wordA wordB
    exact ⟨member, by rw [nonzero, holds, after_eq first, Bool.or_eq_true, trueA, trueB]⟩

end

theorem truthful_assign {symbols : SymbolTable} {known more : List VarId} {target : VarId}
    {vars : VarId → Word} {x : Word} (truthful : Truthful symbols (known ++ more) vars)
    (word : symbols.typeOf? target = some .bool → x ∈ truthWords) :
    Truthful symbols (known ++ target :: more) fun u => if u = target then x else vars u := by
  intro v member bool
  by_cases same : v = target
  · subst target
    simpa using word bool
  · simp only [same, if_false]
    refine truthful v ?_ bool
    simpa [same] using member

/-- A Bool variable takes on the word of a value, not less. -/
theorem convert_bool {symbols : SymbolTable} {t : Terrain}
    (wide : ∀ v, symbols.typeOf? v = some .bool → t.width v = .long) {v : VarId}
    (bool : symbols.typeOf? v = some .bool) (x : Value) :
    t.convert v x = ⟨.long, x.at .long⟩ := by
  rw [Terrain.convert, wide v bool]

theorem stored_bool {symbols : SymbolTable} {t : Terrain}
    (wide : ∀ v, symbols.typeOf? v = some .bool → t.width v = .long) {v : VarId}
    (bool : symbols.typeOf? v = some .bool) (x : Value) :
    (t.convert v x).bits.signExtend 32 = x.at .long := by
  rw [convert_bool wide bool]
  exact BitVec.signExtend_eq _

theorem load_bool {symbols : SymbolTable} {t : Terrain}
    (wide : ∀ v, symbols.typeOf? v = some .bool → t.width v = .long) {v : VarId}
    (bool : symbols.typeOf? v = some .bool) (x : Word) : t.load v x = ⟨.long, x⟩ := by
  rw [Terrain.load, wide v bool]
  exact congrArg (Value.mk .long) (BitVec.setWidth_eq x)

/-- A truth comes to the right word, and Bool variables keep holding truths, as do those that are
assigned. -/
theorem tells_of_plays {symbols : SymbolTable} {t : Terrain} {role : Role} {known : List VarId}
    {e : Expr} (plays : e.Plays symbols role known)
    (wide : ∀ v, symbols.typeOf? v = some .bool → t.width v = .long) :
    ∀ {s last : Store Unit} {x : Value}, Truthful symbols known s.vars →
      e.evaluate t noCallees s = .ok (x, last) →
      Truthful symbols (known ++ e.assigned) last.vars ∧ (role = .truth → e.Tells t s x) := by
  induction plays with
  | @var known v bool inside =>
    intro s last x truthful done
    cases done
    rw [assigned_ident, List.append_nil]
    refine ⟨truthful, fun _ => ?_⟩
    rw [load_bool wide bool, Tells, Value.at, BitVec.signExtend_eq]
    exact ⟨truthful v inside bool, by rw [holds, bne_iff_ne]⟩
  | literal known node b =>
    intro s last x truthful done
    rw [assigned_lit, List.append_nil]
    cases b with
    | false =>
      cases done
      exact ⟨truthful, fun _ => ⟨mem_truthWords.mpr (by decide), by simp [holds, Value.at]⟩⟩
    | true =>
      cases done
      exact ⟨truthful, fun _ => ⟨mem_truthWords.mpr (by decide), by simp [holds, Value.at]⟩⟩
  | assign bool inner ih =>
    intro s last x truthful done
    obtain ⟨y, mid, evaluated, rfl, rfl⟩ := evaluate_assign_ok done
    obtain ⟨later, tells⟩ := ih truthful evaluated
    have stored := stored_bool wide bool y
    refine ⟨truthful_assign later fun _ => stored ▸ (tells rfl).1, fun _ => ?_⟩
    rw [Tells, Value.at, stored]
    exact tells rfl
  | not inner ih =>
    intro s last x truthful done
    obtain ⟨y, evaluated, rfl⟩ := evaluate_not_ok done
    obtain ⟨later, tells⟩ := ih truthful evaluated
    exact ⟨later, fun _ => tells_of_word (not_word (isTrue_of_tells (tells rfl)))⟩
  | both joins first second ihl ihr =>
    intro s last x truthful done
    obtain ⟨a, mid, b, evaluated, evaluatedRight, result⟩ :=
      both_word (bool_of_plays first) (bool_of_plays second) done
    obtain ⟨between, tellsLeft⟩ := ihl truthful evaluated
    obtain ⟨later, tellsRight⟩ := ihr between evaluatedRight
    rw [assigned_binary, ← List.append_assoc]
    exact ⟨later, fun _ => tells_both joins evaluated (tellsLeft rfl) (tellsRight rfl) result⟩
  | compare relational _ _ first second ihl ihr =>
    intro s last x truthful done
    obtain ⟨a, mid, b, r, evaluated, evaluatedRight, _, _⟩ := evaluate_binary_ok done
    obtain ⟨between, _⟩ := ihl truthful evaluated
    obtain ⟨later, _⟩ := ihr between evaluatedRight
    rw [assigned_binary, ← List.append_assoc]
    exact ⟨later, fun _ => tells_of_word (compare_word relational done)⟩
  | read known ty v =>
    intro s last x truthful done
    cases done
    rw [assigned_ident, List.append_nil]
    exact ⟨truthful, fun wrong => by cases wrong⟩
  | constant known ty node literal =>
    intro s last x truthful done
    obtain ⟨_, rfl⟩ := evaluate_lit_ok done
    rw [assigned_lit, List.append_nil]
    exact ⟨truthful, fun wrong => by cases wrong⟩
  | store ty other inner ih =>
    intro s last x truthful done
    obtain ⟨y, mid, evaluated, rfl, rfl⟩ := evaluate_assign_ok done
    obtain ⟨later, _⟩ := ih truthful evaluated
    exact ⟨truthful_assign later fun bool => (other bool).elim, fun wrong => by cases wrong⟩
  | storeTruth ty inner ih =>
    intro s last x truthful done
    obtain ⟨y, mid, evaluated, rfl, rfl⟩ := evaluate_assign_ok done
    obtain ⟨later, tells⟩ := ih truthful evaluated
    refine ⟨truthful_assign later fun bool => ?_, fun wrong => by cases wrong⟩
    rw [stored_bool wide bool]
    exact (tells rfl).1
  | unary ty op inner ih =>
    intro s last x truthful done
    obtain ⟨y, evaluated⟩ := evaluate_unary_ok done
    exact ⟨(ih truthful evaluated).1, fun wrong => by cases wrong⟩
  | binary ty op first second ihl ihr =>
    intro s last x truthful done
    obtain ⟨a, mid, b, r, evaluated, evaluatedRight, _, _⟩ := evaluate_binary_ok done
    obtain ⟨between, _⟩ := ihl truthful evaluated
    obtain ⟨later, _⟩ := ihr between evaluatedRight
    rw [assigned_binary, ← List.append_assoc]
    exact ⟨later, fun wrong => by cases wrong⟩

end Expr

end Ia32Backend
