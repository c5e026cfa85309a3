import Ia32Backend.Proofs.Reached
import Ia32Backend.Proofs.TreeExprs

/-!
Where floats are refused: as literals, and as operands of negation and of binary expressions. A
program is refused for a float exactly when generation comes to one of these, and no other
annotation is looked at. A value annotated as a float that is tested, negated logically or assigned
is taken for the long that its slot holds.
-/
namespace Ia32Backend

/-- For what an expression is refused itself, whatever stands inside it. -/
def Expr.refusedUse : Expr → Option String
  | .lit _ _ (.float _) => some "literal"
  | .unary _ .negate operand => if operand.ty = .float then some "negation" else none
  | .binary _ _ left right =>
      if left.ty = .float ∨ right.ty = .float then some "arithmetic" else none
  | _ => none

/-- The expression with another annotation. -/
def Expr.annotate (ty : ValueType) : Expr → Expr
  | .ident _ v => .ident ty v
  | .lit _ node x => .lit ty node x
  | .assign _ target value => .assign ty target value
  | .unary _ op operand => .unary ty op operand
  | .binary _ op left right => .binary ty op left right
  | .call _ callee args => .call ty callee args

mutual

/-- Keeps the annotations of operands of negation and of binary expressions, and no others. -/
def Expr.bare : Expr → Expr
  | .ident _ v => .ident .int v
  | .lit _ node x => .lit .int node x
  | .assign _ target value => .assign .int target value.bare
  | .unary _ .negate operand => .unary .int .negate (operand.bare.annotate operand.ty)
  | .unary _ op operand => .unary .int op operand.bare
  | .binary _ op left right =>
      .binary .int op (left.bare.annotate left.ty) (right.bare.annotate right.ty)
  | .call _ callee args => .call .int callee (Expr.bareAll args)
termination_by structural e => e

def Expr.bareAll : List Expr → List Expr
  | [] => []
  | arg :: rest => arg.bare :: Expr.bareAll rest
termination_by structural args => args

end

/-! Refusals. -/

theorem Expr.code_of_refused {env : Env} {e : Expr} {use : String}
    (refused : e.refusedUse = some use) : e.code env = .error (.floatUse use) := by
  cases e with
  | lit ty node x =>
    cases x with
    | float bits =>
      cases refused
      rfl
    | _ => cases refused
  | unary ty op operand =>
    cases op with
    | negate =>
      by_cases float : operand.ty = .float
      · simp only [refusedUse, float, if_true, Option.some.injEq] at refused
        subst use
        simp only [code, float]
        rfl
      · simp [refusedUse, float] at refused
    | _ => cases refused
  | binary ty op left right =>
    by_cases float : left.ty = .float ∨ right.ty = .float
    · simp only [refusedUse, float, if_true, Option.some.injEq] at refused
      subst use
      have promoted : left.ty.promote right.ty = .float := by
        rcases float with first | second
        · rw [first]
          rfl
        · rw [second, ValueType.promote_comm]
          rfl
      simp only [code, promoted]
      rfl
    · simp [refusedUse, float] at refused
  | _ => cases refused

theorem bind_eq_error {α β ε : Type} {x : Except ε α} {f : α → Except ε β} {cause : ε} :
    (x >>= f) = .error cause ↔ x = .error cause ∨ ∃ a, x = .ok a ∧ f a = .error cause := by
  cases x with
  | error other => simp [bind, Except.bind]
  | ok a => simp [bind, Except.bind]

theorem map_eq_error {α β ε : Type} {x : Except ε α} {g : α → β} {cause : ε} :
    (x >>= fun a => pure (g a)) = .error cause ↔ x = .error cause := by
  cases x with
  | error other => simp [bind, Except.bind]
  | ok a => simp [bind, Except.bind, pure, Except.pure]

/-- A step all of whose checks ask for something else is never refused for a float. -/
theorem ne_floatUse_of_guarded {α : Type} {symbols : SymbolTable} {checks : List Check}
    {x : Except Fault α} (guarded : Guarded symbols checks x)
    (others : ∀ c ∈ checks, ∀ use, c.fault symbols ≠ some (.floatUse use)) (use : String) :
    x ≠ .error (.floatUse use) := by
  intro fails
  obtain ⟨before, check, after, split, _, fault⟩ :=
    firstFault_eq_some.mp ((guarded_error guarded).mp fails)
  exact others check (split ▸ List.mem_append_right before List.mem_cons_self) use fault

theorem Check.slot_ne_floatUse {symbols : SymbolTable} (declared : List VarId) (v : VarId) :
    ∀ c ∈ slotChecks declared v, ∀ use, c.fault symbols ≠ some (.floatUse use) := by
  intro c member use
  simp only [slotChecks, List.mem_cons, List.not_mem_nil, or_false] at member
  rcases member with rfl | rfl
  · simp only [fault]
    split <;> simp
  · simp only [fault]
    split <;> simp

section
variable {env : Env} {declared : List VarId} {use : String}

theorem place_ne_floatUse (informed : env.Informed declared) (v : VarId) :
    env.place v ≠ .error (.floatUse use) :=
  ne_floatUse_of_guarded (guarded_place informed v) (Check.slot_ne_floatUse declared v) use

theorem functionAt_ne_floatUse (symbols : SymbolTable) (f : FunctionId) :
    symbols.functionAt f ≠ .error (.floatUse use) := by
  refine ne_floatUse_of_guarded (guarded_functionAt symbols f) ?_ use
  intro c member use
  cases List.mem_singleton.mp member
  simp only [Check.fault]
  split <;> simp

theorem literal_floatUse (informed : env.Informed declared) {node : NodeId} {x : Literal}
    (fails : env.literal node x = .error (.floatUse use)) (ty : ValueType) :
    (Expr.lit ty node x).refusedUse = some use := by
  cases x with
  | float bits =>
    cases fails
    rfl
  | bool value => cases value <;> cases fails
  | string text =>
    refine absurd fails (ne_floatUse_of_guarded (guarded_literal informed node _) ?_ use)
    intro c member use
    cases List.mem_singleton.mp member
    simp only [Check.fault]
    split <;> simp
  | _ => cases fails

theorem negatable_floatUse {operand : Expr} (fails : operand.ty.negatable = .error (.floatUse use))
    (ty : ValueType) : (Expr.unary ty .negate operand).refusedUse = some use := by
  cases kind : operand.ty <;> rw [kind] at fails <;> cases fails
  simp [Expr.refusedUse, kind]

theorem width_floatUse {left right : Expr} (ty : ValueType) (op : BinaryOp)
    (fails : (left.ty.promote right.ty).operationWidth = .error (.floatUse use)) :
    (Expr.binary ty op left right).refusedUse = some use := by
  cases first : left.ty <;> cases second : right.ty <;> rw [first, second] at fails <;> cases fails
  all_goals simp [Expr.refusedUse, first, second]

theorem pushArgs_error {args : List Expr} {cause : Fault}
    (fails : Expr.pushArgs env args = .error cause) : ∃ before arg after later,
      args = before ++ arg :: after ∧ Expr.pushArgs env after = .ok later ∧
        arg.code env = .error cause := by
  induction args with
  | nil => cases fails
  | cons arg rest ih =>
    rcases bind_eq_error.mp fails with inner | ⟨later, pushed, here⟩
    · obtain ⟨before, other, after, later, split, pushed, fails⟩ := ih inner
      exact ⟨arg :: before, other, after, later, by rw [split, List.cons_append], pushed, fails⟩
    · exact ⟨[], arg, rest, later, rfl, pushed, map_eq_error.mp here⟩

/-- An expression refused for a float has a part that is, and generation comes to it. -/
theorem Expr.reaches_floatUse (informed : env.Informed declared) (e : Expr) :
    e.code env = .error (.floatUse use) → ∃ x, Reaches env x e ∧ x.refusedUse = some use := by
  induction e using Expr.args_induction with
  | ident ty v =>
    intro fails
    exact (place_ne_floatUse informed v (map_eq_error.mp fails)).elim
  | lit ty node x =>
    intro fails
    exact ⟨_, .here, literal_floatUse informed (map_eq_error.mp fails) ty⟩
  | assign ty target value ih =>
    intro fails
    rcases bind_eq_error.mp fails with place | ⟨p, placed, inner⟩
    · exact (place_ne_floatUse informed target place).elim
    · obtain ⟨x, reached, refused⟩ := ih (map_eq_error.mp inner)
      exact ⟨x, .assign placed reached, refused⟩
  | unary ty op operand ih =>
    intro fails
    cases op with
    | not =>
      obtain ⟨x, reached, refused⟩ := ih (map_eq_error.mp fails)
      exact ⟨x, .not reached, refused⟩
    | negate =>
      rcases bind_eq_error.mp fails with float | ⟨⟨⟩, allowed, inner⟩
      · exact ⟨_, .here, negatable_floatUse float ty⟩
      · obtain ⟨x, reached, refused⟩ := ih (map_eq_error.mp inner)
        exact ⟨x, .negate allowed reached, refused⟩
    | addressOf =>
      cases operand with
      | ident kind v => exact (place_ne_floatUse informed v (map_eq_error.mp fails)).elim
      | _ => cases fails
  | binary ty op left right first second =>
    intro fails
    rcases bind_eq_error.mp fails with float | ⟨w, allowed, rest⟩
    · exact ⟨_, .here, width_floatUse ty op float⟩
    rcases bind_eq_error.mp rest with inner | ⟨l, code, inner⟩
    · obtain ⟨x, reached, refused⟩ := first inner
      exact ⟨x, .left allowed reached, refused⟩
    · obtain ⟨x, reached, refused⟩ := second (map_eq_error.mp inner)
      exact ⟨x, .right allowed code reached, refused⟩
  | call ty callee args each =>
    intro fails
    rcases bind_eq_error.mp fails with unknown | ⟨f, found, inner⟩
    · exact (functionAt_ne_floatUse env.symbols callee unknown).elim
    · obtain ⟨before, arg, after, later, rfl, pushed, here⟩ :=
        pushArgs_error (map_eq_error.mp inner)
      obtain ⟨x, reached, refused⟩ :=
        each arg (List.mem_append_right before List.mem_cons_self) here
      exact ⟨x, .arg found pushed reached, refused⟩

theorem Stmt.reaches_floatUse (informed : env.Informed declared) (body : List Stmt) :
    ∀ direct l, codeAll env direct l body = .error (.floatUse use) →
      ∃ x, Reaches env x direct l body ∧ x.refusedUse = some use := by
  induction body using Stmt.body_induction with
  | nil => exact fun _ _ fails => nomatch fails
  | cons s rest inner ih =>
    intro direct l fails
    rcases bind_eq_error.mp fails with here | ⟨⟨first, mid⟩, passed, ahead⟩
    · cases s with
      | function decl => cases here
      | declare vars => cases here
      | block b =>
        obtain ⟨id, body⟩ := b
        obtain ⟨x, reached, refused⟩ := inner id body (.block id body) false l here
        exact ⟨x, .block reached, refused⟩
      | ifThen test b =>
        obtain ⟨id, body⟩ := b
        rcases bind_eq_error.mp here with fails | ⟨t, tested, inside⟩
        · obtain ⟨x, reached, refused⟩ := test.reaches_floatUse informed fails
          exact ⟨x, .ifTest reached, refused⟩
        · obtain ⟨x, reached, refused⟩ :=
            inner id body (.ifThen test id body) _ _ (map_eq_error.mp inside)
          exact ⟨x, .ifBody tested reached, refused⟩
      | whileLoop test b =>
        obtain ⟨id, body⟩ := b
        rcases bind_eq_error.mp here with fails | ⟨t, tested, inside⟩
        · obtain ⟨x, reached, refused⟩ := test.reaches_floatUse informed fails
          exact ⟨x, .whileTest reached, refused⟩
        · obtain ⟨x, reached, refused⟩ :=
            inner id body (.whileLoop test id body) _ _ (map_eq_error.mp inside)
          exact ⟨x, .whileBody tested reached, refused⟩
      | forLoop init test step b =>
        obtain ⟨id, body⟩ := b
        rcases bind_eq_error.mp here with fails | ⟨i, initial, rest⟩
        · obtain ⟨x, reached, refused⟩ := init.reaches_floatUse informed fails
          exact ⟨x, .forInit reached, refused⟩
        rcases bind_eq_error.mp rest with fails | ⟨t, tested, rest⟩
        · obtain ⟨x, reached, refused⟩ := test.reaches_floatUse informed fails
          exact ⟨x, .forTest initial reached, refused⟩
        rcases bind_eq_error.mp rest with inside | ⟨⟨nested, last⟩, passed, stepped⟩
        · obtain ⟨x, reached, refused⟩ :=
            inner id body (.forLoop init test step id body) _ _ inside
          exact ⟨x, .forBody initial tested reached, refused⟩
        · cases step with
          | none => cases map_eq_error.mp stepped
          | some step =>
            obtain ⟨x, reached, refused⟩ := step.reaches_floatUse informed
              (map_eq_error.mp (map_eq_error.mp stepped))
            exact ⟨x, .forStep initial tested passed reached, refused⟩
      | ret value =>
        rcases bind_eq_error.mp here with returned | ⟨v, _, paused⟩
        · cases value with
          | none => cases returned
          | some value =>
            obtain ⟨x, reached, refused⟩ :=
              value.reaches_floatUse informed (map_eq_error.mp returned)
            exact ⟨x, .ret reached, refused⟩
        · obtain ⟨pause, ok⟩ := pauseWhen_total informed direct
          rw [ok] at paused
          cases paused
      | eval e =>
        obtain ⟨x, reached, refused⟩ := e.reaches_floatUse informed (map_eq_error.mp here)
        exact ⟨x, .eval reached, refused⟩
    · obtain ⟨x, reached, refused⟩ := ih direct mid (map_eq_error.mp ahead)
      exact ⟨x, .later passed reached, refused⟩

theorem FunctionDecl.reaches_floatUse (informed : env.Informed declared) {f : FunctionDecl}
    {l : Labels} (fails : f.code env l = .error (.floatUse use)) (rest : List Stmt) :
    ∃ x, ReachesIn x f env l [] (.function f :: rest) ∧ x.refusedUse = some use := by
  rcases bind_eq_error.mp fails with unknown | ⟨symbol, found, rest⟩
  · exact (functionAt_ne_floatUse env.symbols f.symbol unknown).elim
  rcases bind_eq_error.mp rest with unlaid | ⟨layout, laid, rest⟩
  · have fills := Layout.fills_ofFunction informed.slots f
    refine absurd unlaid (ne_floatUse_of_guarded fills.guarded ?_ use)
    intro c member use
    obtain ⟨v, _, rfl⟩ := List.mem_map.mp member
    simp only [Check.fault]
    split <;> simp
  obtain ⟨inside, copies, copied⟩ := informed_laid informed laid
  rcases bind_eq_error.mp rest with uncopied | ⟨_, _, body⟩
  · rw [copied] at uncopied
    cases uncopied
  · obtain ⟨x, reached, refused⟩ :=
      Stmt.reaches_floatUse inside f.body.body _ l (map_eq_error.mp body)
    exact ⟨x, .here found laid copied reached, refused⟩

theorem functions_reach_floatUse {body : List Stmt} : ∀ {env : Env} {declared : List VarId}
    {l : Labels}, env.Informed declared → functionsCode env l body = .error (.floatUse use) →
      ∃ before f x, ReachesIn x f env l before body ∧ x.refusedUse = some use := by
  induction body with
  | nil => exact fun _ fails => nomatch fails
  | cons s rest ih =>
    intro env declared l informed fails
    cases s with
    | function f =>
      rcases bind_eq_error.mp fails with here | ⟨c, passed, ahead⟩
      · obtain ⟨x, reached, refused⟩ := f.reaches_floatUse informed here rest
        exact ⟨[], f, x, reached, refused⟩
      · obtain ⟨before, g, x, reached, refused⟩ :=
          ih (informed_after informed passed) (map_eq_error.mp ahead)
        exact ⟨f :: before, g, x, .later passed reached, refused⟩
    | _ => cases fails

end

/-! Annotations. -/

theorem Expr.code_annotate (env : Env) (ty : ValueType) (e : Expr) :
    (e.annotate ty).code env = e.code env := by
  cases e with
  | unary kind op operand =>
    cases op with
    | addressOf => cases operand <;> rfl
    | _ => rfl
  | _ => rfl

theorem Expr.ty_annotate (ty : ValueType) (e : Expr) : (e.annotate ty).ty = ty := by
  cases e <;> rfl

theorem Expr.usesOther_annotate (ty : ValueType) (e : Expr) :
    (e.annotate ty).usesOther = e.usesOther := by
  cases e <;> rfl

theorem Expr.usesOther_bare (e : Expr) : e.bare.usesOther = e.usesOther := by
  induction e using Expr.args_induction with
  | ident ty v => rfl
  | lit ty node x => rfl
  | assign ty target value ih => exact ih
  | unary ty op operand ih =>
    cases op with
    | negate => exact (usesOther_annotate operand.ty operand.bare).trans ih
    | _ => exact ih
  | binary ty op left right _ _ => rfl
  | call ty callee args _ => rfl

theorem Expr.bareAll_eq (args : List Expr) : bareAll args = args.map bare := by
  induction args with
  | nil => rfl
  | cons arg rest ih => rw [bareAll, ih, List.map_cons]

theorem pushArgs_bare {env : Env} {args : List Expr}
    (each : ∀ arg ∈ args, arg.bare.code env = arg.code env) :
    Expr.pushArgs env (Expr.bareAll args) = Expr.pushArgs env args := by
  induction args with
  | nil => rfl
  | cons arg rest ih =>
    obtain ⟨first, others⟩ := List.forall_mem_cons.mp each
    simp only [Expr.bareAll, Expr.pushArgs, first, ih others]

/-- No other annotation is looked at. -/
theorem Expr.code_bare (env : Env) (e : Expr) : e.bare.code env = e.code env := by
  induction e using Expr.args_induction with
  | ident ty v => rfl
  | lit ty node x => rfl
  | assign ty target value ih => simp only [bare, code, ih]
  | unary ty op operand ih =>
    cases op with
    | not => simp only [bare, code, ih]
    | negate => simp only [bare, code, code_annotate, ty_annotate, ih]
    | addressOf =>
      cases operand with
      | unary kind op operand => cases op <;> rfl
      | _ => rfl
  | binary ty op left right first second =>
    simp only [bare, code, code_annotate, ty_annotate, usesOther_annotate, usesOther_bare, first,
      second]
  | call ty callee args each =>
    have count : (bareAll args).length = args.length := by rw [bareAll_eq, List.length_map]
    simp only [bare, code, pushArgs_bare each, count]

/-- Floats are refused as literals and as operands of negation and of binary expressions. A program
with such an expression anywhere in it is refused, and it is refused for a float exactly when
generation comes to one. Nothing depends on an annotation that no operand of these has: dropping all
others, those of operands of `!`, of tests and of assigned values among them, changes neither the
text nor the fault. -/
theorem floats_refused_as_operands (symbols : SymbolTable) (config : Config) (p : Program) :
    (∀ x ∈ p.parts, ∀ use, x.refusedUse = some use →
      ∃ cause, p.assembly symbols config = .error cause) ∧
    (∀ use, p.assembly symbols config = .error (.floatUse use) ↔ ∃ before f x,
      p.Reaches symbols config before f x ∧ x.refusedUse = some use) ∧
    (p.mapExprs Expr.bare).assembly symbols config = p.assembly symbols config := by
  refine ⟨?_, fun use => ⟨?_, ?_⟩, p.assembly_mapExprs Expr.code_bare symbols config⟩
  · intro x member use refused
    cases result : p.code symbols config with
    | error cause => exact ⟨cause, assembly_error.mpr result⟩
    | ok u =>
      obtain ⟨env, c, ok⟩ := p.parts_have_code result x member
      rw [Expr.code_of_refused refused] at ok
      cases ok
  · intro fails
    exact functions_reach_floatUse (informed_unit symbols config) (functions_error.mp fails)
  · rintro ⟨before, f, x, reached, refused⟩
    exact p.fails_of_reaches reached fun _ _ _ => Expr.code_of_refused refused

def floatingSymbols : SymbolTable where
  functions := [⟨"f", "_f", []⟩]
  vars := [⟨"x", .float, ⟨1⟩⟩, ⟨"i", .int, ⟨1⟩⟩]

/-- A float as the operand of `!`, as the test of each construct, and assigned to an integer. -/
def floatingBody : List Stmt :=
  [.declare [⟨0⟩, ⟨1⟩],
    .eval (.unary .bool .not (.ident .float ⟨0⟩)),
    .ifThen (.ident .float ⟨0⟩) ⟨⟨2⟩, []⟩,
    .whileLoop (.ident .float ⟨0⟩) ⟨⟨3⟩, []⟩,
    .forLoop (.assign .int ⟨1⟩ (.ident .float ⟨0⟩)) (.ident .float ⟨0⟩) none ⟨⟨4⟩, []⟩]

/-- Floats are taken for integers. Every identifier is annotated with the type its variable was
declared with, and the program is accepted. -/
theorem floats_taken_for_integers :
    (∃ text, (Program.ofFunctions [⟨⟨0⟩, [], ⟨⟨1⟩, floatingBody⟩⟩]).assembly floatingSymbols {} =
      .ok text) ∧
    (∀ e ∈ (Program.ofFunctions [⟨⟨0⟩, [], ⟨⟨1⟩, floatingBody⟩⟩]).parts, ∀ ty v,
      e = .ident ty v → floatingSymbols.typeOf? v = some ty) ∧
    floatingSymbols.typeOf? ⟨1⟩ = some .int := by
  refine ⟨⟨_, rfl⟩, ?_, rfl⟩
  have parts : (Program.ofFunctions [⟨⟨0⟩, [], ⟨⟨1⟩, floatingBody⟩⟩]).parts =
      [.unary .bool .not (.ident .float ⟨0⟩), .ident .float ⟨0⟩, .ident .float ⟨0⟩,
        .ident .float ⟨0⟩, .assign .int ⟨1⟩ (.ident .float ⟨0⟩), .ident .float ⟨0⟩,
        .ident .float ⟨0⟩] := rfl
  rw [parts]
  simp [SymbolTable.typeOf?, floatingSymbols]

end Ia32Backend
