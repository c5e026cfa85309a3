import Ia32Backend.Proofs.Scope

/-!
Expressions taken apart, and the expressions of a function with the scope each stands in. The scope
of a loop's or a conditional's own expressions is the one around it.
-/
namespace Ia32Backend

mutual

theorem Expr.args_induction {motive : Expr → Prop}
    (ident : ∀ ty v, motive (.ident ty v)) (lit : ∀ ty node x, motive (.lit ty node x))
    (assign : ∀ ty target value, motive value → motive (.assign ty target value))
    (unary : ∀ ty op operand, motive operand → motive (.unary ty op operand))
    (binary : ∀ ty op left right, motive left → motive right → motive (.binary ty op left right))
    (call : ∀ ty callee args, (∀ arg ∈ args, motive arg) → motive (.call ty callee args)) :
    ∀ e : Expr, motive e
  | .ident ty v => ident ty v
  | .lit ty node x => lit ty node x
  | .assign ty target value =>
    assign ty target value (Expr.args_induction ident lit assign unary binary call value)
  | .unary ty op operand =>
    unary ty op operand (Expr.args_induction ident lit assign unary binary call operand)
  | .binary ty op left right =>
    binary ty op left right (Expr.args_induction ident lit assign unary binary call left)
      (Expr.args_induction ident lit assign unary binary call right)
  | .call ty callee args =>
    call ty callee args (Expr.each_induction ident lit assign unary binary call args)

theorem Expr.each_induction {motive : Expr → Prop}
    (ident : ∀ ty v, motive (.ident ty v)) (lit : ∀ ty node x, motive (.lit ty node x))
    (assign : ∀ ty target value, motive value → motive (.assign ty target value))
    (unary : ∀ ty op operand, motive operand → motive (.unary ty op operand))
    (binary : ∀ ty op left right, motive left → motive right → motive (.binary ty op left right))
    (call : ∀ ty callee args, (∀ arg ∈ args, motive arg) → motive (.call ty callee args)) :
    ∀ args : List Expr, ∀ arg ∈ args, motive arg
  | [] => fun _ member => (List.not_mem_nil member).elim
  | first :: rest => fun arg member =>
    (List.mem_cons.mp member).elim
      (fun same => same ▸ Expr.args_induction ident lit assign unary binary call first)
      (Expr.each_induction ident lit assign unary binary call rest arg)

end

namespace Expr

mutual

/-- An expression and everything inside it. -/
def parts : Expr → List Expr
  | .ident ty v => [.ident ty v]
  | .lit ty node x => [.lit ty node x]
  | .assign ty target value => .assign ty target value :: value.parts
  | .unary ty op operand => .unary ty op operand :: operand.parts
  | .binary ty op left right => .binary ty op left right :: (left.parts ++ right.parts)
  | .call ty callee args => .call ty callee args :: partsOf args
termination_by structural e => e

def partsOf : List Expr → List Expr
  | [] => []
  | arg :: rest => arg.parts ++ partsOf rest
termination_by structural args => args

end

theorem partsOf_eq (args : List Expr) : partsOf args = args.flatMap parts := by
  induction args with
  | nil => rfl
  | cons arg rest ih => simp [partsOf, ih]

/-- The variable that an expression reads or writes itself. -/
def ownName : Expr → List VarId
  | .ident _ v => [v]
  | .assign _ target _ => [target]
  | _ => []

/-- Variables that an expression refers to. -/
def names (e : Expr) : List VarId := e.parts.flatMap ownName

@[simp] theorem names_ident (ty : ValueType) (v : VarId) : (ident ty v).names = [v] := rfl

@[simp] theorem names_lit (ty : ValueType) (node : NodeId) (x : Literal) :
    (lit ty node x).names = [] := rfl

@[simp] theorem names_assign (ty : ValueType) (target : VarId) (value : Expr) :
    (assign ty target value).names = target :: value.names := rfl

@[simp] theorem names_unary (ty : ValueType) (op : UnaryOp) (operand : Expr) :
    (unary ty op operand).names = operand.names := rfl

@[simp] theorem names_binary (ty : ValueType) (op : BinaryOp) (left right : Expr) :
    (binary ty op left right).names = left.names ++ right.names := by
  simp [names, parts, ownName]

@[simp] theorem names_call (ty : ValueType) (callee : FunctionId) (args : List Expr) :
    (call ty callee args).names = args.flatMap names := by
  simp only [names, parts, ownName, partsOf_eq, List.flatMap_cons, List.nil_append]
  exact List.flatMap_assoc

end Expr

mutual

/-- Expressions of a statement, each with its scope. -/
def Stmt.uses (scope : List VarId) : Stmt → List (List VarId × Expr)
  | .block ⟨_, body⟩ => Stmt.usesOf scope body
  | .ifThen test ⟨_, body⟩ => (scope, test) :: Stmt.usesOf scope body
  | .whileLoop test ⟨_, body⟩ => (scope, test) :: Stmt.usesOf scope body
  | .forLoop init test step ⟨_, body⟩ =>
      (scope, init) :: (scope, test) :: (step.toList.map (scope, ·) ++ Stmt.usesOf scope body)
  | .ret value => value.toList.map (scope, ·)
  | .eval e => [(scope, e)]
  | .function _ => []
  | .declare _ => []
termination_by structural s => s

def Stmt.usesOf (scope : List VarId) : List Stmt → List (List VarId × Expr)
  | [] => []
  | s :: rest => s.uses scope ++ Stmt.usesOf (scope ++ s.declared) rest
termination_by structural body => body

end

/-- Expressions of a function, each with its scope. -/
def FunctionDecl.uses (f : FunctionDecl) : List (List VarId × Expr) :=
  Stmt.usesOf f.params f.body.body

/-- The functions of a unit, in order. -/
def Program.functions (p : Program) : List FunctionDecl :=
  p.body.filterMap fun
    | .function f => some f
    | _ => none

end Ia32Backend
