import Ia32Backend.Proofs.Scope

/-!
What a tree is checked for, in the order in which the code generator meets it. A check looks at the
symbol table and at the variables declared so far, never at frames, pools or code.
-/
namespace Ia32Backend

inductive Check where
  /-- The symbol table has the function. -/
  | function (f : FunctionId)
  /-- The symbol table has the variable. -/
  | variable (v : VarId)
  /-- A variable of the symbol table is among those declared so far. -/
  | slot (declared : List VarId) (v : VarId)
  /-- The symbol table has a string for the literal node. -/
  | string (node : NodeId)
  | notFloat (ty : ValueType) (use : String)
  /-- Fails: the operand has no address. -/
  | noAddress
  /-- Fails: a statement of this kind does not belong here. -/
  | misplaced (kind place : String)
  deriving DecidableEq, Repr

/-- The fault that a failing check reports. -/
def Check.fault (symbols : SymbolTable) : Check → Option Fault
  | .function f => if f.index < symbols.functions.length then none else some (.noFunction f)
  | .variable v => if v.index < symbols.vars.length then none else some (.noVariable v)
  | .slot declared v =>
      if v ∈ declared then none else symbols.vars[v.index]?.map fun s => .noSlot v s.name
  | .string node =>
      if symbols.literals.any (·.node = node) then none else some (.literalNotPooled node)
  | .notFloat ty use => if ty = .float then some (.floatUse use) else none
  | .noAddress => some (.semantic "cannot take the address of a non-variable value")
  | .misplaced kind place => some (.misplaced kind place)

/-- The fault of the first check that fails. -/
def firstFault (symbols : SymbolTable) (checks : List Check) : Option Fault :=
  checks.findSome? (Check.fault symbols)

/-- A variable that is read, written or has its address taken. -/
def slotChecks (declared : List VarId) (v : VarId) : List Check :=
  [.variable v, .slot declared v]

/-- A literal float is refused whatever its annotation says. -/
def Literal.checks (node : NodeId) : Literal → List Check
  | .string _ => [.string node]
  | .float _ => [.notFloat .float "literal"]
  | _ => []

mutual

def Expr.checks (declared : List VarId) : Expr → List Check
  | .ident _ v => slotChecks declared v
  | .lit _ node value => value.checks node
  | .assign _ target value => slotChecks declared target ++ value.checks declared
  | .unary _ .addressOf (.ident _ v) => slotChecks declared v
  | .unary _ .addressOf _ => [.noAddress]
  | .unary _ .not operand => operand.checks declared
  | .unary _ .negate operand => .notFloat operand.ty "negation" :: operand.checks declared
  | .binary _ _ left right =>
      .notFloat left.ty "arithmetic" :: .notFloat right.ty "arithmetic" ::
        (left.checks declared ++ right.checks declared)
  | .call _ callee args => .function callee :: Expr.argChecks declared args
termination_by structural e => e

/-- Arguments are looked at from the last to the first. -/
def Expr.argChecks (declared : List VarId) : List Expr → List Check
  | [] => []
  | arg :: rest => Expr.argChecks declared rest ++ arg.checks declared
termination_by structural args => args

end

/-- Checks of an expression that may be absent. -/
def optionChecks (declared : List VarId) (e : Option Expr) : List Check :=
  e.toList.flatMap (Expr.checks declared)

mutual

def Stmt.checks (declared : List VarId) : Stmt → List Check
  | .function decl => [.misplaced (Stmt.function decl).kind "inside a function body"]
  | .declare _ => []
  | .block ⟨_, body⟩ => Stmt.checksOf declared body
  | .ifThen test ⟨_, body⟩ => test.checks declared ++ Stmt.checksOf declared body
  | .whileLoop test ⟨_, body⟩ => test.checks declared ++ Stmt.checksOf declared body
  | .forLoop init test step ⟨_, body⟩ =>
      init.checks declared ++ (test.checks declared ++
        (Stmt.checksOf declared body ++ optionChecks declared step))
  | .ret value => optionChecks declared value
  | .eval e => e.checks declared
termination_by structural s => s

def Stmt.checksOf (declared : List VarId) : List Stmt → List Check
  | [] => []
  | s :: rest => s.checks declared ++ Stmt.checksOf declared rest
termination_by structural body => body

end

/-- A function's id, its parameters and all its declarations come before its statements, which may
use a variable of the function itself or of an earlier one. -/
def FunctionDecl.checks (earlier : List VarId) (f : FunctionDecl) : List Check :=
  .function f.symbol :: (f.vars.map .variable ++ Stmt.checksOf (earlier ++ f.vars) f.body.body)

/-- Checks of the statements at the top of a unit. -/
def unitChecks (earlier : List VarId) : List Stmt → List Check
  | [] => []
  | .function f :: rest => f.checks earlier ++ unitChecks (earlier ++ f.vars) rest
  | s :: rest => .misplaced s.kind "outside a function body" :: unitChecks earlier rest

def Program.checks (p : Program) : List Check := unitChecks [] p.body

theorem optionChecks_some (declared : List VarId) (e : Expr) :
    optionChecks declared (some e) = e.checks declared := by
  simp [optionChecks]

theorem firstFault_append (symbols : SymbolTable) (a b : List Check) :
    firstFault symbols (a ++ b) = (firstFault symbols a).or (firstFault symbols b) :=
  List.findSome?_append

theorem firstFault_eq_none {symbols : SymbolTable} {checks : List Check} :
    firstFault symbols checks = none ↔ ∀ c ∈ checks, c.fault symbols = none :=
  List.findSome?_eq_none_iff

theorem firstFault_eq_some {symbols : SymbolTable} {checks : List Check} {cause : Fault} :
    firstFault symbols checks = some cause ↔ ∃ before check after,
      checks = before ++ check :: after ∧ (∀ c ∈ before, c.fault symbols = none) ∧
        check.fault symbols = some cause := by
  rw [firstFault, List.findSome?_eq_some_iff]
  constructor
  · rintro ⟨before, check, after, split, fails, pass⟩
    exact ⟨before, check, after, split, pass, fails⟩
  · rintro ⟨before, check, after, split, pass, fails⟩
    exact ⟨before, check, after, split, fails, pass⟩

theorem Check.fault_variable {symbols : SymbolTable} {v : VarId} :
    (Check.variable v).fault symbols = none ↔ ∃ s, symbols.variableAt v = .ok s := by
  simp only [Check.fault, SymbolTable.variableAt]
  by_cases bound : v.index < symbols.vars.length
  · simp [bound]
  · simp [bound]

/-- No check asks for the pause string. -/
theorem Check.fault_ne_pause (symbols : SymbolTable) (c : Check) :
    c.fault symbols ≠ some .pauseNotPooled := by
  cases c <;> simp only [Check.fault] <;> (repeat' split) <;> simp

end Ia32Backend
