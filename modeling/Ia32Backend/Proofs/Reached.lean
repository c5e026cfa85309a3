import Ia32Backend.Proofs.CompiledApart
import Ia32Backend.Proofs.FirstFault

/-!
How far generation comes. It reaches an expression when everything that it looks at before has
passed, and what fails where it stands then fails the statement, the function and the unit around
it. The rules follow the order of generation: an assignment asks for its target first, arguments are
computed from the last to the first, and a loop's step comes after its body.
-/
namespace Ia32Backend

/-- Generation of an expression comes to one of its parts. The operand of address-of is not computed
and is no such part. -/
inductive Expr.Reaches (env : Env) (target : Expr) : Expr → Prop where
  | here : Reaches env target target
  | assign {ty : ValueType} {v : VarId} {p : Place} {value : Expr} (placed : env.place v = .ok p)
      (inner : Reaches env target value) : Reaches env target (.assign ty v value)
  | not {ty : ValueType} {operand : Expr} (inner : Reaches env target operand) :
      Reaches env target (.unary ty .not operand)
  | negate {ty : ValueType} {operand : Expr} (allowed : operand.ty.negatable = .ok ())
      (inner : Reaches env target operand) : Reaches env target (.unary ty .negate operand)
  | left {ty : ValueType} {op : BinaryOp} {w : Width} {left right : Expr}
      (allowed : (left.ty.promote right.ty).operationWidth = .ok w)
      (inner : Reaches env target left) : Reaches env target (.binary ty op left right)
  | right {ty : ValueType} {op : BinaryOp} {w : Width} {l : ValueCode} {left right : Expr}
      (allowed : (left.ty.promote right.ty).operationWidth = .ok w)
      (first : left.code env = .ok l) (inner : Reaches env target right) :
      Reaches env target (.binary ty op left right)
  | arg {ty : ValueType} {callee : FunctionId} {f : FunctionSymbol} {before after : List Expr}
      {arg : Expr} {later : List Instr} (found : env.symbols.functionAt callee = .ok f)
      (pushed : Expr.pushArgs env after = .ok later) (inner : Reaches env target arg) :
      Reaches env target (.call ty callee (before ++ arg :: after))

/-- Generation of a body comes to an expression in it. -/
inductive Stmt.Reaches (env : Env) (target : Expr) : Bool → Labels → List Stmt → Prop where
  | later {direct : Bool} {l mid : Labels} {s : Stmt} {rest : List Stmt} {first : List Instr}
      (passed : s.code env direct l = .ok (first, mid))
      (inner : Reaches env target direct mid rest) : Reaches env target direct l (s :: rest)
  | block {direct : Bool} {l : Labels} {id : BlockId} {body rest : List Stmt}
      (inner : Reaches env target false l body) :
      Reaches env target direct l (.block ⟨id, body⟩ :: rest)
  | ifTest {direct : Bool} {l : Labels} {test : Expr} {id : BlockId} {body rest : List Stmt}
      (inner : Expr.Reaches env target test) :
      Reaches env target direct l (.ifThen test ⟨id, body⟩ :: rest)
  | ifBody {direct : Bool} {l : Labels} {test : Expr} {t : ValueCode} {id : BlockId}
      {body rest : List Stmt} (tested : test.code env = .ok t)
      (inner : Reaches env target false l.drawIf body) :
      Reaches env target direct l (.ifThen test ⟨id, body⟩ :: rest)
  | whileTest {direct : Bool} {l : Labels} {test : Expr} {id : BlockId} {body rest : List Stmt}
      (inner : Expr.Reaches env target test) :
      Reaches env target direct l (.whileLoop test ⟨id, body⟩ :: rest)
  | whileBody {direct : Bool} {l : Labels} {test : Expr} {t : ValueCode} {id : BlockId}
      {body rest : List Stmt} (tested : test.code env = .ok t)
      (inner : Reaches env target false l.drawWhile body) :
      Reaches env target direct l (.whileLoop test ⟨id, body⟩ :: rest)
  | forInit {direct : Bool} {l : Labels} {init test : Expr} {step : Option Expr} {id : BlockId}
      {body rest : List Stmt} (inner : Expr.Reaches env target init) :
      Reaches env target direct l (.forLoop init test step ⟨id, body⟩ :: rest)
  | forTest {direct : Bool} {l : Labels} {init test : Expr} {step : Option Expr} {i : ValueCode}
      {id : BlockId} {body rest : List Stmt} (initial : init.code env = .ok i)
      (inner : Expr.Reaches env target test) :
      Reaches env target direct l (.forLoop init test step ⟨id, body⟩ :: rest)
  | forBody {direct : Bool} {l : Labels} {init test : Expr} {step : Option Expr} {i t : ValueCode}
      {id : BlockId} {body rest : List Stmt} (initial : init.code env = .ok i)
      (tested : test.code env = .ok t) (inner : Reaches env target false l.drawFor body) :
      Reaches env target direct l (.forLoop init test step ⟨id, body⟩ :: rest)
  | forStep {direct : Bool} {l last : Labels} {init test step : Expr} {i t : ValueCode}
      {id : BlockId} {body rest : List Stmt} {inside : List Instr}
      (initial : init.code env = .ok i) (tested : test.code env = .ok t)
      (passed : Stmt.codeAll env false l.drawFor body = .ok (inside, last))
      (inner : Expr.Reaches env target step) :
      Reaches env target direct l (.forLoop init test (some step) ⟨id, body⟩ :: rest)
  | ret {direct : Bool} {l : Labels} {value : Expr} {rest : List Stmt}
      (inner : Expr.Reaches env target value) :
      Reaches env target direct l (.ret (some value) :: rest)
  | eval {direct : Bool} {l : Labels} {e : Expr} {rest : List Stmt}
      (inner : Expr.Reaches env target e) : Reaches env target direct l (.eval e :: rest)

/-- Generation of the statements at the top of a unit comes to an expression in the function `f`,
after the functions `before`. -/
inductive ReachesIn (target : Expr) (f : FunctionDecl) :
    Env → Labels → List FunctionDecl → List Stmt → Prop where
  | here {env : Env} {l : Labels} {symbol : FunctionSymbol} {layout : Layout} {copies : List Instr}
      {rest : List Stmt} (found : env.symbols.functionAt f.symbol = .ok symbol)
      (laid : Layout.ofFunction env.symbols env.frames f = .ok layout)
      (copied : copyParams { env with frames := layout.frames } 0 f.params = .ok copies)
      (inner : Stmt.Reaches { env with frames := layout.frames } target
        (symbol.name = env.config.entryName) l f.body.body) :
      ReachesIn target f env l [] (.function f :: rest)
  | later {env : Env} {l : Labels} {g : FunctionDecl} {c : FunctionCode}
      {before : List FunctionDecl} {rest : List Stmt} (passed : g.code env l = .ok c)
      (inner : ReachesIn target f { env with frames := c.frames } c.labels before rest) :
      ReachesIn target f env l (g :: before) (.function g :: rest)

/-- Generation of a program comes to an expression in one of its functions. -/
def Program.Reaches (symbols : SymbolTable) (config : Config) (p : Program)
    (before : List FunctionDecl) (f : FunctionDecl) (target : Expr) : Prop :=
  ReachesIn target f (unitEnv symbols config) {} before p.body

/-! What fails there fails everything around it. -/

section
variable {env : Env} {target : Expr} {cause : Fault}

theorem pushArgs_fails {before after : List Expr} {arg : Expr} {later : List Instr}
    (pushed : Expr.pushArgs env after = .ok later) (fails : arg.code env = .error cause) :
    Expr.pushArgs env (before ++ arg :: after) = .error cause := by
  induction before with
  | nil => simp only [List.nil_append, Expr.pushArgs, pushed, fails, bind, Except.bind]
  | cons first rest ih => simp only [List.cons_append, Expr.pushArgs, ih, bind, Except.bind]

theorem Expr.fails_of_reaches {e : Expr} (fails : target.code env = .error cause)
    (reached : Reaches env target e) : e.code env = .error cause := by
  induction reached with
  | here => exact fails
  | assign placed _ ih => simp only [code, placed, ih, bind, Except.bind]
  | not _ ih => simp only [code, ih, bind, Except.bind]
  | negate allowed _ ih => simp only [code, allowed, ih, bind, Except.bind]
  | left allowed _ ih => simp only [code, allowed, ih, bind, Except.bind]
  | right allowed first _ ih => simp only [code, allowed, first, ih, bind, Except.bind]
  | arg found pushed _ ih =>
    simp only [code, found, pushArgs_fails pushed ih, bind, Except.bind]

theorem Stmt.fails_of_reaches {direct : Bool} {l : Labels} {body : List Stmt}
    (fails : target.code env = .error cause) (reached : Reaches env target direct l body) :
    codeAll env direct l body = .error cause := by
  induction reached with
  | later passed _ ih => simp only [codeAll, passed, ih, bind, Except.bind]
  | block _ ih => simp only [codeAll, code, ih, bind, Except.bind]
  | ifTest inner =>
    simp only [codeAll, code, Expr.fails_of_reaches fails inner, bind, Except.bind]
  | ifBody tested _ ih => simp only [codeAll, code, tested, ih, bind, Except.bind]
  | whileTest inner =>
    simp only [codeAll, code, Expr.fails_of_reaches fails inner, bind, Except.bind]
  | whileBody tested _ ih => simp only [codeAll, code, tested, ih, bind, Except.bind]
  | forInit inner =>
    simp only [codeAll, code, Expr.fails_of_reaches fails inner, bind, Except.bind]
  | forTest initial inner =>
    simp only [codeAll, code, initial, Expr.fails_of_reaches fails inner, bind, Except.bind]
  | forBody initial tested _ ih =>
    simp only [codeAll, code, initial, tested, ih, bind, Except.bind]
  | forStep initial tested passed inner =>
    simp only [codeAll, code, initial, tested, passed, stepCode,
      Expr.fails_of_reaches fails inner, bind, Except.bind]
  | ret inner =>
    simp only [codeAll, code, returnValue, Expr.fails_of_reaches fails inner, bind, Except.bind]
  | eval inner => simp only [codeAll, code, Expr.fails_of_reaches fails inner, bind, Except.bind]

end

/-- Variables of some functions. -/
def varsOf (functions : List FunctionDecl) : List VarId := functions.flatMap FunctionDecl.vars

theorem fails_of_reachesIn {target : Expr} {cause : Fault} {f : FunctionDecl} {env : Env}
    {l : Labels} {before : List FunctionDecl} {body : List Stmt}
    (reached : ReachesIn target f env l before body) : ∀ {declared : List VarId},
    env.Informed declared →
      (∀ frames, Env.Informed { env with frames := frames } (declared ++ varsOf before ++ f.vars) →
        target.code { env with frames := frames } = .error cause) →
      functionsCode env l body = .error cause := by
  induction reached with
  | @here env l symbol layout copies rest found laid copied inner =>
    intro declared informed fails
    have inside := (informed_laid informed laid).1
    have here := fails layout.frames (by simpa [varsOf] using inside)
    have failed := Stmt.fails_of_reaches here inner
    simp only [functionsCode, FunctionDecl.code, found, laid, copied, failed, bind, Except.bind]
  | @later env l g c before rest passed inner ih =>
    intro declared informed fails
    have failed := ih (informed_after informed passed) fun frames known =>
      fails frames (by simpa [varsOf] using known)
    simp only [functionsCode, passed, failed, bind, Except.bind]

/-- A program fails with what fails at an expression that generation comes to. -/
theorem Program.fails_of_reaches {symbols : SymbolTable} {config : Config} {p : Program}
    {before : List FunctionDecl} {f : FunctionDecl} {target : Expr} {cause : Fault}
    (reached : p.Reaches symbols config before f target)
    (fails : ∀ env : Env, env.symbols = symbols → env.Informed (varsOf before ++ f.vars) →
      target.code env = .error cause) : p.assembly symbols config = .error cause := by
  rw [functions_error]
  exact fails_of_reachesIn reached (informed_unit symbols config) fun _ informed =>
    fails _ rfl informed

end Ia32Backend
