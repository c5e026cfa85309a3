import Ia32Backend.Ident
import Ia32Backend.ValueType

/-!
The typed syntax tree of one unit. Every expression carries the type that was resolved for it;
whether the annotations fit together is not checked here.
-/
namespace Ia32Backend

inductive UnaryOp where
  | not | negate | addressOf
  deriving DecidableEq, Repr

inductive BinaryOp where
  | plus | minus | multiply | divide
  | and | or
  | equal | notEqual | lessThan | lessEqual | greaterThan | greaterEqual
  deriving DecidableEq, Repr

def UnaryOp.name : UnaryOp → String
  | .not => "Not"
  | .negate => "Negate"
  | .addressOf => "AddressOf"

def BinaryOp.name : BinaryOp → String
  | .plus => "Plus"
  | .minus => "Minus"
  | .multiply => "Multiply"
  | .divide => "Divide"
  | .and => "And"
  | .or => "Or"
  | .equal => "Equal"
  | .notEqual => "NotEqual"
  | .lessThan => "LessThan"
  | .lessEqual => "LessEqual"
  | .greaterThan => "GreaterThan"
  | .greaterEqual => "GreaterEqual"

def BinaryOp.isRelational : BinaryOp → Bool
  | .equal | .notEqual | .lessThan | .lessEqual | .greaterThan | .greaterEqual => true
  | .plus | .minus | .multiply | .divide | .and | .or => false

/-- The value of a literal node. A float is kept as its binary32 bit pattern. -/
inductive Literal where
  | int (value : Int32)
  | char (value : Char)
  | bool (value : Bool)
  | null
  | float (bits : UInt32)
  | string (text : String)
  deriving DecidableEq, Repr

inductive Expr where
  | ident (ty : ValueType) (var : VarId)
  | lit (ty : ValueType) (node : NodeId) (value : Literal)
  | assign (ty : ValueType) (target : VarId) (value : Expr)
  | unary (ty : ValueType) (op : UnaryOp) (operand : Expr)
  | binary (ty : ValueType) (op : BinaryOp) (left right : Expr)
  | call (ty : ValueType) (callee : FunctionId) (args : List Expr)
  deriving Repr

/-- The annotation of an expression. -/
def Expr.ty : Expr → ValueType
  | .ident ty _ => ty
  | .lit ty _ _ => ty
  | .assign ty _ _ => ty
  | .unary ty _ _ => ty
  | .binary ty _ _ _ => ty
  | .call ty _ _ => ty

mutual

structure Block where
  id : BlockId
  body : List Stmt

structure FunctionDecl where
  symbol : FunctionId
  params : List VarId
  body : Block

inductive Stmt where
  | function (decl : FunctionDecl)
  | declare (vars : List VarId)
  | block (body : Block)
  | ifThen (test : Expr) (body : Block)
  | whileLoop (test : Expr) (body : Block)
  | forLoop (init test : Expr) (step : Option Expr) (body : Block)
  | ret (value : Option Expr)
  | eval (expr : Expr)

end

structure Program where
  body : List Stmt

/-- What a statement is called in a fault. -/
def Stmt.kind : Stmt → String
  | .function _ => "function declaration"
  | .declare _ => "variable declaration"
  | .block _ => "block"
  | .ifThen _ _ => "if statement"
  | .whileLoop _ _ => "while statement"
  | .forLoop _ _ _ _ => "for statement"
  | .ret _ => "return statement"
  | .eval _ => "expression statement"

def Stmt.isReturn : Stmt → Bool
  | .ret _ => true
  | _ => false

end Ia32Backend
