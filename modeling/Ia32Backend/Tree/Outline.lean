import Ia32Backend.Decimal.Binary32
import Ia32Backend.Text.Quoted
import Ia32Backend.Tree

/-!
A tree as indented text, one line for each opening, closing and leaf. Types are shown for
identifiers and binary expressions only. Statements of a block and arguments of a call are parted
by a line with a comma; statements of a program and parameters are not.
-/
namespace Ia32Backend

/-- A line and how deep it stands. -/
structure OutlineLine where
  depth : Nat
  text : String
  deriving DecidableEq, Repr

def OutlineLine.render (l : OutlineLine) : String :=
  String.ofList (List.replicate (2 * l.depth) ' ') ++ l.text ++ "\n"

namespace Outline

def render (lines : List OutlineLine) : String := String.join (lines.map OutlineLine.render)

/-- Content between an opening line and a closing parenthesis. -/
def enclose (depth : Nat) (opening : String) (content : List OutlineLine) : List OutlineLine :=
  ⟨depth, opening⟩ :: content ++ [⟨depth, ")"⟩]

def comma (depth : Nat) : OutlineLine := ⟨depth, ","⟩

end Outline

def Literal.text : Literal → String
  | .int value => "Integer(" ++ toString value.toInt ++ ")"
  | .char c => "Char(" ++ Quoted.char c ++ ")"
  | .bool b => "Bool(" ++ (if b then "true" else "false") ++ ")"
  | .null => "Null"
  | .float bits => "Float(" ++ (Binary32.ofBits bits).text ++ ")"
  | .string s => "String(" ++ Quoted.string s ++ ")"

mutual

def Expr.outline (depth : Nat) : Expr → List OutlineLine
  | .ident ty v => [⟨depth, "Identifier(" ++ v.text ++ ": " ++ ty.name ++ ")"⟩]
  | .lit _ node value => [⟨depth, "Literal(" ++ node.text ++ " " ++ value.text ++ ")"⟩]
  | .assign _ target value =>
      Outline.enclose depth ("Assignment(" ++ target.text) (value.outline (depth + 1))
  | .unary _ op operand =>
      Outline.enclose depth ("Unary(" ++ op.name) (operand.outline (depth + 1))
  | .binary ty op left right =>
      Outline.enclose depth ("Binary(" ++ op.name ++ ": " ++ ty.name)
        (left.outline (depth + 1) ++ Outline.comma (depth + 1) :: right.outline (depth + 1))
  | .call _ callee args =>
      Outline.enclose depth ("Call(" ++ callee.text) (Expr.outlineArgs (depth + 1) args)
termination_by structural e => e

def Expr.outlineArgs (depth : Nat) : List Expr → List OutlineLine
  | [] => []
  | arg :: rest =>
      arg.outline depth ++
        (if rest.isEmpty then [] else [Outline.comma depth]) ++ Expr.outlineArgs depth rest
termination_by structural args => args

end

/-- A labelled part of a statement. -/
def Expr.outlinePart (depth : Nat) (label : String) (e : Expr) : List OutlineLine :=
  Outline.enclose depth (label ++ "(") (e.outline (depth + 1))

def Outline.names (vars : List VarId) : String := ", ".intercalate (vars.map VarId.text)

def Outline.params (depth : Nat) (params : List VarId) : List OutlineLine :=
  params.map fun v => ⟨depth, "FormalArgument(" ++ v.text ++ ")"⟩

def Outline.block (depth : Nat) (id : BlockId) (content : List OutlineLine) : List OutlineLine :=
  Outline.enclose depth ("Block(" ++ id.text) content

mutual

def Stmt.outline (depth : Nat) : Stmt → List OutlineLine
  | .function ⟨symbol, params, ⟨id, body⟩⟩ =>
      Outline.enclose depth ("Function(" ++ symbol.text)
        (Outline.params (depth + 1) params ++
          Outline.block (depth + 1) id (Stmt.outlineBody (depth + 2) body))
  | .declare vars => [⟨depth, "VariableDeclaration(" ++ Outline.names vars ++ ")"⟩]
  | .block ⟨id, body⟩ => Outline.block depth id (Stmt.outlineBody (depth + 1) body)
  | .ifThen test ⟨id, body⟩ =>
      Outline.enclose depth "If("
        (test.outlinePart (depth + 1) "Condition" ++ Outline.comma (depth + 1) ::
          Outline.block (depth + 1) id (Stmt.outlineBody (depth + 2) body))
  | .whileLoop test ⟨id, body⟩ =>
      Outline.enclose depth "While("
        (test.outlinePart (depth + 1) "Condition" ++ Outline.comma (depth + 1) ::
          Outline.block (depth + 1) id (Stmt.outlineBody (depth + 2) body))
  | .forLoop init test step ⟨id, body⟩ =>
      Outline.enclose depth "For("
        (init.outlinePart (depth + 1) "Init" ++ test.outlinePart (depth + 1) "Condition" ++
          (match step with
            | none => []
            | some e => e.outlinePart (depth + 1) "Step") ++
          Outline.block (depth + 1) id (Stmt.outlineBody (depth + 2) body))
  | .ret none => [⟨depth, "Return"⟩]
  | .ret (some value) => value.outlinePart depth "Return"
  | .eval expr => expr.outlinePart depth "ExpressionStmt"
termination_by structural s => s

def Stmt.outlineBody (depth : Nat) : List Stmt → List OutlineLine
  | [] => []
  | s :: rest =>
      s.outline depth ++
        (if rest.isEmpty then [] else [Outline.comma depth]) ++ Stmt.outlineBody depth rest
termination_by structural body => body

end

def Block.outline (depth : Nat) (b : Block) : List OutlineLine :=
  Outline.block depth b.id (Stmt.outlineBody (depth + 1) b.body)

def FunctionDecl.outline (depth : Nat) (f : FunctionDecl) : List OutlineLine :=
  Outline.enclose depth ("Function(" ++ f.symbol.text)
    (Outline.params (depth + 1) f.params ++ f.body.outline (depth + 1))

def Program.outline (depth : Nat) (p : Program) : List OutlineLine :=
  Outline.enclose depth "Program(" (p.body.flatMap (Stmt.outline (depth + 1)))

theorem Stmt.outline_function (depth : Nat) (f : FunctionDecl) :
    (Stmt.function f).outline depth = f.outline depth := by
  obtain ⟨symbol, params, ⟨id, body⟩⟩ := f
  rfl

theorem Stmt.outline_block (depth : Nat) (b : Block) :
    (Stmt.block b).outline depth = b.outline depth := by
  obtain ⟨id, body⟩ := b
  rfl

end Ia32Backend
