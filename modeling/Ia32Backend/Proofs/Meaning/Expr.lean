import Ia32Backend.Proofs.Meaning.Run
import Ia32Backend.SymbolTable
import Ia32Backend.Code.Expr

/-!
Meaning of expressions. Operands are taken left before right and arguments last to first; both
operands of every operator are evaluated. An assignment has the value that was stored. The address
of a variable has no meaning here.
-/
namespace Ia32Backend

/-- What the meaning of a tree depends on besides the tree: the symbols and the addresses of
strings. -/
structure Setting where
  symbols : SymbolTable
  text : NodeId → Word

/-- The width at which a variable is kept. -/
def Setting.widthOf (s : Setting) (v : VarId) : Run Width :=
  match s.symbols.vars[v.index]? with
  | some symbol => pure symbol.ty.width
  | none => throw .undefined

/-- The value of a literal: true is all ones, a character its code point, a string its address. -/
def Setting.literal (s : Setting) (node : NodeId) : Literal → Run Value
  | .int n => pure ⟨.long, n.toBitVec⟩
  | .char c => pure ⟨.long, BitVec.ofNat 32 c.toNat⟩
  | .bool true => pure ⟨.long, -1⟩
  | .bool false => pure ⟨.long, 0⟩
  | .null => pure ⟨.long, 0⟩
  | .string _ => pure ⟨.long, s.text node⟩
  | .float _ => throw .undefined

namespace Expr

section
variable (s : Setting) (call : FunctionId → List Word → Run Word)

mutual

/-- The value of an expression, where `call` says what functions do. -/
def eval : Expr → Run Value
  | .ident _ v => do
      let w ← s.widthOf v
      pure ⟨w, ((← get).store v).setWidth w.bits⟩
  | .lit _ node x => s.literal node x
  | .assign _ target value => do
      let w ← s.widthOf target
      let x ← value.eval
      Run.setVariable target ((x.at w).signExtend 32)
      pure ⟨w, x.at w⟩
  | .unary _ .addressOf _ => throw .undefined
  | .unary _ .not operand => do
      let x ← operand.eval
      pure ⟨.long, truth 32 (!x.isTrue)⟩
  | .unary _ .negate operand => do
      let x ← operand.eval
      pure ⟨x.width, -x.bits⟩
  | .binary _ op left right => do
      let w := operandWidth left.ty right.ty
      let a ← left.eval
      let b ← right.eval
      match op.apply (a.at w) (b.at w) with
      | some r => pure ⟨w, r⟩
      | none => throw .divide
  | .call _ callee args => do
      let words ← evalArgs args
      pure ⟨.long, ← call callee words⟩
termination_by structural e => e

/-- Arguments as longs, in their order; the last one is evaluated first. -/
def evalArgs : List Expr → Run (List Word)
  | [] => pure []
  | arg :: rest => do
      let later ← evalArgs rest
      let x ← arg.eval
      pure (x.at .long :: later)
termination_by structural args => args

end

end

end Expr

end Ia32Backend
