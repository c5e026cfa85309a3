import Ia32Backend.Asm.Instr
import Ia32Backend.Config
import Ia32Backend.Frames
import Ia32Backend.StringPool
import Ia32Backend.Tree

/-!
Code of expressions. An expression leaves its value in the accumulator, at a width that follows
from its form: `%al` for a byte, `%eax` for a long. Its code has no labels and no jumps, and what
it pushes it pops.
-/
namespace Ia32Backend

/-- What code is written against: the symbols, the names in the runtime, the pooled strings and
the slots handed out so far. -/
structure Env where
  symbols : SymbolTable
  config : Config
  strings : StringPool
  frames : Frames
  deriving DecidableEq, Repr

/-- Width with which a variable is loaded and stored. -/
def ValueType.width : ValueType → Width
  | .char => .byte
  | _ => .long

/-- A variable's slot. -/
structure Place where
  operand : Operand
  width : Width
  deriving DecidableEq, Repr

def Env.place (env : Env) (v : VarId) : Except Fault Place := do
  let s ← env.symbols.variableAt v
  let offset ← env.frames.slotOffset v s.block s.name
  pure ⟨.frame (Int32.ofInt offset), s.ty.width⟩

/-- Code that leaves a value of the given width in the accumulator. -/
structure ValueCode where
  code : List Instr
  width : Width
  deriving DecidableEq, Repr

/-- Extends a byte, keeping its sign, where a long is wanted. A long is left as it is. -/
def Width.extendTo : Width → Width → List Instr
  | .byte, .long => [.movSigned .acc .acc]
  | _, _ => []

def ValueCode.at (v : ValueCode) (w : Width) : List Instr := v.code ++ v.width.extendTo w

def Place.load (p : Place) : ValueCode := ⟨[.mov p.width p.operand .acc], p.width⟩

def Place.store (p : Place) (v : ValueCode) : ValueCode :=
  ⟨v.at p.width ++ [.mov p.width .acc p.operand], p.width⟩

def Place.address (p : Place) : ValueCode := ⟨[.lea p.operand .acc], .long⟩

/-- A literal as an operand. True is a mask of ones; a character is its code point. -/
def Env.literal (env : Env) (node : NodeId) : Literal → Except Fault Operand
  | .int value => pure (.imm value)
  | .char c => pure (.imm (Int32.ofNat c.toNat))
  | .bool true => pure (.imm (-1))
  | .bool false => pure (.imm 0)
  | .null => pure (.imm 0)
  | .string _ => do pure (.addr (← env.strings.labelAt node))
  | .float _ => throw (.floatUse "literal")

/-- One where the operand is zero, zero where it is not. -/
def ValueCode.not (v : ValueCode) : ValueCode :=
  ⟨v.code ++ [.cmp v.width (.imm 0) .acc, .set .e .acc, .movZero .acc .acc], .long⟩

def ValueType.negatable : ValueType → Except Fault Unit
  | .float => throw (.floatUse "negation")
  | _ => pure ()

def ValueCode.negate (v : ValueCode) : ValueCode := ⟨v.code ++ [.neg v.width .acc], v.width⟩

/-- Signed division. The divisor moves away first, since a long dividend is extended into the
register that holds it. -/
def divideCode (w : Width) : List Instr :=
  [.mov w .other .divisor, match w with | .long => .cltd | .byte => .cbtw, .idiv w .divisor]

def multiplyCode : Width → Instr
  | .long => .arith .imul .long .other .acc
  | .byte => .mulByte .other

def compareCode (c : Cond) (w : Width) : List Instr :=
  [.cmp w .other .acc, .set c .acc] ++ match w with | .long => [.movZero .acc .acc] | .byte => []

/-- Combines the left operand in the accumulator with the right one in the other register. -/
def BinaryOp.code (w : Width) : BinaryOp → List Instr
  | .plus => [.arith .add w .other .acc]
  | .minus => [.arith .sub w .other .acc]
  | .and => [.arith .and w .other .acc]
  | .or => [.arith .or w .other .acc]
  | .multiply => [multiplyCode w]
  | .divide => divideCode w
  | .equal => compareCode .e w
  | .notEqual => compareCode .ne w
  | .lessThan => compareCode .l w
  | .lessEqual => compareCode .le w
  | .greaterThan => compareCode .g w
  | .greaterEqual => compareCode .ge w

/-- Whether the code of an expression writes the other register. -/
def Expr.usesOther : Expr → Bool
  | .ident _ _ => false
  | .lit _ _ _ => false
  | .assign _ _ value => value.usesOther
  | .unary _ _ operand => operand.usesOther
  | .binary _ _ _ _ => true
  | .call _ _ _ => true

/-- The width a binary expression is computed at. -/
def ValueType.operationWidth : ValueType → Except Fault Width
  | .float => throw (.floatUse "arithmetic")
  | .char => pure .byte
  | _ => pure .long

/-- Left before right. The left value waits in the other register, or on the stack if the code of
the right operand would overwrite it there. -/
def binaryCode (op : BinaryOp) (w : Width) (left right : ValueCode) (save : Bool) : ValueCode :=
  ⟨left.at w ++ [.mov w .acc .other] ++
    (if save then [.push .other] else []) ++
    right.at w ++
    (if save then [.pop .other] else []) ++
    [.xchg w .acc .other] ++ op.code w, w⟩

/-- The caller drops the arguments, of four bytes each. -/
def callCode (label : String) (count : Nat) (args : List Instr) : ValueCode :=
  ⟨args ++ [.call label] ++
    (if count = 0 then [] else [.arith .add .long (.imm (Int32.ofNat (4 * count))) (.reg .sp)]),
    .long⟩

mutual

def Expr.code (env : Env) : Expr → Except Fault ValueCode
  | .ident _ v => do pure (← env.place v).load
  | .lit _ node value => do pure ⟨[.mov .long (← env.literal node value) .acc], .long⟩
  | .assign _ target value => do
      let place ← env.place target
      pure (place.store (← value.code env))
  | .unary _ .addressOf (.ident _ v) => do pure (← env.place v).address
  | .unary _ .addressOf _ =>
      throw (.semantic "cannot take the address of a non-variable value")
  | .unary _ .not operand => do pure (← operand.code env).not
  | .unary _ .negate operand => do
      operand.ty.negatable
      pure (← operand.code env).negate
  | .binary _ op left right => do
      let w ← (left.ty.promote right.ty).operationWidth
      let l ← left.code env
      let r ← right.code env
      pure (binaryCode op w l r right.usesOther)
  | .call _ callee args => do
      let f ← env.symbols.functionAt callee
      pure (callCode f.label args.length (← Expr.pushArgs env args))
termination_by structural e => e

/-- Computes and pushes arguments, the last one first. -/
def Expr.pushArgs (env : Env) : List Expr → Except Fault (List Instr)
  | [] => pure []
  | arg :: rest => do
      let later ← Expr.pushArgs env rest
      let v ← arg.code env
      pure (later ++ v.at .long ++ [.push .acc])
termination_by structural args => args

end

-- By its equation and not by `rfl`: the equations of the recursion are then made once, here.
theorem Expr.code_ident (env : Env) (ty : ValueType) (v : VarId) :
    (Expr.ident ty v).code env = (do pure (← env.place v).load) := by
  rw [code]

end Ia32Backend
