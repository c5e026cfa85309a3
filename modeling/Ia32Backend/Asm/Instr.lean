import Ia32Backend.Ident

/-
Instructions and directives of the 32-bit target. Operands are in AT&T order, source first.
Nothing here limits which operands an instruction admits.
-/
namespace Ia32Backend

/-- Operand size: a byte or a 32-bit long. -/
inductive Width where
  | byte | long
  deriving DecidableEq, Repr

inductive Reg where
  | ax | bx | cx | dx | si | di | bp | sp
  deriving DecidableEq, Repr

inductive Operand where
  | reg (r : Reg)
  | mem (base : Reg) (disp : Int32)
  | imm (value : Int32)
  /-- The address of a label, as an immediate. -/
  | addr (label : String)
  deriving DecidableEq, Repr

namespace Operand

/-- Every expression leaves its value here. -/
abbrev acc : Operand := .reg .ax

/-- Holds the other operand of a binary expression. -/
abbrev other : Operand := .reg .dx

/-- Holds a divisor, since the dividend needs both registers above. -/
abbrev divisor : Operand := .reg .cx

/-- The cell at a distance from the frame pointer. -/
abbrev frame (disp : Int32) : Operand := .mem .bp disp

end Operand

/-- Signed conditions, as tested after a comparison. -/
inductive Cond where
  | e | ne | g | ge | l | le
  deriving DecidableEq, Repr

inductive ArithOp where
  | add | sub | imul | and | or
  deriving DecidableEq, Repr

inductive Instr where
  | mov (w : Width) (src dst : Operand)
  /-- Byte to long, keeping the sign. -/
  | movSigned (src dst : Operand)
  /-- Byte to long, clearing the upper bits. -/
  | movZero (src dst : Operand)
  | lea (src dst : Operand)
  | arith (op : ArithOp) (w : Width) (src dst : Operand)
  /-- The product of `%al` and the source, in `%ax`. -/
  | mulByte (src : Operand)
  | idiv (w : Width) (src : Operand)
  /-- Extends `%eax` into `%edx:%eax`, keeping the sign. -/
  | cltd
  /-- Extends `%al` into `%ax`, keeping the sign. -/
  | cbtw
  | neg (w : Width) (dst : Operand)
  | cmp (w : Width) (src dst : Operand)
  | set (c : Cond) (dst : Operand)
  | xchg (w : Width) (a b : Operand)
  | push (src : Operand)
  | pop (dst : Operand)
  | call (target : String)
  | jmp (target : String)
  | jump (c : Cond) (target : String)
  | label (name : String)
  | leave
  | ret
  | globl (name : String)
  /-- A text followed by a zero byte. -/
  | ascii (text : String)
  deriving DecidableEq, Repr

end Ia32Backend
