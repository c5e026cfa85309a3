import Ia32Backend.Asm.Instr

/-!
AT&T text of instructions. An instruction is one line: a label stands at the margin, anything else
is a tab, a mnemonic and its arguments. Names and texts are written as they are.
-/
namespace Ia32Backend

def Width.suffix : Width → String
  | .byte => "b"
  | .long => "l"

def Cond.suffix : Cond → String
  | .e => "e"
  | .ne => "ne"
  | .g => "g"
  | .ge => "ge"
  | .l => "l"
  | .le => "le"

def ArithOp.mnemonic : ArithOp → String
  | .add => "add"
  | .sub => "sub"
  | .imul => "imul"
  | .and => "and"
  | .or => "or"

def Reg.longName : Reg → String
  | .ax => "eax"
  | .bx => "ebx"
  | .cx => "ecx"
  | .dx => "edx"
  | .si => "esi"
  | .di => "edi"
  | .bp => "ebp"
  | .sp => "esp"

/-- Only the first four registers have a byte half; the others keep their long name. -/
def Reg.name (w : Width) (r : Reg) : String :=
  match w, r with
  | .byte, .ax => "al"
  | .byte, .bx => "bl"
  | .byte, .cx => "cl"
  | .byte, .dx => "dl"
  | _, _ => r.longName

/-- A base register is always a long, and a zero displacement is left out. -/
def Operand.text (w : Width) : Operand → String
  | .reg r => "%" ++ r.name w
  | .mem base disp =>
      (if disp = 0 then "" else toString disp.toInt) ++ "(%" ++ base.longName ++ ")"
  | .imm value => "$" ++ toString value.toInt
  | .addr label => "$" ++ label

/-- One line of assembly text, before it is written out. -/
inductive AsmLine where
  | label (name : String)
  | op (mnemonic : String) (args : List String)
  deriving DecidableEq, Repr

def AsmLine.text : AsmLine → String
  | .label name => name ++ ":"
  | .op mnemonic [] => "\t" ++ mnemonic
  | .op mnemonic args => "\t" ++ mnemonic ++ " " ++ ", ".intercalate args

def Instr.line : Instr → AsmLine
  | .mov w src dst => .op ("mov" ++ w.suffix) [src.text w, dst.text w]
  | .movSigned src dst => .op "movsbl" [src.text .byte, dst.text .long]
  | .movZero src dst => .op "movzbl" [src.text .byte, dst.text .long]
  | .lea src dst => .op "leal" [src.text .long, dst.text .long]
  | .arith op w src dst => .op (op.mnemonic ++ w.suffix) [src.text w, dst.text w]
  | .mulByte src => .op "imulb" [src.text .byte]
  | .idiv w src => .op ("idiv" ++ w.suffix) [src.text w]
  | .cltd => .op "cltd" []
  | .cbtw => .op "cbtw" []
  | .neg w dst => .op ("neg" ++ w.suffix) [dst.text w]
  | .cmp w src dst => .op ("cmp" ++ w.suffix) [src.text w, dst.text w]
  | .set c dst => .op ("set" ++ c.suffix) [dst.text .byte]
  | .xchg w a b => .op ("xchg" ++ w.suffix) [a.text w, b.text w]
  | .push src => .op "pushl" [src.text .long]
  | .pop dst => .op "popl" [dst.text .long]
  | .call target => .op "call" [target]
  | .jmp target => .op "jmp" [target]
  | .jump c target => .op ("j" ++ c.suffix) [target]
  | .label name => .label name
  | .leave => .op "leave" []
  | .ret => .op "ret" []
  | .globl name => .op ".globl" [name]
  | .ascii text => .op ".ascii" ["\"" ++ text ++ "\\0\""]

def Instr.text (i : Instr) : String := i.line.text

end Ia32Backend
