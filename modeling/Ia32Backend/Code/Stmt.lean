import Ia32Backend.Code.Expr

/-!
Code of statements. Branch labels are numbered through the unit, for each kind of construct apart,
and a construct draws its number before what stands inside it.
-/
namespace Ia32Backend

/-- How many constructs of each kind have drawn a label. -/
structure Labels where
  ifs : Nat := 0
  fors : Nat := 0
  whiles : Nat := 0
  deriving DecidableEq, Repr

namespace Labels

def endIf (l : Labels) : String := "L_endif" ++ toString l.ifs
def forHead (l : Labels) : String := "L_for" ++ toString l.fors
def forEnd (l : Labels) : String := "L_endfor" ++ toString l.fors
def whileHead (l : Labels) : String := "L_while" ++ toString l.whiles
def whileEnd (l : Labels) : String := "L_endwhile" ++ toString l.whiles

def drawIf (l : Labels) : Labels := { l with ifs := l.ifs + 1 }
def drawFor (l : Labels) : Labels := { l with fors := l.fors + 1 }
def drawWhile (l : Labels) : Labels := { l with whiles := l.whiles + 1 }

end Labels

def epilogue : List Instr := [.leave, .ret]

/-- Calls the pause routine with the pause string. The return value is kept on the stack. -/
def Env.pause (env : Env) : Except Fault (List Instr) := do
  let label ← env.strings.pauseLabel
  pure [.push .acc, .push (.addr label), .call env.config.pauseRoutine,
    .arith .add .long (.imm 4) (.reg .sp), .pop .acc]

/-- Only a return that stands directly in the entry function's body pauses. -/
def Env.pauseWhen (env : Env) : Bool → Except Fault (List Instr)
  | true => env.pause
  | false => pure []

/-- A value is returned as a long. -/
def returnValue (env : Env) : Option Expr → Except Fault (List Instr)
  | none => pure []
  | some value => do pure ((← value.code env).at .long)

def stepCode (env : Env) : Option Expr → Except Fault (List Instr)
  | none => pure []
  | some step => do pure (← step.code env).code

def ifCode (done : String) (test : ValueCode) (body : List Instr) : List Instr :=
  test.code ++ [.cmp test.width (.imm 0) .acc, .jump .e done] ++ body ++ [.label done]

/-- Makes the test a mask, all ones for any value but zero, and leaves where the mask is not
negative. -/
def leaveUnless (w : Width) (done : String) : List Instr :=
  [.cmp w (.imm 0) .acc, .set .ne .acc, .movZero .acc .acc, .neg .long .acc, .jump .ge done]

def loopCode (head done : String) (test : ValueCode) (body step : List Instr) : List Instr :=
  [.label head] ++ test.code ++ leaveUnless test.width done ++ body ++ step ++
    [.jmp head, .label done]

mutual

/-- The code of a statement and the labels drawn after it. With `direct` the statement stands
directly in the body of the entry function, where a return pauses first. -/
def Stmt.code (env : Env) (direct : Bool) (l : Labels) :
    Stmt → Except Fault (List Instr × Labels)
  | .function decl =>
      throw (.misplaced (Stmt.function decl).kind "inside a function body")
  | .declare _ => pure ([], l)
  | .block ⟨_, body⟩ => Stmt.codeAll env false l body
  | .ifThen test ⟨_, body⟩ => do
      let t ← test.code env
      let (inner, last) ← Stmt.codeAll env false l.drawIf body
      pure (ifCode l.endIf t inner, last)
  | .whileLoop test ⟨_, body⟩ => do
      let t ← test.code env
      let (inner, last) ← Stmt.codeAll env false l.drawWhile body
      pure (loopCode l.whileHead l.whileEnd t inner [], last)
  | .forLoop init test step ⟨_, body⟩ => do
      let i ← init.code env
      let t ← test.code env
      let (inner, last) ← Stmt.codeAll env false l.drawFor body
      let s ← stepCode env step
      pure (i.code ++ loopCode l.forHead l.forEnd t inner s, last)
  | .ret value => do
      let v ← returnValue env value
      let p ← env.pauseWhen direct
      pure (v ++ p ++ epilogue, l)
  | .eval expr => do pure ((← expr.code env).code, l)
termination_by structural s => s

def Stmt.codeAll (env : Env) (direct : Bool) (l : Labels) :
    List Stmt → Except Fault (List Instr × Labels)
  | [] => pure ([], l)
  | s :: rest => do
      let (first, mid) ← Stmt.code env direct l s
      let (later, last) ← Stmt.codeAll env direct mid rest
      pure (first ++ later, last)
termination_by structural body => body

end

end Ia32Backend
