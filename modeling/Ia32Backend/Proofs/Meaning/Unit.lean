import Ia32Backend.Proofs.Meaning.Expr
import Ia32Backend.Proofs.Uses
import Ia32Backend.Config

/-!
Meaning of statements and functions. A function is called by value and has its own variables, which
are open until they are assigned; a character takes the low byte of its argument. Returning without
a value leaves the result open. The entry function first has the runtime started, and where a return
stands directly in its body, the runtime is asked to pause.
-/
namespace Ia32Backend

/-- How a statement ends. -/
inductive Flow where
  | next
  | returned (value : Option Word)
  deriving DecidableEq, Repr

/-- Runs the body and the step for as long as the test is true. -/
def loop (test : Run Bool) (body : Run Flow) (step : Run Unit) : Nat → Run Flow
  | 0 => throw .outOfFuel
  | fuel + 1 => do
      if ← test then
        match ← body with
        | .returned value => pure (.returned value)
        | .next => do
            step
            loop test body step fuel
      else pure .next

/-- Declared variables hold open words. -/
def declareAll : List VarId → Run Unit
  | [] => pure ()
  | v :: rest => do
      Run.setVariable v (← Run.choose)
      declareAll rest

/-- The start of the runtime, in the entry function. -/
def startWhen : Bool → Run Unit
  | true => Run.report .started
  | false => pure ()

/-- The pause that a return makes where it stands directly in the entry function's body. -/
def pauseWhen : Bool → Run Unit
  | true => Run.report .paused
  | false => pure ()

namespace Stmt

section
variable (ev : Expr → Run Value) (fuel : Nat)

def test (e : Expr) : Run Bool := do pure (← ev e).isTrue

def advance : Option Expr → Run Unit
  | none => pure ()
  | some e => do let _ ← ev e

/-- The word that is returned, if there is one. -/
def result : Option Expr → Run (Option Word)
  | none => pure none
  | some e => do pure (some ((← ev e).at .long))

mutual

/-- Runs a statement, where `ev` says what expressions do. With `direct` it stands directly in the
body of the entry function. -/
def exec (direct : Bool) : Stmt → Run Flow
  | .function _ => throw .undefined
  | .declare vars => do
      declareAll vars
      pure .next
  | .block ⟨_, body⟩ => execAll false body
  | .ifThen e ⟨_, body⟩ => do
      if ← test ev e then execAll false body else pure .next
  | .whileLoop e ⟨_, body⟩ => loop (test ev e) (execAll false body) (pure ()) fuel
  | .forLoop init e step ⟨_, body⟩ => do
      let _ ← ev init
      loop (test ev e) (execAll false body) (advance ev step) fuel
  | .ret value => do
      let r ← result ev value
      pauseWhen direct
      pure (.returned r)
  | .eval e => do
      let _ ← ev e
      pure .next
termination_by structural s => s

def execAll (direct : Bool) : List Stmt → Run Flow
  | [] => pure .next
  | s :: rest => do
      match ← s.exec direct with
      | .returned value => pure (.returned value)
      | .next => execAll direct rest
termination_by structural body => body

end

end

end Stmt

/-- Gives parameters the words they were passed. -/
def Setting.bind (s : Setting) : List VarId → List Word → Run Unit
  | v :: params, x :: args => do
      let w ← s.widthOf v
      Run.setVariable v ((x.setWidth w.bits).signExtend 32)
      s.bind params args
  | _, _ => pure ()

/-- Whether the program starts in a function. -/
def FunctionDecl.isEntry (symbols : SymbolTable) (config : Config) (f : FunctionDecl) : Bool :=
  symbols.functions[f.symbol.index]?.any fun s => s.name = config.entryName

theorem isEntry_eq {symbols : SymbolTable} {config : Config} {f : FunctionDecl}
    {symbol : FunctionSymbol} (found : symbols.functionAt f.symbol = .ok symbol) :
    f.isEntry symbols config = decide (symbol.name = config.entryName) := by
  rw [FunctionDecl.isEntry, SymbolTable.functionAt_eq_ok.mp found]
  rfl

/-- The word that a call results in. -/
def Flow.result : Flow → Run Word
  | .returned (some x) => pure x
  | .returned none => Run.choose
  | .next => Run.choose

/-- Runs with variables of its own. -/
def Run.withOwnVariables {α : Type} (run : Run α) : Run α := do
  let outer ← get
  modify fun w => { w with store := fun _ => 0 }
  let result ← run
  modify fun w => { w with store := outer.store }
  pure result

/-- What a function does with its arguments, where `call` says what functions do. -/
def FunctionDecl.invoke (s : Setting) (config : Config) (call : FunctionId → List Word → Run Word)
    (fuel : Nat) (f : FunctionDecl) (args : List Word) : Run Word := do
  startWhen (f.isEntry s.symbols config)
  s.bind f.params args
  let flow ← Stmt.execAll (Expr.eval s call) fuel (f.isEntry s.symbols config) f.body.body
  flow.result

/-- Calls a function, with so much fuel: the depth of calls, and in each function the number of
turns a loop may take. -/
def Program.call (s : Setting) (config : Config) (p : Program) :
    Nat → FunctionId → List Word → Run Word
  | 0, _, _ => throw .outOfFuel
  | fuel + 1, callee, args =>
      match p.functions.find? fun f => f.symbol = callee with
      | none => throw .undefined
      | some f => Run.withOwnVariables (f.invoke s config (p.call s config fuel) fuel args)

end Ia32Backend
