import Ia32Backend.Asm.Listing
import Ia32Backend.Code.Layout
import Ia32Backend.Code.Stmt

/-!
Code of functions and of a whole unit: the string data, a directive for each function symbol, then
the functions in order. Frames and branch labels go on from one function to the next.
-/
namespace Ia32Backend

/-- A function's code, with the frames and labels that it leaves to the functions after it. -/
structure FunctionCode where
  code : List Instr
  frames : Frames
  labels : Labels
  deriving DecidableEq, Repr

def prologue (label : String) (reserved : Nat) : List Instr :=
  [.label label, .push (.reg .bp), .mov .long (.reg .sp) (.reg .bp),
    .arith .and .long (.imm (-16)) (.reg .sp)] ++
  if reserved = 0 then []
  else [.arith .sub .long (.imm (Int32.ofNat reserved)) (.reg .sp)]

/-- Copies parameters into their slots. They arrive above the return address, four bytes each. -/
def copyParams (env : Env) (index : Nat) : List VarId → Except Fault (List Instr)
  | [] => pure []
  | v :: rest => do
      let place ← env.place v
      let arrived : Place := ⟨.frame (Int32.ofNat (8 + 4 * index)), place.width⟩
      pure ((place.store arrived.load).code ++ (← copyParams env (index + 1) rest))

def endsInReturn (body : List Stmt) : Bool := body.getLast?.any Stmt.isReturn

def FunctionDecl.code (env : Env) (labels : Labels) (f : FunctionDecl) :
    Except Fault FunctionCode := do
  let symbol ← env.symbols.functionAt f.symbol
  let layout ← Layout.ofFunction env.symbols env.frames f
  let env := { env with frames := layout.frames }
  let entry : Bool := symbol.name = env.config.entryName
  let copies ← copyParams env 0 f.params
  let (body, last) ← Stmt.codeAll env entry labels f.body.body
  pure {
    code :=
      prologue symbol.label layout.reserved ++
      (if entry then [.call env.config.startRoutine] else []) ++
      copies ++ body ++
      (if endsInReturn f.body.body then [] else epilogue)
    frames := layout.frames
    labels := last }

/-- A compiled unit. The code is kept for each function apart. -/
structure UnitCode where
  data : List Instr
  exports : List Instr
  functions : List (List Instr)
  deriving DecidableEq, Repr

def UnitCode.code (u : UnitCode) : List Instr := u.data ++ u.exports ++ u.functions.flatten

/-- Only functions may stand at the top of a unit. -/
def functionsCode (env : Env) (labels : Labels) : List Stmt → Except Fault (List (List Instr))
  | [] => pure []
  | .function f :: rest => do
      let first ← f.code env labels
      let later ← functionsCode { env with frames := first.frames } first.labels rest
      pure (first.code :: later)
  | s :: _ => throw (.misplaced s.kind "outside a function body")

def Program.code (symbols : SymbolTable) (config : Config) (p : Program) :
    Except Fault UnitCode := do
  let (data, strings) := StringPool.ofLiterals symbols.literals config.pauseText
  let functions ← functionsCode ⟨symbols, config, strings, {}⟩ {} p.body
  pure ⟨data, symbols.functions.map fun f => .globl f.label, functions⟩

/-- The assembly text of a unit. -/
def Program.assembly (symbols : SymbolTable) (config : Config) (p : Program) :
    Except Fault String := do
  let u ← p.code symbols config
  pure ((Listing.ofCode u.code).render config.lineEnd)

end Ia32Backend
