import Ia32Backend.Frames
import Ia32Backend.SymbolTable
import Ia32Backend.Tree

/-!
The stack layout of a function: every parameter and local gets its slot before any code is written.
Statements are taken in order, so a nested block starts below the variables declared before it, and
variables declared after it may lie on the same bytes. Nested functions take no part.
-/
namespace Ia32Backend

structure Layout where
  frames : Frames
  /-- Bytes that the function has to reserve. -/
  reserved : Nat
  deriving DecidableEq, Repr

namespace Layout

def reserve (l : Layout) (b : BlockId) : Layout :=
  { l with reserved := max l.reserved (l.frames.reach b) }

def declare (symbols : SymbolTable) (l : Layout) (v : VarId) : Except Fault Layout := do
  let s ← symbols.variableAt v
  pure ({ l with frames := (l.frames.allocate s.block s.ty v).2 }.reserve s.block)

def declareAll (symbols : SymbolTable) (l : Layout) : List VarId → Except Fault Layout
  | [] => pure l
  | v :: rest => do declareAll symbols (← l.declare symbols v) rest

def openUnder (l : Layout) (child parent : BlockId) : Layout :=
  { l with frames := l.frames.openUnder child parent }

mutual

/-- The layout after a statement that stands directly in the block `parent`. -/
def addStmt (symbols : SymbolTable) (parent : BlockId) (l : Layout) :
    Stmt → Except Fault Layout
  | .declare vars => l.declareAll symbols vars
  | .block ⟨id, body⟩ => addBody symbols id (l.openUnder id parent) body
  | .ifThen _ ⟨id, body⟩ => addBody symbols id (l.openUnder id parent) body
  | .whileLoop _ ⟨id, body⟩ => addBody symbols id (l.openUnder id parent) body
  | .forLoop _ _ _ ⟨id, body⟩ => addBody symbols id (l.openUnder id parent) body
  | .function _ => pure l
  | .ret _ => pure l
  | .eval _ => pure l
termination_by structural s => s

/-- The layout after the remaining statements of the block `id`. -/
def addBody (symbols : SymbolTable) (id : BlockId) (l : Layout) :
    List Stmt → Except Fault Layout
  | [] => pure (l.reserve id)
  | s :: rest => do addBody symbols id (← addStmt symbols id l s) rest
termination_by structural body => body

end

def addParams (symbols : SymbolTable) (frames : Frames) : List VarId → Except Fault Frames
  | [] => pure frames
  | v :: rest => do
      let s ← symbols.variableAt v
      addParams symbols (frames.allocate s.block s.ty v).2 rest

/-- Opens a body below each other block that owns one of the parameters. -/
def openBelowParams (symbols : SymbolTable) (body : BlockId) (frames : Frames) :
    List VarId → Except Fault Frames
  | [] => pure frames
  | v :: rest => do
      let s ← symbols.variableAt v
      let frames := if s.block = body then frames else frames.openUnder body s.block
      openBelowParams symbols body frames rest

/-- The layout of a function over the frames that earlier functions left. -/
def ofFunction (symbols : SymbolTable) (frames : Frames) (f : FunctionDecl) :
    Except Fault Layout := do
  let frames ← addParams symbols frames f.params
  let frames ← openBelowParams symbols f.body.id frames f.params
  addBody symbols f.body.id ⟨frames, frames.reach f.body.id⟩ f.body.body

end Layout

end Ia32Backend
