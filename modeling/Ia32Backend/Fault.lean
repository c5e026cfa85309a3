import Ia32Backend.Ident

/-
Reasons for which a unit cannot be compiled. A semantic fault is the author's; all others mean
that the tree, the symbol table or the backend broke an agreement among themselves.
-/
namespace Ia32Backend

inductive Fault where
  | semantic (text : String)
  | noSlot (var : VarId) (name : String)
  | literalNotPooled (node : NodeId)
  | pauseNotPooled
  | noVariable (var : VarId)
  | noFunction (function : FunctionId)
  | misplaced (kind place : String)
  | floatUse (use : String)
  deriving DecidableEq, Repr

def Fault.isInternal : Fault → Bool
  | .semantic _ => false
  | _ => true

/-- What an internal fault says after its common opening words. -/
def Fault.detail : Fault → String
  | .semantic text => text
  | .noSlot _ name => "variable `" ++ name ++ "` has no stack slot"
  | .literalNotPooled node => "literal node " ++ node.text ++ " was never pooled"
  | .pauseNotPooled => "pause string was not pooled"
  | .noVariable var => "no variable symbol " ++ var.text
  | .noFunction function => "no function symbol " ++ function.text
  | .misplaced kind place => "cannot lower " ++ kind ++ " " ++ place
  | .floatUse use => "floating-point " ++ use ++ " is not supported"

def Fault.message (f : Fault) : String :=
  (if f.isInternal then "internal compiler error: " else "Semantic error: ") ++ f.detail

end Ia32Backend
