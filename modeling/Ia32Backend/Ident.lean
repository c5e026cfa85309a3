/-
Identities of tree nodes, lexical blocks, variables and functions.
A variable or function is named by its position in the symbol table.
-/
namespace Ia32Backend

structure NodeId where
  index : Nat
  deriving DecidableEq, Repr

structure BlockId where
  index : Nat
  deriving DecidableEq, Repr

structure VarId where
  index : Nat
  deriving DecidableEq, Repr

structure FunctionId where
  index : Nat
  deriving DecidableEq, Repr

def NodeId.text (n : NodeId) : String := "#" ++ toString n.index
def BlockId.text (b : BlockId) : String := "block" ++ toString b.index
def VarId.text (v : VarId) : String := "var" ++ toString v.index
def FunctionId.text (f : FunctionId) : String := "fn" ++ toString f.index

end Ia32Backend
