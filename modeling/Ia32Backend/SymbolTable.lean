import Ia32Backend.Fault
import Ia32Backend.ValueType

/-!
Resolved symbols. Functions and variables are numbered in the order in which they were added,
so adding a symbol renumbers nothing: an identity, once given, keeps its meaning
(`functionAt_addFunction_of_ok`, `variableAt_addVariable_of_ok`).
-/
namespace Ia32Backend

structure FunctionSymbol where
  name : String
  label : String
  params : List VarId
  deriving DecidableEq, Repr

/-- A variable belongs to the block whose frame holds its slot. -/
structure VariableSymbol where
  name : String
  ty : ValueType
  block : BlockId
  deriving DecidableEq, Repr

/-- A string that needs storage, found again by its literal node. -/
structure StringLiteral where
  node : NodeId
  text : String
  deriving DecidableEq, Repr

structure SymbolTable where
  functions : List FunctionSymbol := []
  vars : List VariableSymbol := []
  literals : List StringLiteral := []
  deriving DecidableEq, Repr

namespace SymbolTable

def addFunction (t : SymbolTable) (s : FunctionSymbol) : FunctionId × SymbolTable :=
  (⟨t.functions.length⟩, { t with functions := t.functions ++ [s] })

def addVariable (t : SymbolTable) (s : VariableSymbol) : VarId × SymbolTable :=
  (⟨t.vars.length⟩, { t with vars := t.vars ++ [s] })

def addLiteral (t : SymbolTable) (l : StringLiteral) : SymbolTable :=
  { t with literals := t.literals ++ [l] }

def functionAt (t : SymbolTable) (f : FunctionId) : Except Fault FunctionSymbol :=
  match t.functions[f.index]? with
  | some s => .ok s
  | none => .error (.noFunction f)

def variableAt (t : SymbolTable) (v : VarId) : Except Fault VariableSymbol :=
  match t.vars[v.index]? with
  | some s => .ok s
  | none => .error (.noVariable v)

theorem functionAt_eq_ok {t : SymbolTable} {f : FunctionId} {s : FunctionSymbol} :
    t.functionAt f = .ok s ↔ t.functions[f.index]? = some s := by
  unfold functionAt
  split <;> simp_all

theorem variableAt_eq_ok {t : SymbolTable} {v : VarId} {s : VariableSymbol} :
    t.variableAt v = .ok s ↔ t.vars[v.index]? = some s := by
  unfold variableAt
  split <;> simp_all

theorem functionAt_addFunction (t : SymbolTable) (s : FunctionSymbol) :
    (t.addFunction s).2.functionAt (t.addFunction s).1 = .ok s := by
  simp [addFunction, functionAt]

theorem variableAt_addVariable (t : SymbolTable) (s : VariableSymbol) :
    (t.addVariable s).2.variableAt (t.addVariable s).1 = .ok s := by
  simp [addVariable, variableAt]

theorem functionAt_addFunction_of_ok {t : SymbolTable} {f : FunctionId} {old : FunctionSymbol}
    (h : t.functionAt f = .ok old) (s : FunctionSymbol) :
    (t.addFunction s).2.functionAt f = .ok old := by
  rw [functionAt_eq_ok] at h ⊢
  exact (List.getElem?_append_left (List.getElem?_eq_some_iff.1 h).1).trans h

theorem variableAt_addVariable_of_ok {t : SymbolTable} {v : VarId} {old : VariableSymbol}
    (h : t.variableAt v = .ok old) (s : VariableSymbol) :
    (t.addVariable s).2.variableAt v = .ok old := by
  rw [variableAt_eq_ok] at h ⊢
  exact (List.getElem?_append_left (List.getElem?_eq_some_iff.1 h).1).trans h

end SymbolTable

end Ia32Backend
