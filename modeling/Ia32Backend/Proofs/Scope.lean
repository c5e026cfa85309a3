import Ia32Backend.Code.Layout

/-!
Lexical scope in a function body. A variable is in scope from its declaration to the end of the
block it stands in, a parameter everywhere. Nested functions are not looked into: no code is ever
written for a body that holds one.
-/
namespace Ia32Backend

/-- The block whose frame holds a variable's slot. -/
def SymbolTable.owner? (symbols : SymbolTable) (v : VarId) : Option BlockId :=
  symbols.vars[v.index]?.map VariableSymbol.block

/-- The type a variable was declared with. -/
def SymbolTable.typeOf? (symbols : SymbolTable) (v : VarId) : Option ValueType :=
  symbols.vars[v.index]?.map VariableSymbol.ty

/-- The block that stands directly in a statement. -/
inductive Stmt.Nests : Stmt → BlockId → List Stmt → Prop where
  | block (id : BlockId) (body : List Stmt) : Nests (.block ⟨id, body⟩) id body
  | ifThen (test : Expr) (id : BlockId) (body : List Stmt) :
      Nests (.ifThen test ⟨id, body⟩) id body
  | whileLoop (test : Expr) (id : BlockId) (body : List Stmt) :
      Nests (.whileLoop test ⟨id, body⟩) id body
  | forLoop (init test : Expr) (step : Option Expr) (id : BlockId) (body : List Stmt) :
      Nests (.forLoop init test step ⟨id, body⟩) id body

/-- A statement with no block to look into and no declaration. -/
def Stmt.IsFlat : Stmt → Prop
  | .function _ => True
  | .ret _ => True
  | .eval _ => True
  | _ => False

theorem Stmt.shape (s : Stmt) :
    (∃ vars, s = .declare vars) ∨ (∃ id body, s.Nests id body) ∨ s.IsFlat := by
  cases s with
  | declare vars => exact Or.inl ⟨vars, rfl⟩
  | block b =>
    obtain ⟨id, body⟩ := b
    exact Or.inr (Or.inl ⟨id, body, .block id body⟩)
  | ifThen test b =>
    obtain ⟨id, body⟩ := b
    exact Or.inr (Or.inl ⟨id, body, .ifThen test id body⟩)
  | whileLoop test b =>
    obtain ⟨id, body⟩ := b
    exact Or.inr (Or.inl ⟨id, body, .whileLoop test id body⟩)
  | forLoop init test step b =>
    obtain ⟨id, body⟩ := b
    exact Or.inr (Or.inl ⟨id, body, .forLoop init test step id body⟩)
  | function decl => exact Or.inr (Or.inr trivial)
  | ret value => exact Or.inr (Or.inr trivial)
  | eval expr => exact Or.inr (Or.inr trivial)

mutual

theorem Stmt.nested_induction {motive : List Stmt → Prop} (nil : motive [])
    (cons : ∀ s rest, (∀ id body, s.Nests id body → motive body) → motive rest →
      motive (s :: rest)) :
    ∀ s : Stmt, ∀ id body, s.Nests id body → motive body
  | .block ⟨_, body⟩, _, _, .block _ _ => Stmt.body_induction nil cons body
  | .ifThen _ ⟨_, body⟩, _, _, .ifThen _ _ _ => Stmt.body_induction nil cons body
  | .whileLoop _ ⟨_, body⟩, _, _, .whileLoop _ _ _ => Stmt.body_induction nil cons body
  | .forLoop _ _ _ ⟨_, body⟩, _, _, .forLoop _ _ _ _ _ => Stmt.body_induction nil cons body

/-- Induction on a body: a statement may use the claim for the block that stands in it. -/
theorem Stmt.body_induction {motive : List Stmt → Prop} (nil : motive [])
    (cons : ∀ s rest, (∀ id body, s.Nests id body → motive body) → motive rest →
      motive (s :: rest)) :
    ∀ body : List Stmt, motive body
  | [] => nil
  | s :: rest =>
    cons s rest (Stmt.nested_induction nil cons s) (Stmt.body_induction nil cons rest)

end

/-- Variables that a statement adds to the scope of the statements after it. -/
def Stmt.declared : Stmt → List VarId
  | .declare vars => vars
  | _ => []

mutual

/-- Blocks inside a statement, in order. -/
def Stmt.blockIds : Stmt → List BlockId
  | .block ⟨id, body⟩ => id :: Stmt.blockIdsOf body
  | .ifThen _ ⟨id, body⟩ => id :: Stmt.blockIdsOf body
  | .whileLoop _ ⟨id, body⟩ => id :: Stmt.blockIdsOf body
  | .forLoop _ _ _ ⟨id, body⟩ => id :: Stmt.blockIdsOf body
  | .function _ => []
  | .declare _ => []
  | .ret _ => []
  | .eval _ => []
termination_by structural s => s

def Stmt.blockIdsOf : List Stmt → List BlockId
  | [] => []
  | s :: rest => s.blockIds ++ Stmt.blockIdsOf rest
termination_by structural body => body

end

mutual

/-- Declared variables, each with the block it is declared in. -/
def Stmt.declarations (id : BlockId) : Stmt → List (BlockId × VarId)
  | .declare vars => vars.map fun v => (id, v)
  | .block ⟨inner, body⟩ => Stmt.declarationsOf inner body
  | .ifThen _ ⟨inner, body⟩ => Stmt.declarationsOf inner body
  | .whileLoop _ ⟨inner, body⟩ => Stmt.declarationsOf inner body
  | .forLoop _ _ _ ⟨inner, body⟩ => Stmt.declarationsOf inner body
  | .function _ => []
  | .ret _ => []
  | .eval _ => []
termination_by structural s => s

def Stmt.declarationsOf (id : BlockId) : List Stmt → List (BlockId × VarId)
  | [] => []
  | s :: rest => s.declarations id ++ Stmt.declarationsOf id rest
termination_by structural body => body

end

mutual

/-- Scopes at the program points inside a statement. -/
def Stmt.scopes (scope : List VarId) : Stmt → List (List VarId)
  | .block ⟨_, body⟩ => Stmt.scopesOf scope body
  | .ifThen _ ⟨_, body⟩ => Stmt.scopesOf scope body
  | .whileLoop _ ⟨_, body⟩ => Stmt.scopesOf scope body
  | .forLoop _ _ _ ⟨_, body⟩ => Stmt.scopesOf scope body
  | .function _ => []
  | .declare _ => []
  | .ret _ => []
  | .eval _ => []
termination_by structural s => s

/-- Scopes at the program points of a block: before each statement, inside it, and at the end. -/
def Stmt.scopesOf (scope : List VarId) : List Stmt → List (List VarId)
  | [] => [scope]
  | s :: rest => scope :: (s.scopes scope ++ Stmt.scopesOf (scope ++ s.declared) rest)
termination_by structural body => body

end

section
variable {s : Stmt} {id : BlockId} {body : List Stmt}

theorem Stmt.Nests.blockIds (nests : s.Nests id body) : s.blockIds = id :: blockIdsOf body := by
  cases nests <;> rfl

theorem Stmt.Nests.declared (nests : s.Nests id body) : s.declared = [] := by
  cases nests <;> rfl

theorem Stmt.Nests.declarations (nests : s.Nests id body) (outer : BlockId) :
    s.declarations outer = declarationsOf id body := by
  cases nests <;> rfl

theorem Stmt.Nests.scopes (nests : s.Nests id body) (scope : List VarId) :
    s.scopes scope = scopesOf scope body := by
  cases nests <;> rfl

theorem Stmt.IsFlat.declared (flat : s.IsFlat) : s.declared = [] := by
  cases s <;> first | rfl | exact flat.elim

theorem Stmt.IsFlat.declarations (flat : s.IsFlat) (outer : BlockId) :
    s.declarations outer = [] := by
  cases s <;> first | rfl | exact flat.elim

theorem Stmt.IsFlat.scopes (flat : s.IsFlat) (scope : List VarId) : s.scopes scope = [] := by
  cases s <;> first | rfl | exact flat.elim

end

namespace FunctionDecl

def blockIds (f : FunctionDecl) : List BlockId := f.body.id :: Stmt.blockIdsOf f.body.body

def declarations (f : FunctionDecl) : List (BlockId × VarId) :=
  Stmt.declarationsOf f.body.id f.body.body

/-- Parameters and locals. -/
def vars (f : FunctionDecl) : List VarId := f.params ++ f.declarations.map Prod.snd

/-- Scopes at the program points of a function. -/
def scopes (f : FunctionDecl) : List (List VarId) := Stmt.scopesOf f.params f.body.body

/-- Blocks that a function has to do with: its own and those that own its variables. -/
def blocksUsed (symbols : SymbolTable) (f : FunctionDecl) : List BlockId :=
  f.blockIds ++ f.vars.filterMap symbols.owner?

/-- The blocks of a function are its own, apart from those that are taken, and own the variables
declared in them. The parameters lie in the body's frame or in one used for nothing else. -/
structure Tidy (symbols : SymbolTable) (taken : List BlockId) (f : FunctionDecl) : Prop where
  distinct : f.blockIds.Nodup
  fresh : ∀ b ∈ f.blockIds, b ∉ taken
  owned : ∀ d ∈ f.declarations, symbols.owner? d.2 = some d.1
  params : ∃ b, (∀ v ∈ f.params, symbols.owner? v = some b) ∧
    (b = f.body.id ∨ (b ∉ f.blockIds ∧ b ∉ taken))

end FunctionDecl

/-- Blocks that some functions have to do with. -/
def blocksTaken (symbols : SymbolTable) (functions : List FunctionDecl) : List BlockId :=
  functions.flatMap (FunctionDecl.blocksUsed symbols)

theorem owner_of_variableAt {symbols : SymbolTable} {v : VarId} {s : VariableSymbol}
    (found : symbols.variableAt v = .ok s) : symbols.owner? v = some s.block := by
  simp [SymbolTable.owner?, SymbolTable.variableAt_eq_ok.mp found]

theorem typeOf_of_variableAt {symbols : SymbolTable} {v : VarId} {s : VariableSymbol}
    (found : symbols.variableAt v = .ok s) : symbols.typeOf? v = some s.ty := by
  simp [SymbolTable.typeOf?, SymbolTable.variableAt_eq_ok.mp found]

theorem variableAt_of_owner {symbols : SymbolTable} {v : VarId} {b : BlockId}
    (owner : symbols.owner? v = some b) :
    ∃ s, symbols.variableAt v = .ok s ∧ s.block = b := by
  obtain ⟨s, entry, block⟩ := Option.map_eq_some_iff.mp owner
  exact ⟨s, SymbolTable.variableAt_eq_ok.mpr entry, block⟩

theorem block_of_owner {symbols : SymbolTable} {v : VarId} {s : VariableSymbol} {b : BlockId}
    (found : symbols.variableAt v = .ok s) (owner : symbols.owner? v = some b) : s.block = b :=
  Option.some.inj ((owner_of_variableAt found).symm.trans owner)

/-- Parameters are owned by a block that was not taken. -/
theorem FunctionDecl.Tidy.freshOwner {symbols : SymbolTable} {taken : List BlockId}
    {f : FunctionDecl} (tidy : f.Tidy symbols taken) :
    ∃ b, (∀ v ∈ f.params, symbols.owner? v = some b) ∧ b ∉ taken := by
  obtain ⟨b, owned, place⟩ := tidy.params
  refine ⟨b, owned, ?_⟩
  rcases place with same | ⟨_, free⟩
  · exact same ▸ tidy.fresh _ List.mem_cons_self
  · exact free

theorem declaration_block_mem (body : List Stmt) :
    ∀ id, ∀ d ∈ Stmt.declarationsOf id body, d.1 ∈ id :: Stmt.blockIdsOf body := by
  induction body using Stmt.body_induction with
  | nil => simp [Stmt.declarationsOf]
  | cons s rest inner ih =>
    intro id d member
    simp only [Stmt.declarationsOf, List.mem_append] at member
    simp only [Stmt.blockIdsOf, List.mem_cons, List.mem_append]
    rcases member with here | later
    · rcases s.shape with ⟨vars, rfl⟩ | ⟨child, body, nests⟩ | flat
      · obtain ⟨v, _, rfl⟩ := List.mem_map.mp here
        exact Or.inl rfl
      · rw [nests.declarations] at here
        rw [nests.blockIds]
        exact Or.inr (Or.inl (inner child body nests child d here))
      · simp [flat.declarations] at here
    · rcases List.mem_cons.mp (ih id d later) with same | deeper
      · exact Or.inl same
      · exact Or.inr (Or.inr deeper)

theorem scope_mem_scopesOf (scope : List VarId) (body : List Stmt) :
    scope ∈ Stmt.scopesOf scope body := by
  cases body <;> simp [Stmt.scopesOf]

/-- A declared variable is in scope somewhere, at the end of its block at the latest. -/
theorem declared_in_scope (body : List Stmt) :
    ∀ id scope, ∀ d ∈ Stmt.declarationsOf id body, ∃ inside ∈ Stmt.scopesOf scope body,
      d.2 ∈ inside := by
  induction body using Stmt.body_induction with
  | nil => simp [Stmt.declarationsOf]
  | cons s rest inner ih =>
    intro id scope d member
    simp only [Stmt.declarationsOf, List.mem_append] at member
    simp only [Stmt.scopesOf, List.mem_cons, List.mem_append]
    rcases member with here | later
    · rcases s.shape with ⟨vars, rfl⟩ | ⟨child, body, nests⟩ | flat
      · obtain ⟨v, declared, rfl⟩ := List.mem_map.mp here
        exact ⟨_, Or.inr (Or.inr (scope_mem_scopesOf _ rest)), List.mem_append_right _ declared⟩
      · rw [nests.declarations] at here
        obtain ⟨inside, point, known⟩ := inner child body nests child scope d here
        exact ⟨inside, Or.inr (Or.inl (by rwa [nests.scopes])), known⟩
      · simp [flat.declarations] at here
    · obtain ⟨inside, point, known⟩ := ih id (scope ++ s.declared) d later
      exact ⟨inside, Or.inr (Or.inr point), known⟩

theorem variable_in_scope {f : FunctionDecl} {v : VarId} (member : v ∈ f.vars) :
    ∃ scope ∈ f.scopes, v ∈ scope := by
  rcases List.mem_append.mp member with param | declared
  · exact ⟨f.params, scope_mem_scopesOf _ _, param⟩
  · obtain ⟨d, inside, rfl⟩ := List.mem_map.mp declared
    exact declared_in_scope f.body.body f.body.id f.params d inside

end Ia32Backend
