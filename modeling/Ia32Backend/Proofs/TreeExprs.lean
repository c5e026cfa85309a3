import Ia32Backend.Proofs.FirstFault

/-!
The expressions of a tree wherever they stand, those of nested functions included, and trees in
which every expression is exchanged for another. In an accepted unit every expression has code, and
to exchange expressions for others with the same code changes nothing.
-/
namespace Ia32Backend

mutual

/-- Expressions that stand in a statement. -/
def Stmt.exprs : Stmt → List Expr
  | .function ⟨_, _, ⟨_, body⟩⟩ => Stmt.exprsOf body
  | .declare _ => []
  | .block ⟨_, body⟩ => Stmt.exprsOf body
  | .ifThen test ⟨_, body⟩ => test :: Stmt.exprsOf body
  | .whileLoop test ⟨_, body⟩ => test :: Stmt.exprsOf body
  | .forLoop init test step ⟨_, body⟩ => init :: test :: (step.toList ++ Stmt.exprsOf body)
  | .ret value => value.toList
  | .eval e => [e]
termination_by structural s => s

def Stmt.exprsOf : List Stmt → List Expr
  | [] => []
  | s :: rest => s.exprs ++ Stmt.exprsOf rest
termination_by structural body => body

end

theorem Stmt.exprsOf_eq (body : List Stmt) : exprsOf body = body.flatMap exprs := by
  induction body with
  | nil => rfl
  | cons s rest ih => rw [exprsOf, ih, List.flatMap_cons]

mutual

/-- The statement with every expression exchanged. -/
def Stmt.mapExprs (h : Expr → Expr) : Stmt → Stmt
  | .function ⟨symbol, params, ⟨id, body⟩⟩ =>
      .function ⟨symbol, params, ⟨id, Stmt.mapExprsOf h body⟩⟩
  | .declare vars => .declare vars
  | .block ⟨id, body⟩ => .block ⟨id, Stmt.mapExprsOf h body⟩
  | .ifThen test ⟨id, body⟩ => .ifThen (h test) ⟨id, Stmt.mapExprsOf h body⟩
  | .whileLoop test ⟨id, body⟩ => .whileLoop (h test) ⟨id, Stmt.mapExprsOf h body⟩
  | .forLoop init test step ⟨id, body⟩ =>
      .forLoop (h init) (h test) (step.map h) ⟨id, Stmt.mapExprsOf h body⟩
  | .ret value => .ret (value.map h)
  | .eval e => .eval (h e)
termination_by structural s => s

def Stmt.mapExprsOf (h : Expr → Expr) : List Stmt → List Stmt
  | [] => []
  | s :: rest => s.mapExprs h :: Stmt.mapExprsOf h rest
termination_by structural body => body

end

namespace Program

def exprs (p : Program) : List Expr := Stmt.exprsOf p.body

/-- Expressions of a program, with everything inside them. -/
def parts (p : Program) : List Expr := p.exprs.flatMap Expr.parts

def mapExprs (h : Expr → Expr) (p : Program) : Program := ⟨Stmt.mapExprsOf h p.body⟩

end Program

/-! Code. -/

theorem args_have_code {env : Env} {args : List Expr} {pushed : List Instr}
    (each : ∀ arg ∈ args, ∀ c, arg.code env = .ok c → ∀ x ∈ arg.parts, ∃ d, x.code env = .ok d)
    (ok : Expr.pushArgs env args = .ok pushed) :
    ∀ x ∈ Expr.partsOf args, ∃ d, x.code env = .ok d := by
  induction args generalizing pushed with
  | nil => exact fun _ member => (List.not_mem_nil member).elim
  | cons arg rest ih =>
    obtain ⟨later, v, ahead, here, _⟩ := Expr.pushArgs_cons_ok ok
    obtain ⟨first, others⟩ := List.forall_mem_cons.mp each
    exact List.forall_mem_append.mpr ⟨first v here, ih others ahead⟩

theorem Expr.parts_have_code {env : Env} (e : Expr) :
    ∀ c, e.code env = .ok c → ∀ x ∈ e.parts, ∃ d, x.code env = .ok d := by
  induction e using Expr.args_induction with
  | ident ty v =>
    intro c ok x member
    cases List.mem_singleton.mp member
    exact ⟨c, ok⟩
  | lit ty node x =>
    intro c ok y member
    cases List.mem_singleton.mp member
    exact ⟨c, ok⟩
  | assign ty target value ih =>
    intro c ok
    obtain ⟨_, v, _, inner, _⟩ := code_assign_ok ok
    exact List.forall_mem_cons.mpr ⟨⟨c, ok⟩, ih v inner⟩
  | unary ty op operand ih =>
    intro c ok
    refine List.forall_mem_cons.mpr ⟨⟨c, ok⟩, ?_⟩
    cases op with
    | not =>
      obtain ⟨v, inner, _⟩ := code_not_ok ok
      exact ih v inner
    | negate =>
      obtain ⟨v, inner, _⟩ := code_negate_ok ok
      exact ih v inner
    | addressOf =>
      obtain ⟨kind, v, p, rfl, place, _⟩ := code_addressOf_ok ok
      exact ih p.load (by simp only [code, place, bind, Except.bind, pure, Except.pure])
  | binary ty op left right first second =>
    intro c ok
    obtain ⟨_, l, r, _, codeL, codeR, _⟩ := code_binary_ok ok
    exact List.forall_mem_cons.mpr ⟨⟨c, ok⟩, List.forall_mem_append.mpr
      ⟨first l codeL, second r codeR⟩⟩
  | call ty callee args each =>
    intro c ok
    obtain ⟨_, pushed, _, inner, _⟩ := code_call_ok ok
    exact List.forall_mem_cons.mpr ⟨⟨c, ok⟩, args_have_code each inner⟩

theorem optional_has_code {env : Env} {code : List Instr} {e : Option Expr} {x : Expr}
    (ok : returnValue env e = .ok code ∨ stepCode env e = .ok code) (member : x ∈ e.toList) :
    ∃ c, x.code env = .ok c := by
  cases e with
  | none => cases member
  | some e =>
    cases List.mem_singleton.mp member
    rcases ok with returned | stepped
    · obtain ⟨v, inner, _⟩ := returnValue_some_ok returned
      exact ⟨v, inner⟩
    · obtain ⟨v, inner, _⟩ := stepCode_some_ok stepped
      exact ⟨v, inner⟩

theorem Stmt.exprs_have_code {env : Env} (body : List Stmt) : ∀ direct l code last,
    codeAll env direct l body = .ok (code, last) → ∀ e ∈ exprsOf body, ∃ c, e.code env = .ok c := by
  induction body using Stmt.body_induction with
  | nil => exact fun _ _ _ _ _ _ member => (List.not_mem_nil member).elim
  | cons s rest inner ih =>
    intro direct l code last ok
    obtain ⟨first, mid, later, here, ahead, _⟩ := codeAll_cons_ok ok
    refine List.forall_mem_append.mpr ⟨?_, ih direct mid later last ahead⟩
    cases s with
    | function decl => exact (throw_ne_ok here).elim
    | declare vars => exact fun _ member => (List.not_mem_nil member).elim
    | block b =>
      obtain ⟨id, body⟩ := b
      exact inner id body (.block id body) false l first mid here
    | ifThen test b =>
      obtain ⟨id, body⟩ := b
      obtain ⟨t, nested, tested, inside, _⟩ := code_ifThen_ok here
      exact List.forall_mem_cons.mpr ⟨⟨t, tested⟩,
        inner id body (.ifThen test id body) _ _ _ _ inside⟩
    | whileLoop test b =>
      obtain ⟨id, body⟩ := b
      obtain ⟨t, nested, tested, inside, _⟩ := code_whileLoop_ok here
      exact List.forall_mem_cons.mpr ⟨⟨t, tested⟩,
        inner id body (.whileLoop test id body) _ _ _ _ inside⟩
    | forLoop init test step b =>
      obtain ⟨id, body⟩ := b
      obtain ⟨i, t, nested, next, initial, tested, inside, stepped, _⟩ := code_forLoop_ok here
      refine List.forall_mem_cons.mpr ⟨⟨i, initial⟩, List.forall_mem_cons.mpr ⟨⟨t, tested⟩, ?_⟩⟩
      exact List.forall_mem_append.mpr ⟨fun e member => optional_has_code (.inr stepped) member,
        inner id body (.forLoop init test step id body) _ _ _ _ inside⟩
    | ret value =>
      obtain ⟨v, p, returned, _, _, _⟩ := code_ret_ok here
      exact fun e member => optional_has_code (.inl returned) member
    | eval e =>
      obtain ⟨c, evaluated, _, _⟩ := code_eval_ok here
      intro x member
      cases List.mem_singleton.mp member
      exact ⟨c, evaluated⟩

theorem functions_have_code {body : List Stmt} : ∀ {env : Env} {l : Labels}
    {codes : List (List Instr)}, functionsCode env l body = .ok codes →
      ∀ e ∈ Stmt.exprsOf body, ∃ env c, e.code env = .ok c := by
  induction body with
  | nil => exact fun _ _ member => (List.not_mem_nil member).elim
  | cons s rest ih =>
    intro env l codes ok
    obtain ⟨⟨symbol, params, ⟨id, body⟩⟩, first, later, rfl, here, ahead, _⟩ :=
      functionsCode_cons_ok ok
    obtain ⟨_, layout, _, code, _, _, _, inside, _, _⟩ := FunctionDecl.code_ok here
    exact List.forall_mem_append.mpr ⟨fun e member =>
      ⟨_, Stmt.exprs_have_code body _ _ _ _ inside e member⟩, ih ahead⟩

/-- In an accepted program every expression has code, and so has everything inside it. -/
theorem Program.parts_have_code {symbols : SymbolTable} {config : Config} {p : Program}
    {u : UnitCode} (accepted : p.code symbols config = .ok u) :
    ∀ x ∈ p.parts, ∃ env c, x.code env = .ok c := by
  obtain ⟨_, _, functions, _⟩ := Program.code_ok accepted
  intro x member
  obtain ⟨e, stands, inside⟩ := List.mem_flatMap.mp member
  obtain ⟨env, c, ok⟩ := functions_have_code functions e stands
  obtain ⟨d, ok⟩ := e.parts_have_code c ok x inside
  exact ⟨env, d, ok⟩

/-! Exchanged expressions. -/

section
variable {h : Expr → Expr}

theorem Stmt.mapExprsOf_eq (h : Expr → Expr) (body : List Stmt) :
    mapExprsOf h body = body.map (mapExprs h) := by
  induction body with
  | nil => rfl
  | cons s rest ih => rw [mapExprsOf, ih, List.map_cons]

theorem Stmt.isReturn_mapExprs (h : Expr → Expr) (s : Stmt) :
    (s.mapExprs h).isReturn = s.isReturn := by
  rcases s.shape with ⟨vars, rfl⟩ | ⟨id, body, nests⟩ | flat
  · rfl
  · cases nests <;> rfl
  · cases s with
    | function decl =>
      obtain ⟨symbol, params, ⟨id, body⟩⟩ := decl
      rfl
    | ret value => rfl
    | eval e => rfl
    | _ => exact flat.elim

theorem endsInReturn_mapExprs (h : Expr → Expr) (body : List Stmt) :
    endsInReturn (Stmt.mapExprsOf h body) = endsInReturn body := by
  have each : (fun s => (Stmt.mapExprs h s).isReturn) = Stmt.isReturn :=
    funext (Stmt.isReturn_mapExprs h)
  rw [Stmt.mapExprsOf_eq, endsInReturn, List.getLast?_map, Option.any_map, each]
  rfl

theorem Stmt.nests_mapExprs {s : Stmt} {id : BlockId} {body : List Stmt} (nests : s.Nests id body) :
    (s.mapExprs h).Nests id (mapExprsOf h body) := by
  cases nests <;> constructor

theorem addBody_mapExprs (symbols : SymbolTable) (body : List Stmt) : ∀ id l,
    Layout.addBody symbols id l (Stmt.mapExprsOf h body) = Layout.addBody symbols id l body := by
  induction body using Stmt.body_induction with
  | nil => exact fun _ _ => rfl
  | cons s rest inner ih =>
    intro id l
    suffices here : Layout.addStmt symbols id l (s.mapExprs h) = Layout.addStmt symbols id l s by
      simp only [Stmt.mapExprsOf, Layout.addBody, here, ih]
    rcases s.shape with ⟨vars, rfl⟩ | ⟨child, body, nests⟩ | flat
    · rfl
    · rw [Layout.addStmt_nested (Stmt.nests_mapExprs nests), Layout.addStmt_nested nests]
      exact inner child body nests child _
    · cases s with
      | function decl =>
        obtain ⟨symbol, params, ⟨id, body⟩⟩ := decl
        rfl
      | ret value => rfl
      | eval e => rfl
      | _ => exact flat.elim

variable (keeps : ∀ env e, (h e).code env = e.code env)
include keeps

theorem optional_mapExprs (env : Env) (e : Option Expr) :
    returnValue env (e.map h) = returnValue env e ∧ stepCode env (e.map h) = stepCode env e := by
  cases e with
  | none => exact ⟨rfl, rfl⟩
  | some e => simp only [Option.map_some, returnValue, stepCode, keeps, and_self]

theorem codeAll_mapExprs (env : Env) (body : List Stmt) : ∀ direct l,
    Stmt.codeAll env direct l (Stmt.mapExprsOf h body) = Stmt.codeAll env direct l body := by
  induction body using Stmt.body_induction with
  | nil => exact fun _ _ => rfl
  | cons s rest inner ih =>
    intro direct l
    suffices here : (s.mapExprs h).code env direct l = s.code env direct l by
      simp only [Stmt.mapExprsOf, Stmt.codeAll, here, ih]
    cases s with
    | function decl =>
      obtain ⟨symbol, params, ⟨id, body⟩⟩ := decl
      rfl
    | declare vars => rfl
    | block b =>
      obtain ⟨id, body⟩ := b
      exact inner id body (.block id body) false l
    | ifThen test b =>
      obtain ⟨id, body⟩ := b
      simp only [Stmt.mapExprs, Stmt.code, keeps, inner id body (.ifThen test id body)]
    | whileLoop test b =>
      obtain ⟨id, body⟩ := b
      simp only [Stmt.mapExprs, Stmt.code, keeps, inner id body (.whileLoop test id body)]
    | forLoop init test step b =>
      obtain ⟨id, body⟩ := b
      simp only [Stmt.mapExprs, Stmt.code, keeps, (optional_mapExprs keeps env step).2,
        inner id body (.forLoop init test step id body)]
    | ret value => simp only [Stmt.mapExprs, Stmt.code, (optional_mapExprs keeps env value).1]
    | eval e => simp only [Stmt.mapExprs, Stmt.code, keeps]

theorem functionsCode_mapExprs (body : List Stmt) : ∀ env l,
    functionsCode env l (Stmt.mapExprsOf h body) = functionsCode env l body := by
  induction body with
  | nil => exact fun _ _ => rfl
  | cons s rest ih =>
    intro env l
    cases s with
    | function f =>
      obtain ⟨symbol, params, ⟨id, body⟩⟩ := f
      simp only [Stmt.mapExprsOf, Stmt.mapExprs, functionsCode, FunctionDecl.code,
        Layout.ofFunction, addBody_mapExprs, codeAll_mapExprs keeps, endsInReturn_mapExprs, ih]
    | block b =>
      obtain ⟨id, body⟩ := b
      rfl
    | ifThen test b =>
      obtain ⟨id, body⟩ := b
      rfl
    | whileLoop test b =>
      obtain ⟨id, body⟩ := b
      rfl
    | forLoop init test step b =>
      obtain ⟨id, body⟩ := b
      rfl
    | _ => rfl

theorem Program.assembly_mapExprs (symbols : SymbolTable) (config : Config) (p : Program) :
    (p.mapExprs h).assembly symbols config = p.assembly symbols config := by
  simp only [assembly, code, mapExprs, functionsCode_mapExprs keeps]

end

end Ia32Backend
