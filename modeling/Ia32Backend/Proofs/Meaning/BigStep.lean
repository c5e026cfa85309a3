import Ia32Backend.Proofs.Meaning.Unit

/-!
Statements in big steps, where expressions mean what a function says. A test is true of any number
but zero. A loop evaluates its test before each turn and its step behind each body that came to its
end; a return ends whatever is around it.
-/
namespace Ia32Backend

/-- What is run: a statement, the statements of a body, or a loop from its test on. -/
inductive Phrase where
  | stmt (s : Stmt)
  | body (stmts : List Stmt)
  | loop (test : Expr) (stmts : List Stmt) (step : Option Expr)

section
variable {σ : Type} (eval : Expr → σ → Option (Value × σ))

/-- The step of a loop takes a store to the next one. A loop without one leaves it as it is. -/
def Advances (step : Option Expr) (s after : σ) : Prop :=
  match step with
  | none => after = s
  | some e => ∃ x, eval e s = some (x, after)

/-- From a store, a phrase ends in a way and in a store. A returned value is taken as a long. -/
inductive BigStep : Phrase → σ → Flow → σ → Prop where
  | declare (vars : List VarId) (s : σ) : BigStep (.stmt (.declare vars)) s .next s
  | eval {e : Expr} {s after : σ} {x : Value} (value : eval e s = some (x, after)) :
      BigStep (.stmt (.eval e)) s .next after
  | retNone (s : σ) : BigStep (.stmt (.ret none)) s (.returned none) s
  | retSome {e : Expr} {s after : σ} {x : Value} (value : eval e s = some (x, after)) :
      BigStep (.stmt (.ret (some e))) s (.returned (some (x.at .long))) after
  | block {id : BlockId} {stmts : List Stmt} {s after : σ} {flow : Flow}
      (inside : BigStep (.body stmts) s flow after) :
      BigStep (.stmt (.block ⟨id, stmts⟩)) s flow after
  | ifTrue {test : Expr} {id : BlockId} {stmts : List Stmt} {s mid after : σ} {x : Value}
      {flow : Flow} (value : eval test s = some (x, mid)) (holds : x.isTrue = true)
      (inside : BigStep (.body stmts) mid flow after) :
      BigStep (.stmt (.ifThen test ⟨id, stmts⟩)) s flow after
  | ifFalse {test : Expr} {id : BlockId} {stmts : List Stmt} {s after : σ} {x : Value}
      (value : eval test s = some (x, after)) (fails : x.isTrue = false) :
      BigStep (.stmt (.ifThen test ⟨id, stmts⟩)) s .next after
  | whileLoop {test : Expr} {id : BlockId} {stmts : List Stmt} {s after : σ} {flow : Flow}
      (turns : BigStep (.loop test stmts none) s flow after) :
      BigStep (.stmt (.whileLoop test ⟨id, stmts⟩)) s flow after
  | forLoop {init test : Expr} {step : Option Expr} {id : BlockId} {stmts : List Stmt}
      {s mid after : σ} {x : Value} {flow : Flow} (value : eval init s = some (x, mid))
      (turns : BigStep (.loop test stmts step) mid flow after) :
      BigStep (.stmt (.forLoop init test step ⟨id, stmts⟩)) s flow after
  | done {test : Expr} {stmts : List Stmt} {step : Option Expr} {s after : σ} {x : Value}
      (value : eval test s = some (x, after)) (fails : x.isTrue = false) :
      BigStep (.loop test stmts step) s .next after
  | broken {test : Expr} {stmts : List Stmt} {step : Option Expr} {s mid after : σ} {x : Value}
      {word : Option Word} (value : eval test s = some (x, mid)) (holds : x.isTrue = true)
      (inside : BigStep (.body stmts) mid (.returned word) after) :
      BigStep (.loop test stmts step) s (.returned word) after
  | turn {test : Expr} {stmts : List Stmt} {step : Option Expr} {s mid behind next after : σ}
      {x : Value} {flow : Flow} (value : eval test s = some (x, mid)) (holds : x.isTrue = true)
      (inside : BigStep (.body stmts) mid .next behind)
      (advances : Advances eval step behind next)
      (turns : BigStep (.loop test stmts step) next flow after) :
      BigStep (.loop test stmts step) s flow after
  | nil (s : σ) : BigStep (.body []) s .next s
  | cons {first : Stmt} {rest : List Stmt} {s mid after : σ} {flow : Flow}
      (here : BigStep (.stmt first) s .next mid) (ahead : BigStep (.body rest) mid flow after) :
      BigStep (.body (first :: rest)) s flow after
  | leaves {first : Stmt} {rest : List Stmt} {s after : σ} {word : Option Word}
      (here : BigStep (.stmt first) s (.returned word) after) :
      BigStep (.body (first :: rest)) s (.returned word) after

variable {eval} {p : Phrase} {step : Option Expr} {s after last : σ} {flow other : Flow}

theorem advances_unique (one : Advances eval step s after) (two : Advances eval step s last) :
    last = after := by
  cases step with
  | none => exact two.trans one.symm
  | some e =>
    obtain ⟨x, value⟩ := one
    obtain ⟨y, again⟩ := two
    cases value.symm.trans again
    rfl

/-- A phrase ends in one way at most, since an expression has one value at most. -/
theorem bigStep_unique (one : BigStep eval p s flow after) (two : BigStep eval p s other last) :
    other = flow ∧ last = after := by
  induction one generalizing other last with
  | declare vars s => cases two; exact ⟨rfl, rfl⟩
  | eval value =>
    cases two with
    | eval again => cases value.symm.trans again; exact ⟨rfl, rfl⟩
  | retNone s => cases two; exact ⟨rfl, rfl⟩
  | retSome value =>
    cases two with
    | retSome again => cases value.symm.trans again; exact ⟨rfl, rfl⟩
  | block inside ih =>
    cases two with
    | block again => exact ih again
  | ifTrue value holds inside ih =>
    cases two with
    | ifTrue again _ body => cases value.symm.trans again; exact ih body
    | ifFalse again fails => cases value.symm.trans again; cases holds.symm.trans fails
  | ifFalse value fails =>
    cases two with
    | ifTrue again holds _ => cases value.symm.trans again; cases holds.symm.trans fails
    | ifFalse again _ => cases value.symm.trans again; exact ⟨rfl, rfl⟩
  | whileLoop turns ih =>
    cases two with
    | whileLoop again => exact ih again
  | forLoop value turns ih =>
    cases two with
    | forLoop again more => cases value.symm.trans again; exact ih more
  | done value fails =>
    cases two with
    | done again _ => cases value.symm.trans again; exact ⟨rfl, rfl⟩
    | broken again holds _ => cases value.symm.trans again; cases holds.symm.trans fails
    | turn again holds _ _ _ => cases value.symm.trans again; cases holds.symm.trans fails
  | broken value holds inside ih =>
    cases two with
    | done again fails => cases value.symm.trans again; cases holds.symm.trans fails
    | broken again _ body => cases value.symm.trans again; exact ih body
    | turn again _ body _ _ => cases value.symm.trans again; cases (ih body).1
  | turn value holds inside advances turns ih later =>
    cases two with
    | done again fails => cases value.symm.trans again; cases holds.symm.trans fails
    | broken again _ body => cases value.symm.trans again; cases (ih body).1
    | turn again _ body next more =>
      cases value.symm.trans again
      obtain ⟨_, rfl⟩ := ih body
      cases advances_unique advances next
      exact later more
  | nil s => cases two; exact ⟨rfl, rfl⟩
  | cons here ahead ih later =>
    cases two with
    | cons first rest =>
      obtain ⟨_, rfl⟩ := ih first
      exact later rest
    | leaves first => cases (ih first).1
  | leaves here ih =>
    cases two with
    | cons first rest => cases (ih first).1
    | leaves first => exact ih first

end

end Ia32Backend
