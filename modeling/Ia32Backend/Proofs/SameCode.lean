import Ia32Backend.Proofs.Inline

/-!
What code depends on. Two environments that know the same symbols and string labels and place the
variables of an expression or a body alike give it the same code. Names in the runtime matter only
where a return stands directly in the body of the entry function.
-/
namespace Ia32Backend

/-- Environments that differ in nothing that code for some variables is written from. -/
structure Env.SameFor (names : List VarId) (env other : Env) : Prop where
  symbols : env.symbols = other.symbols
  strings : env.strings = other.strings
  places : ∀ v ∈ names, env.place v = other.place v

section
variable {env other : Env} {names more : List VarId}

theorem Env.SameFor.mono (same : env.SameFor more other) (subset : names ⊆ more) :
    env.SameFor names other :=
  ⟨same.symbols, same.strings, fun v member => same.places v (subset member)⟩

theorem literal_same (same : env.SameFor names other) (node : NodeId) (x : Literal) :
    env.literal node x = other.literal node x := by
  cases x with
  | bool value => cases value <;> rfl
  | string text => simp only [Env.literal, same.strings]
  | _ => rfl

theorem expr_same (e : Expr) : env.SameFor e.names other → e.code env = e.code other := by
  induction e using Expr.args_induction with
  | ident ty v =>
    intro same
    simp only [Expr.code, same.places v List.mem_cons_self]
  | lit ty node x =>
    intro same
    simp only [Expr.code, literal_same same]
  | assign ty target value ih =>
    intro same
    have inner := ih (same.mono (List.subset_cons_self target value.names))
    simp only [Expr.code, same.places target List.mem_cons_self, inner]
  | unary ty op operand ih =>
    intro same
    have inner := ih same
    cases op with
    | not => simp only [Expr.code, inner]
    | negate => simp only [Expr.code, inner]
    | addressOf =>
      cases operand with
      | ident kind v => simp only [Expr.code, same.places v List.mem_cons_self]
      | _ => rfl
  | binary ty op left right ihLeft ihRight =>
    intro same
    rw [Expr.names_binary] at same
    have first := ihLeft (same.mono (List.subset_append_left _ _))
    have second := ihRight (same.mono (List.subset_append_right _ _))
    simp only [Expr.code, first, second]
  | call ty callee args ih =>
    intro same
    rw [Expr.names_call] at same
    have pushed : Expr.pushArgs env args = Expr.pushArgs other args := by
      induction args with
      | nil => rfl
      | cons arg rest step =>
        rw [List.flatMap_cons] at same
        have here := ih arg List.mem_cons_self (same.mono (List.subset_append_left _ _))
        have there := step (fun e member => ih e (List.mem_cons_of_mem arg member))
          (same.mono (List.subset_append_right _ _))
        simp only [Expr.pushArgs, here, there]
    simp only [Expr.code, pushed, same.symbols]

theorem returnValue_same {value : Option Expr}
    (same : env.SameFor (value.toList.flatMap Expr.names) other) :
    returnValue env value = returnValue other value := by
  cases value with
  | none => rfl
  | some e =>
    rw [Option.toList, List.flatMap_cons] at same
    simp only [returnValue, expr_same e (same.mono (List.subset_append_left _ _))]

theorem stepCode_same {step : Option Expr}
    (same : env.SameFor (step.toList.flatMap Expr.names) other) :
    stepCode env step = stepCode other step := by
  cases step with
  | none => rfl
  | some e =>
    rw [Option.toList, List.flatMap_cons] at same
    simp only [stepCode, expr_same e (same.mono (List.subset_append_left _ _))]

theorem codeAll_same (body : List Stmt) : ∀ scope direct l,
    env.SameFor (usedNames (Stmt.usesOf scope body)) other →
      env.pauseWhen direct = other.pauseWhen direct →
      Stmt.codeAll env direct l body = Stmt.codeAll other direct l body := by
  induction body using Stmt.body_induction with
  | nil => exact fun _ _ _ _ _ => rfl
  | cons s rest inner ih =>
    intro scope direct l same paused
    simp only [Stmt.usesOf, usedNames, List.flatMap_append] at same
    have own := same.mono (List.subset_append_left _ _)
    have later := fun mid => ih _ direct mid (same.mono (List.subset_append_right _ _)) paused
    suffices here : s.code env direct l = s.code other direct l by
      simp only [Stmt.codeAll, here, later]
    -- No return inside a nested block pauses, so nothing is asked of the configuration there.
    cases s with
    | function decl => rfl
    | declare vars => rfl
    | block b =>
      obtain ⟨id, body⟩ := b
      exact inner id body (.block id body) scope false l own rfl
    | ifThen test b =>
      obtain ⟨id, body⟩ := b
      simp only [Stmt.uses, List.flatMap_cons] at own
      have tested := expr_same test (own.mono (List.subset_append_left _ _))
      have nested := inner id body (.ifThen test id body) scope false l.drawIf
        (own.mono (List.subset_append_right _ _)) rfl
      simp only [Stmt.code, tested, nested]
    | whileLoop test b =>
      obtain ⟨id, body⟩ := b
      simp only [Stmt.uses, List.flatMap_cons] at own
      have tested := expr_same test (own.mono (List.subset_append_left _ _))
      have nested := inner id body (.whileLoop test id body) scope false l.drawWhile
        (own.mono (List.subset_append_right _ _)) rfl
      simp only [Stmt.code, tested, nested]
    | forLoop init test step b =>
      obtain ⟨id, body⟩ := b
      simp only [Stmt.uses, List.flatMap_cons, List.flatMap_append, List.flatMap_map] at own
      have behind := own.mono (List.subset_append_right _ _)
      have last := behind.mono (List.subset_append_right _ _)
      have initial := expr_same init (own.mono (List.subset_append_left _ _))
      have tested := expr_same test (behind.mono (List.subset_append_left _ _))
      have stepped := stepCode_same (last.mono (List.subset_append_left _ _))
      have nested := inner id body (.forLoop init test step id body) scope false l.drawFor
        (last.mono (List.subset_append_right _ _)) rfl
      simp only [Stmt.code, initial, tested, nested, stepped]
    | ret value =>
      simp only [Stmt.uses, List.flatMap_map] at own
      simp only [Stmt.code, returnValue_same own, paused]
    | eval e =>
      simp only [Stmt.uses, List.flatMap_cons] at own
      simp only [Stmt.code, expr_same e (own.mono (List.subset_append_left _ _))]

theorem copyParams_same (params : List VarId) : ∀ index, env.SameFor params other →
    copyParams env index params = copyParams other index params := by
  induction params with
  | nil => exact fun _ _ => rfl
  | cons v rest ih =>
    intro index same
    have later := ih (index + 1) (same.mono (List.subset_cons_self v rest))
    simp only [copyParams, same.places v List.mem_cons_self, later]

end

end Ia32Backend
