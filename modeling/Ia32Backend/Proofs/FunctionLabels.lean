import Ia32Backend.Proofs.BranchLabels

/-!
Labels of a function's code. It opens with the function's own label, all others are branch labels
that it draws itself, its addresses are those of pooled strings, and its last instructions return.
-/
namespace Ia32Backend

theorem straight_append {a b : List Instr} (first : Straight a) (second : Straight b) :
    Straight (a ++ b) :=
  ⟨by simp [first.labels, second.labels], by simp [first.targets, second.targets]⟩

/-- Code that takes the addresses of pooled strings alone. -/
def TakesPooled (pool : StringPool) (code : List Instr) : Prop :=
  ∀ name ∈ addressesOf code, pool.Pooled name

theorem takesPooled_append {pool : StringPool} {a b : List Instr} (first : TakesPooled pool a)
    (second : TakesPooled pool b) : TakesPooled pool (a ++ b) := by
  intro name member
  rw [addressesOf_append, List.mem_append] at member
  exact member.elim (first name) (second name)

theorem takesPooled_of_none {pool : StringPool} {code : List Instr}
    (none : addressesOf code = []) : TakesPooled pool code := by
  intro name member
  rw [none] at member
  exact (List.not_mem_nil member).elim

theorem Instr.Bodily.pooled {env : Env} {names : List VarId} {i : Instr}
    (bodily : i.Bodily env names) : ∀ name ∈ i.addresses, env.strings.Pooled name := by
  cases bodily with
  | inline inline => exact inline.pooled
  | @pauseText label pooled =>
    intro name member
    rw [List.mem_singleton.mp (show name ∈ [label] from member)]
    exact Or.inr pooled
  | _ => exact fun _ member => (List.not_mem_nil member).elim

theorem takesPooled_of_bodyCode {env : Env} {names : List VarId} {code : List Instr}
    (body : BodyCode env names code) : TakesPooled env.strings code := by
  intro name member
  obtain ⟨i, inside, taken⟩ := List.mem_flatMap.mp member
  exact (body i inside).pooled name taken

section
variable {env : Env}

theorem expr_straight {e : Expr} {c : ValueCode} (ok : e.code env = .ok c) (w : Width) :
    Straight c.code ∧ Straight (c.at w) := by
  have inlined := e.inlined_code env c ok
  exact ⟨straight_of_inlined inlined, straight_of_inlined (inlined_at inlined w)⟩

theorem returnValue_straight {value : Option Expr} {code : List Instr}
    (ok : returnValue env value = .ok code) : Straight code := by
  cases value with
  | none =>
    cases pure_eq_ok.mp ok
    exact ⟨rfl, rfl⟩
  | some e =>
    obtain ⟨v, inner, rfl⟩ := returnValue_some_ok ok
    exact (expr_straight inner .long).2

theorem stepCode_straight {step : Option Expr} {code : List Instr}
    (ok : stepCode env step = .ok code) : Straight code := by
  cases step with
  | none =>
    cases pure_eq_ok.mp ok
    exact ⟨rfl, rfl⟩
  | some e =>
    obtain ⟨v, inner, rfl⟩ := stepCode_some_ok ok
    exact (expr_straight inner .long).1

theorem pauseWhen_straight {direct : Bool} {code : List Instr}
    (ok : env.pauseWhen direct = .ok code) : Straight code := by
  cases direct with
  | false =>
    cases pure_eq_ok.mp ok
    exact ⟨rfl, rfl⟩
  | true =>
    obtain ⟨label, _, rfl⟩ := Env.pause_ok ok
    exact ⟨rfl, rfl⟩

end

theorem Stmt.branches_codeAll (env : Env) (body : List Stmt) :
    ∀ direct l code last, codeAll env direct l body = .ok (code, last) →
      Branches l last code := by
  induction body using Stmt.body_induction with
  | nil =>
    intro direct l code last ok
    cases pure_eq_ok.mp ok
    exact branches_straight l ⟨rfl, rfl⟩
  | cons s rest inner ih =>
    intro direct l code last ok
    obtain ⟨first, mid, later, here, ahead, rfl⟩ := codeAll_cons_ok ok
    refine branches_append ?_ (ih direct mid later last ahead)
    cases s with
    | function decl => exact (throw_ne_ok here).elim
    | declare vars =>
      cases pure_eq_ok.mp here
      exact branches_straight l ⟨rfl, rfl⟩
    | block b =>
      obtain ⟨id, body⟩ := b
      exact inner id body (.block id body) false l first mid here
    | ifThen test b =>
      obtain ⟨id, body⟩ := b
      obtain ⟨t, nested, tested, inside, rfl⟩ := code_ifThen_ok here
      exact branches_ifCode (expr_straight tested .long).1
        (inner id body (.ifThen test id body) _ _ _ _ inside)
    | whileLoop test b =>
      obtain ⟨id, body⟩ := b
      obtain ⟨t, nested, tested, inside, rfl⟩ := code_whileLoop_ok here
      exact branches_whileLoop (expr_straight tested .long).1
        (inner id body (.whileLoop test id body) _ _ _ _ inside)
    | forLoop init test step b =>
      obtain ⟨id, body⟩ := b
      obtain ⟨i, t, nested, stepped, initial, tested, inside, next, rfl⟩ := code_forLoop_ok here
      exact branches_append (branches_straight l (expr_straight initial .long).1)
        (branches_forLoop (expr_straight tested .long).1 (stepCode_straight next)
          (inner id body (.forLoop init test step id body) _ _ _ _ inside))
    | ret value =>
      obtain ⟨v, p, returned, paused, rfl, rfl⟩ := code_ret_ok here
      exact branches_straight mid (straight_append (straight_append
        (returnValue_straight returned) (pauseWhen_straight paused)) ⟨rfl, rfl⟩)
    | eval e =>
      obtain ⟨c, evaluated, rfl, rfl⟩ := code_eval_ok here
      exact branches_straight mid (expr_straight evaluated .long).1

theorem Stmt.epilogue_suffix {env : Env} {direct : Bool} {body : List Stmt} :
    ∀ {l code last}, codeAll env direct l body = .ok (code, last) → endsInReturn body = true →
      epilogue <:+ code := by
  induction body with
  | nil =>
    intro l code last _ ends
    simp [endsInReturn] at ends
  | cons s rest ih =>
    intro l code last ok ends
    obtain ⟨first, mid, later, here, ahead, rfl⟩ := codeAll_cons_ok ok
    cases rest with
    | cons next more =>
      have suffix := ih ahead (by simpa [endsInReturn] using ends)
      exact suffix.trans (List.suffix_append first later)
    | nil =>
      cases pure_eq_ok.mp ahead
      rw [List.append_nil]
      cases s with
      | ret value =>
        obtain ⟨v, p, _, _, rfl, _⟩ := code_ret_ok here
        exact List.suffix_append _ _
      | _ => simp [endsInReturn, isReturn] at ends

/-- The label of a declared function. -/
def FunctionDecl.label? (symbols : SymbolTable) (f : FunctionDecl) : Option String :=
  symbols.functions[f.symbol.index]?.map FunctionSymbol.label

/-- Labels of the functions that a unit declares. -/
def Program.labels (symbols : SymbolTable) (p : Program) : List String :=
  p.functions.filterMap (FunctionDecl.label? symbols)

theorem label_of_functionAt {symbols : SymbolTable} {f : FunctionDecl} {s : FunctionSymbol}
    (found : symbols.functionAt f.symbol = .ok s) : f.label? symbols = some s.label := by
  rw [FunctionDecl.label?, SymbolTable.functionAt_eq_ok.mp found, Option.map_some]

theorem copyParams_straight {env : Env} {params : List VarId} :
    ∀ {index code}, copyParams env index params = .ok code →
      Straight code ∧ TakesPooled env.strings code := by
  induction params with
  | nil =>
    intro index code ok
    cases pure_eq_ok.mp ok
    exact ⟨⟨rfl, rfl⟩, takesPooled_of_none rfl⟩
  | cons v rest ih =>
    intro index code ok
    obtain ⟨p, later, place, ahead, rfl⟩ := copyParams_cons_ok ok
    obtain ⟨straight, texts⟩ := ih ahead
    refine ⟨straight_append ⟨rfl, rfl⟩ straight, takesPooled_append (takesPooled_of_none ?_) texts⟩
    simp [addressesOf, Instr.addresses, Instr.operands, Env.place_label place]

/-- A function's code: its own label first, branches inside it, and a return at the end. -/
structure FunctionLabels (pool : StringPool) (l last : Labels) (label : String)
    (code : List Instr) : Prop where
  labels : ∃ inner, Branches l last inner ∧ labelsOf code = label :: labelsOf inner ∧
    targetsOf code = targetsOf inner
  first : ∃ rest, code = .label label :: rest
  pooled : TakesPooled pool code
  ends : epilogue <:+ code

theorem FunctionDecl.labels_code {env : Env} {l : Labels} {f : FunctionDecl} {c : FunctionCode}
    (ok : f.code env l = .ok c) :
    ∃ label, f.label? env.symbols = some label ∧
      FunctionLabels env.strings l c.labels label c.code := by
  obtain ⟨symbol, layout, copies, body, found, _, copied, inner, _, code⟩ := code_ok ok
  have branches := Stmt.branches_codeAll _ _ _ _ _ _ inner
  have texts := takesPooled_of_bodyCode (Stmt.bodyCode_codeAll _ _ _ [] _ _ _ _
    (List.Subset.refl _) inner)
  obtain ⟨straight, copyTexts⟩ := copyParams_straight copied
  refine ⟨symbol.label, label_of_functionAt found, ?_⟩
  have opens : Straight (prologue symbol.label layout.reserved).tail ∧
      addressesOf (prologue symbol.label layout.reserved) = [] := by
    unfold prologue
    split <;> exact ⟨⟨rfl, rfl⟩, rfl⟩
  have starts : Straight (symbol.startCall env.config) ∧
      addressesOf (symbol.startCall env.config) = [] := by
    unfold FunctionSymbol.startCall
    split <;> exact ⟨⟨rfl, rfl⟩, rfl⟩
  have closes : Straight (closing f.body.body) ∧ addressesOf (closing f.body.body) = [] := by
    unfold closing
    split <;> exact ⟨⟨rfl, rfl⟩, rfl⟩
  have head : prologue symbol.label layout.reserved =
      .label symbol.label :: (prologue symbol.label layout.reserved).tail := rfl
  rw [code]
  refine ⟨⟨body, branches, ?_, ?_⟩, ?_, ?_, ?_⟩
  · rw [head]
    simp [opens.1.labels, starts.1.labels, straight.labels, closes.1.labels]
  · rw [head]
    simp [opens.1.targets, starts.1.targets, straight.targets, closes.1.targets]
  · rw [head]
    exact ⟨_, rfl⟩
  · exact takesPooled_append (takesPooled_append (takesPooled_append (takesPooled_append
      (takesPooled_of_none opens.2) (takesPooled_of_none starts.2)) copyTexts) texts)
      (takesPooled_of_none closes.2)
  · by_cases ends : endsInReturn f.body.body = true
    · rw [closing, if_pos ends, List.append_nil]
      exact (Stmt.epilogue_suffix inner ends).trans (List.suffix_append _ _)
    · rw [closing, if_neg ends]
      exact List.suffix_append _ _

end Ia32Backend
