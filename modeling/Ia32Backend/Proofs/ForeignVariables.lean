import Ia32Backend.Proofs.Reached

/-!
Variables of other functions. Slots are handed out through the whole unit and never taken back, so a
reference is refused exactly when its variable belongs neither to the function itself nor to one
before it. That a later function declares it does not help.
-/
namespace Ia32Backend

/-- Reads a variable, assigns to it or takes its address. -/
inductive Expr.RefersTo (v : VarId) : Expr → Prop where
  | reads (ty : ValueType) : RefersTo v (.ident ty v)
  | assigns (ty : ValueType) (value : Expr) : RefersTo v (.assign ty v value)
  | addresses (ty inner : ValueType) : RefersTo v (.unary ty .addressOf (.ident inner v))

section
variable {env : Env} {declared : List VarId} {v : VarId} {s : VariableSymbol}

theorem place_foreign (informed : env.Informed declared) (known : env.symbols.variableAt v = .ok s)
    (foreign : v ∉ declared) : env.place v = .error (.noSlot v s.name) := by
  have missing := (informed.slots v s known).mpr foreign
  simp only [Env.place, known, Frames.slotOffset, missing, bind, Except.bind]

theorem Expr.RefersTo.fails {target : Expr} (refers : target.RefersTo v)
    (informed : env.Informed declared) (known : env.symbols.variableAt v = .ok s)
    (foreign : v ∉ declared) : target.code env = .error (.noSlot v s.name) := by
  have place := place_foreign informed known foreign
  cases refers with
  | reads ty => simp only [code, place, bind, Except.bind]
  | assigns ty value => simp only [code, place, bind, Except.bind]
  | addresses ty inner => simp only [code, place, bind, Except.bind]

end

/-! A slot is asked for among all that was declared before. -/

/-- Where the check asks for a slot, the variables declared so far include some. -/
def Check.Sees (declared : List VarId) : Check → Prop
  | .slot all _ => declared ⊆ all
  | _ => True

section
variable {declared more : List VarId}

theorem Check.Sees.mono {c : Check} (sees : c.Sees more) (subset : declared ⊆ more) :
    c.Sees declared := by
  cases c with
  | slot all v => exact List.Subset.trans subset sees
  | _ => trivial

theorem sees_slotChecks (declared : List VarId) (v : VarId) :
    ∀ c ∈ slotChecks declared v, c.Sees declared := by
  simp [slotChecks, Check.Sees]

theorem sees_literal (node : NodeId) (x : Literal) : ∀ c ∈ x.checks node, c.Sees declared := by
  cases x <;> simp [Literal.checks, Check.Sees]

theorem sees_argChecks {args : List Expr}
    (each : ∀ arg ∈ args, ∀ c ∈ arg.checks declared, c.Sees declared) :
    ∀ c ∈ Expr.argChecks declared args, c.Sees declared := by
  induction args with
  | nil => exact fun _ member => (List.not_mem_nil member).elim
  | cons arg rest ih =>
    obtain ⟨first, others⟩ := List.forall_mem_cons.mp each
    exact List.forall_mem_append.mpr ⟨ih others, first⟩

theorem sees_expr (declared : List VarId) (e : Expr) :
    ∀ c ∈ e.checks declared, c.Sees declared := by
  induction e using Expr.args_induction with
  | ident ty v => exact sees_slotChecks declared v
  | lit ty node x => exact sees_literal node x
  | assign ty target value ih =>
    exact List.forall_mem_append.mpr ⟨sees_slotChecks declared target, ih⟩
  | unary ty op operand ih =>
    cases op with
    | not => exact ih
    | negate => exact List.forall_mem_cons.mpr ⟨trivial, ih⟩
    | addressOf =>
      cases operand with
      | ident inner v => exact sees_slotChecks declared v
      | _ => simp [Expr.checks, Check.Sees]
  | binary ty op left right first second =>
    refine List.forall_mem_cons.mpr ⟨trivial, List.forall_mem_cons.mpr ⟨trivial, ?_⟩⟩
    exact List.forall_mem_append.mpr ⟨first, second⟩
  | call ty callee args each => exact List.forall_mem_cons.mpr ⟨trivial, sees_argChecks each⟩

theorem sees_option (declared : List VarId) (e : Option Expr) :
    ∀ c ∈ optionChecks declared e, c.Sees declared := by
  cases e with
  | none => exact fun _ member => (List.not_mem_nil member).elim
  | some e =>
    rw [optionChecks_some]
    exact sees_expr declared e

theorem sees_body (declared : List VarId) (body : List Stmt) :
    ∀ c ∈ Stmt.checksOf declared body, c.Sees declared := by
  induction body using Stmt.body_induction with
  | nil => exact fun _ member => (List.not_mem_nil member).elim
  | cons s rest inner ih =>
    refine List.forall_mem_append.mpr ⟨?_, ih⟩
    cases s with
    | function decl => simp [Stmt.checks, Check.Sees]
    | declare vars => exact fun _ member => (List.not_mem_nil member).elim
    | block b =>
      obtain ⟨id, body⟩ := b
      exact inner id body (.block id body)
    | ifThen test b =>
      obtain ⟨id, body⟩ := b
      exact List.forall_mem_append.mpr ⟨sees_expr declared test,
        inner id body (.ifThen test id body)⟩
    | whileLoop test b =>
      obtain ⟨id, body⟩ := b
      exact List.forall_mem_append.mpr ⟨sees_expr declared test,
        inner id body (.whileLoop test id body)⟩
    | forLoop init test step b =>
      obtain ⟨id, body⟩ := b
      exact List.forall_mem_append.mpr ⟨sees_expr declared init,
        List.forall_mem_append.mpr ⟨sees_expr declared test, List.forall_mem_append.mpr
          ⟨inner id body (.forLoop init test step id body), sees_option declared step⟩⟩⟩
    | ret value => exact sees_option declared value
    | eval e => exact sees_expr declared e

theorem sees_function (declared : List VarId) (f : FunctionDecl) :
    ∀ c ∈ f.checks declared, c.Sees (declared ++ f.vars) := by
  refine List.forall_mem_cons.mpr ⟨trivial, List.forall_mem_append.mpr ⟨?_, sees_body _ _⟩⟩
  simp [Check.Sees]

theorem sees_unit (body : List Stmt) : ∀ declared, ∀ c ∈ unitChecks declared body,
    c.Sees declared := by
  induction body with
  | nil => exact fun _ _ member => (List.not_mem_nil member).elim
  | cons s rest ih =>
    intro declared
    cases s with
    | function f =>
      have wider := List.subset_append_left declared f.vars
      exact List.forall_mem_append.mpr
        ⟨fun c member => (sees_function declared f c member).mono wider,
          fun c member => (ih (declared ++ f.vars) c member).mono wider⟩
    | _ => exact List.forall_mem_cons.mpr ⟨trivial, ih declared⟩

end

/-! Refusal. -/

theorem noSlot_of_fault {symbols : SymbolTable} {checks : List Check} {declared : List VarId}
    {v : VarId} {name : String} (sees : ∀ c ∈ checks, c.Sees declared)
    (fails : firstFault symbols checks = some (.noSlot v name)) : v ∉ declared := by
  obtain ⟨before, check, after, split, _, fault⟩ := firstFault_eq_some.mp fails
  have here := sees check (split ▸ List.mem_append_right before List.mem_cons_self)
  intro member
  cases check with
  | slot all w =>
    have missing : w ∉ all := by
      intro inside
      simp [Check.fault, inside] at fault
    simp only [Check.fault, missing, if_false, Option.map_eq_some_iff] at fault
    obtain ⟨s, _, same⟩ := fault
    cases same
    exact missing (here member)
  | noAddress => cases fault
  | misplaced kind place => cases fault
  | _ =>
    simp only [Check.fault] at fault
    split at fault <;> cases fault

/-- From the function on that a reference stands in, its variables and earlier ones have slots. -/
theorem slot_of_reachesIn {target : Expr} {f : FunctionDecl} {v : VarId} {name : String} {env : Env}
    {l : Labels} {before : List FunctionDecl} {body : List Stmt}
    (reached : ReachesIn target f env l before body) : ∀ {declared : List VarId},
    env.Informed declared → functionsCode env l body = .error (.noSlot v name) →
      v ∉ declared ++ varsOf before ++ f.vars := by
  induction reached with
  | @here env l symbol layout copies rest found laid copied inner =>
    intro declared informed fails
    have fault := (guarded_error (guarded_functions _ informed)).mp fails
    rw [varsOf, List.flatMap_nil, List.append_nil]
    refine noSlot_of_fault (List.forall_mem_append.mpr ⟨sees_function declared f, ?_⟩) fault
    exact sees_unit rest (declared ++ f.vars)
  | @later env l g c before rest passed inner ih =>
    intro declared informed fails
    have behind : functionsCode { env with frames := c.frames } c.labels rest =
        .error (.noSlot v name) := by
      simp only [functionsCode, passed, bind, Except.bind] at fails
      cases result : functionsCode { env with frames := c.frames } c.labels rest with
      | error cause =>
        rw [result] at fails
        cases fails
        rfl
      | ok codes =>
        rw [result] at fails
        cases fails
    have missing := ih (informed_after informed passed) behind
    simpa [varsOf] using missing

/-- Where generation comes to a reference to a known variable, the program is refused for want of a
slot for it exactly when the variable is neither a parameter or local of the function nor one of a
function before it. -/
theorem reference_refused_iff_undeclared {symbols : SymbolTable} {config : Config} {p : Program}
    {before : List FunctionDecl} {f : FunctionDecl} {target : Expr} {v : VarId}
    {s : VariableSymbol} (reached : p.Reaches symbols config before f target)
    (refers : target.RefersTo v) (known : symbols.variableAt v = .ok s) :
    p.assembly symbols config = .error (.noSlot v s.name) ↔
      v ∉ f.vars ∧ ∀ g ∈ before, v ∉ g.vars := by
  have undeclared : v ∉ varsOf before ++ f.vars ↔ v ∉ f.vars ∧ ∀ g ∈ before, v ∉ g.vars := by
    simp only [varsOf, List.mem_append, List.mem_flatMap, not_or, not_exists, not_and]
    exact and_comm
  rw [← undeclared]
  constructor
  · intro refused
    exact slot_of_reachesIn reached (informed_unit symbols config) (functions_error.mp refused)
  · intro foreign
    refine p.fails_of_reaches reached fun env same informed => refers.fails informed ?_ foreign
    rwa [same]

def foreignSymbols : SymbolTable where
  functions := [⟨"f", "_f", []⟩, ⟨"g", "_g", []⟩]
  vars := [⟨"x", .int, ⟨1⟩⟩]

/-- Declares `x`. -/
def owning : FunctionDecl := ⟨⟨0⟩, [], ⟨⟨1⟩, [.declare [⟨0⟩]]⟩⟩

/-- Returns `x`, which it does not declare. -/
def borrowing : FunctionDecl := ⟨⟨1⟩, [], ⟨⟨2⟩, [.ret (some (.ident .int ⟨0⟩))]⟩⟩

theorem reference_refused_before_owner :
    foreignSymbols.variableAt ⟨0⟩ = .ok ⟨"x", .int, ⟨1⟩⟩ ∧
      (Program.ofFunctions [borrowing, owning]).Reaches foreignSymbols {} [] borrowing
        (.ident .int ⟨0⟩) ∧
      (Program.ofFunctions [borrowing, owning]).assembly foreignSymbols {} =
        .error (.noSlot ⟨0⟩ "x") := by
  have reached : (Program.ofFunctions [borrowing, owning]).Reaches foreignSymbols {} [] borrowing
      (.ident .int ⟨0⟩) := .here rfl rfl rfl (.ret .here)
  exact ⟨rfl, reached, (reference_refused_iff_undeclared reached (.reads .int) rfl).mpr
    ⟨by decide, by simp⟩⟩

/-- After the function that declares it, the variable is read in a function that reserves no stack,
at the distance it had in the other function's frame. -/
theorem foreign_variable_accepted :
    borrowing.vars = [] ∧ foreignSymbols.variableAt ⟨0⟩ = .ok ⟨"x", .int, ⟨1⟩⟩ ∧
      (Program.ofFunctions [owning, borrowing]).Reaches foreignSymbols {} [owning] borrowing
        (.ident .int ⟨0⟩) ∧
      ∃ u code text, (Program.ofFunctions [owning, borrowing]).code foreignSymbols {} = .ok u ∧
        (Program.ofFunctions [owning, borrowing]).assembly foreignSymbols {} = .ok text ∧
        u.functions = [code, prologue "_g" 0 ++ [.mov .long (.frame (-4)) .acc] ++ epilogue] :=
  ⟨rfl, rfl, .later rfl (.here rfl rfl rfl (.ret .here)), _, _, _, rfl, rfl, rfl⟩

end Ia32Backend
