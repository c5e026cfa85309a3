import Ia32Backend.Proofs.Accepted
import Ia32Backend.Proofs.Checks
import Ia32Backend.Proofs.LiveSlots
import Ia32Backend.Proofs.Uses

/-!
The code generator fails with the first check that fails, and only then. A step of it is guarded by
the checks that it makes itself; steps one after another are guarded by their checks in the same
order. What ties the checks to the frames is that a variable has a slot exactly when it was
declared.
-/
namespace Ia32Backend

/-- A result fails with the first failing one of its checks. -/
def Guarded {α : Type} (symbols : SymbolTable) (checks : List Check) : Except Fault α → Prop
  | .ok _ => firstFault symbols checks = none
  | .error cause => firstFault symbols checks = some cause

section
variable {α β : Type} {symbols : SymbolTable}

theorem guarded_pure (symbols : SymbolTable) (a : α) : Guarded symbols [] (pure a) := rfl

theorem guarded_throw {cause : Fault} {check : Check} {rest : List Check}
    (fails : check.fault symbols = some cause) :
    Guarded symbols (check :: rest) (throw cause : Except Fault α) := by
  simp [Guarded, throw, throwThe, MonadExceptOf.throw, firstFault, fails]

theorem guarded_bind {checks more : List Check} {x : Except Fault α} {f : α → Except Fault β}
    (first : Guarded symbols checks x) (rest : ∀ a, x = .ok a → Guarded symbols more (f a)) :
    Guarded symbols (checks ++ more) (x >>= f) := by
  cases x with
  | error cause =>
    simp only [Guarded] at first
    simp [bind, Except.bind, Guarded, firstFault_append, first]
  | ok a =>
    simp only [Guarded] at first
    have next := rest a rfl
    simp only [bind, Except.bind]
    cases after : f a with
    | error cause => simpa [after, Guarded, firstFault_append, first] using next
    | ok b => simpa [after, Guarded, firstFault_append, first] using next

/-- A last step that cannot fail adds no check. -/
theorem guarded_map {checks : List Check} {x : Except Fault α} {f : α → Except Fault β}
    (first : Guarded symbols checks x) (rest : ∀ a, x = .ok a → ∃ b, f a = .ok b) :
    Guarded symbols checks (x >>= f) := by
  have both : Guarded symbols (checks ++ []) (x >>= f) := guarded_bind first fun a known => by
    obtain ⟨b, after⟩ := rest a known
    rw [after]
    exact guarded_pure symbols b
  rwa [List.append_nil] at both

/-- A first step that cannot fail adds no check either. -/
theorem guarded_of_ok {checks : List Check} {x : Except Fault α} {f : α → Except Fault β} {a : α}
    (first : x = .ok a) (rest : Guarded symbols checks (f a)) :
    Guarded symbols checks (x >>= f) := by
  rw [first]
  exact rest

theorem guarded_error {checks : List Check} {x : Except Fault α} {cause : Fault}
    (guarded : Guarded symbols checks x) :
    x = .error cause ↔ firstFault symbols checks = some cause := by
  cases x with
  | ok a => simp [show firstFault symbols checks = none from guarded]
  | error other => simp [show firstFault symbols checks = some other from guarded]

theorem guarded_ok {checks : List Check} {x : Except Fault α}
    (guarded : Guarded symbols checks x) :
    (∃ a, x = .ok a) ↔ firstFault symbols checks = none := by
  cases x with
  | ok a => simp [show firstFault symbols checks = none from guarded]
  | error other => simp [show firstFault symbols checks = some other from guarded]

theorem passed_of_guarded {checks : List Check} {x : Except Fault α} {a : α}
    (guarded : Guarded symbols checks x) (ok : x = .ok a) :
    ∀ c ∈ checks, c.fault symbols = none :=
  firstFault_eq_none.mp ((guarded_ok guarded).mp ⟨a, ok⟩)

end

section
variable {symbols : SymbolTable}

theorem guarded_functionAt (symbols : SymbolTable) (f : FunctionId) :
    Guarded symbols [.function f] (symbols.functionAt f) := by
  by_cases bound : f.index < symbols.functions.length
  · simp [SymbolTable.functionAt, bound, Guarded, firstFault, Check.fault]
  · simp [SymbolTable.functionAt, bound, Guarded, firstFault, Check.fault]

theorem guarded_variableAt (symbols : SymbolTable) (v : VarId) :
    Guarded symbols [.variable v] (symbols.variableAt v) := by
  by_cases bound : v.index < symbols.vars.length
  · simp [SymbolTable.variableAt, bound, Guarded, firstFault, Check.fault]
  · simp [SymbolTable.variableAt, bound, Guarded, firstFault, Check.fault]

theorem known_of_guarded {α : Type} {vars : List VarId} {x : Except Fault α} {a : α}
    (guarded : Guarded symbols (vars.map .variable) x) (ok : x = .ok a) :
    ∀ v ∈ vars, ∃ s, symbols.variableAt v = .ok s := fun _ member =>
  Check.fault_variable.mp (passed_of_guarded guarded ok _ (List.mem_map_of_mem member))

end

/-! Slots and declarations. -/

namespace Frames

/-- A known variable has a slot in its owner's frame exactly when it was declared. -/
def Holds (symbols : SymbolTable) (declared : List VarId) (fs : Frames) : Prop :=
  ∀ v s, symbols.variableAt v = .ok s → (fs.offset? s.block v = none ↔ v ∉ declared)

theorem holds_empty (symbols : SymbolTable) : Holds symbols [] {} := by
  intro v s _
  simp only [List.not_mem_nil, not_false_eq_true, iff_true]
  rfl

theorem offset?_allocate_of_ne (fs : Frames) {v w : VarId} (different : v ≠ w) (b c : BlockId)
    (ty : ValueType) : (fs.allocate b ty v).2.offset? c w = fs.offset? c w := by
  by_cases same : b = c
  · subst c
    cases old : fs.offset? b v with
    | some offset => rw [allocate_of_some fs old]
    | none =>
      rw [offset?, frame_allocate_of_none fs old, Frame.depth?_push_of_ne _ different]
      rfl
  · rw [offset?, frame_allocate_of_ne fs same]
    rfl

theorem offset?_openUnder (fs : Frames) (child parent b : BlockId) (v : VarId) :
    (fs.openUnder child parent).offset? b v = fs.offset? b v := by
  by_cases same : child = b
  · subst b
    rw [offset?, frame_openUnder_self]
    unfold Frame.openBelow
    split
    · rename_i empty
      simp [offset?, Frame.depth?, empty, Frame.depthIn]
    · rfl
  · rw [offset?, frame_openUnder_of_ne fs same]
    rfl

section
variable {symbols : SymbolTable} {declared : List VarId} {fs : Frames}

theorem holds_allocate (holds : Holds symbols declared fs) {v : VarId} {s : VariableSymbol}
    (found : symbols.variableAt v = .ok s) :
    Holds symbols (declared ++ [v]) (fs.allocate s.block s.ty v).2 := by
  intro w t known
  rw [List.mem_append, List.mem_singleton, not_or]
  by_cases same : v = w
  · subst w
    rw [found, Except.ok.injEq] at known
    subst t
    simp [offset?_allocate_self]
  · rw [offset?_allocate_of_ne fs same]
    simp [holds w t known, Ne.symm same]

theorem holds_openUnder (holds : Holds symbols declared fs) (child parent : BlockId) :
    Holds symbols declared (fs.openUnder child parent) := by
  intro v s known
  rw [offset?_openUnder]
  exact holds v s known

theorem slotOffset_of_declared (holds : Holds symbols declared fs) {v : VarId}
    {s : VariableSymbol} (known : symbols.variableAt v = .ok s) (member : v ∈ declared) :
    ∃ offset, fs.slotOffset v s.block s.name = .ok offset := by
  rw [slotOffset]
  cases found : fs.offset? s.block v with
  | none => exact absurd member ((holds v s known).mp found)
  | some offset => exact ⟨offset, rfl⟩

theorem guarded_slotOffset (holds : Holds symbols declared fs) {v : VarId}
    {s : VariableSymbol} (known : symbols.variableAt v = .ok s) :
    Guarded symbols [.slot declared v] (fs.slotOffset v s.block s.name) := by
  have entry := SymbolTable.variableAt_eq_ok.mp known
  by_cases member : v ∈ declared
  · obtain ⟨offset, found⟩ := slotOffset_of_declared holds known member
    simp [found, Guarded, firstFault, Check.fault, member]
  · have missing := (holds v s known).mpr member
    simp [slotOffset, missing, Guarded, firstFault, Check.fault, member, entry]

end

end Frames

/-! Layout. -/

/-- A step that looks up some variables and gives each a slot. -/
structure Fills {α : Type} (symbols : SymbolTable) (declared vars : List VarId)
    (frames : α → Frames) (x : Except Fault α) : Prop where
  guarded : Guarded symbols (vars.map .variable) x
  holds : ∀ a, x = .ok a → (frames a).Holds symbols (declared ++ vars)

section
variable {α β : Type} {symbols : SymbolTable} {declared vars more : List VarId}
  {frames : α → Frames} {later : β → Frames}

theorem fills_pure {a : α} (holds : (frames a).Holds symbols declared) :
    Fills symbols declared [] frames (pure a) where
  guarded := guarded_pure symbols a
  holds := by
    intro b same
    cases pure_eq_ok.mp same
    rwa [List.append_nil]

theorem fills_bind {x : Except Fault α} {f : α → Except Fault β}
    (first : Fills symbols declared vars frames x)
    (rest : ∀ a, x = .ok a → (frames a).Holds symbols (declared ++ vars) →
      Fills symbols (declared ++ vars) more later (f a)) :
    Fills symbols declared (vars ++ more) later (x >>= f) where
  guarded := by
    rw [List.map_append]
    exact guarded_bind first.guarded fun a ok => (rest a ok (first.holds a ok)).guarded
  holds := by
    intro b ok
    obtain ⟨a, here, there⟩ := bind_eq_ok.mp ok
    rw [← List.append_assoc]
    exact (rest a here (first.holds a here)).holds b there

/-- A lookup, and what is then done with the variable's slot. -/
theorem fills_lookup {v : VarId} {f : VariableSymbol → Except Fault β}
    (rest : ∀ s, symbols.variableAt v = .ok s →
      Fills symbols (declared ++ [v]) more later (f s)) :
    Fills symbols declared (v :: more) later (symbols.variableAt v >>= f) where
  guarded := guarded_bind (guarded_variableAt symbols v) fun s known => (rest s known).guarded
  holds := by
    intro b ok
    obtain ⟨s, known, there⟩ := bind_eq_ok.mp ok
    have holds := (rest s known).holds b there
    rwa [List.append_assoc] at holds

end

namespace Layout

section
variable {symbols : SymbolTable}

theorem fills_addParams (params : List VarId) :
    ∀ {declared frames}, Frames.Holds symbols declared frames →
      Fills symbols declared params id (addParams symbols frames params) := by
  induction params with
  | nil =>
    intro declared frames holds
    exact fills_pure holds
  | cons v rest ih =>
    intro declared frames holds
    exact fills_lookup fun s known => ih (Frames.holds_allocate holds known)

theorem openBelowParams_total (body : BlockId) {declared : List VarId} (params : List VarId) :
    ∀ {frames : Frames}, frames.Holds symbols declared →
      (∀ v ∈ params, ∃ s, symbols.variableAt v = .ok s) →
      ∃ after, openBelowParams symbols body frames params = .ok after ∧
        after.Holds symbols declared := by
  induction params with
  | nil =>
    intro frames holds _
    exact ⟨frames, rfl, holds⟩
  | cons v rest ih =>
    intro frames holds known
    obtain ⟨s, found⟩ := known v List.mem_cons_self
    have tail := fun w member => known w (List.mem_cons_of_mem v member)
    rw [openBelowParams, found]
    by_cases own : s.block = body
    · obtain ⟨after, ok, still⟩ := ih holds tail
      refine ⟨after, ?_, still⟩
      simpa only [bind, Except.bind, if_pos own] using ok
    · obtain ⟨after, ok, still⟩ := ih (Frames.holds_openUnder holds body s.block) tail
      refine ⟨after, ?_, still⟩
      simpa only [bind, Except.bind, if_neg own] using ok

theorem fills_declareAll (vars : List VarId) :
    ∀ {declared : List VarId} {l : Layout}, l.frames.Holds symbols declared →
      Fills symbols declared vars Layout.frames (l.declareAll symbols vars) := by
  induction vars with
  | nil =>
    intro declared l holds
    exact fills_pure holds
  | cons v rest ih =>
    intro declared l holds
    simp only [declareAll, declare, bind_assoc, pure_bind]
    exact fills_lookup fun s known => ih (Frames.holds_allocate holds known)

theorem fills_addBody (body : List Stmt) :
    ∀ {id : BlockId} {declared : List VarId} {l : Layout}, l.frames.Holds symbols declared →
      Fills symbols declared ((Stmt.declarationsOf id body).map Prod.snd) Layout.frames
        (addBody symbols id l body) := by
  induction body using Stmt.body_induction with
  | nil =>
    intro id declared l holds
    exact fills_pure holds
  | cons s rest inner ih =>
    intro id declared l holds
    rw [addBody, Stmt.declarationsOf, List.map_append]
    suffices first : Fills symbols declared ((s.declarations id).map Prod.snd) Layout.frames
        (addStmt symbols id l s) from fills_bind first fun mid _ next => ih next
    -- Opening a nested block gives no variable a slot and takes none away.
    rcases s.shape with ⟨vars, rfl⟩ | ⟨child, body, nests⟩ | flat
    · have vars_eq : ((Stmt.declare vars).declarations id).map Prod.snd = vars := by
        simp [Stmt.declarations, Function.comp_def]
      rw [vars_eq]
      exact fills_declareAll vars holds
    · rw [addStmt_nested nests, nests.declarations]
      exact inner child body nests (Frames.holds_openUnder holds child id)
    · rw [addStmt_flat flat, flat.declarations]
      exact fills_pure holds

theorem fills_ofFunction {declared : List VarId} {frames : Frames}
    (holds : frames.Holds symbols declared) (f : FunctionDecl) :
    Fills symbols declared f.vars Layout.frames (ofFunction symbols frames f) := by
  have params := fills_addParams f.params holds
  refine fills_bind params fun placed ok next => ?_
  obtain ⟨opened, below, still⟩ := openBelowParams_total f.body.id f.params next
    (known_of_guarded params.guarded ok)
  rw [id] at below
  rw [below]
  exact fills_addBody f.body.body still

end

end Layout

/-! Code. -/

/-- What code is written against, told by the declarations so far: which variables have a slot,
which literals a label, and that the pause string has one. -/
structure Env.Informed (env : Env) (declared : List VarId) : Prop where
  slots : env.frames.Holds env.symbols declared
  strings : ∀ node, Guarded env.symbols [.string node] (env.strings.labelAt node)
  pause : ∃ label, env.strings.pauseLabel = .ok label

section
variable {env : Env} {declared : List VarId}

theorem guarded_place (informed : env.Informed declared) (v : VarId) :
    Guarded env.symbols (slotChecks declared v) (env.place v) :=
  guarded_bind (guarded_variableAt env.symbols v) fun _ known =>
    guarded_map (Frames.guarded_slotOffset informed.slots known) fun _ _ => ⟨_, rfl⟩

theorem guarded_literal (informed : env.Informed declared) (node : NodeId) (value : Literal) :
    Guarded env.symbols (value.checks node) (env.literal node value) := by
  cases value with
  | int value => exact guarded_pure _ _
  | char c => exact guarded_pure _ _
  | bool value => cases value <;> exact guarded_pure _ _
  | null => exact guarded_pure _ _
  | float bits => exact guarded_throw rfl
  | string text => exact guarded_map (informed.strings node) fun _ _ => ⟨_, rfl⟩

theorem guarded_negatable (symbols : SymbolTable) (ty : ValueType) :
    Guarded symbols [.notFloat ty "negation"] ty.negatable := by
  cases ty <;> rfl

/-- One operand is a float exactly when the promoted type is. -/
theorem guarded_operationWidth (symbols : SymbolTable) (left right : ValueType) :
    Guarded symbols [.notFloat left "arithmetic", .notFloat right "arithmetic"]
      (left.promote right).operationWidth := by
  cases left <;> cases right <;> rfl

theorem guarded_args (args : List Expr)
    (each : ∀ arg ∈ args, Guarded env.symbols (arg.checks declared) (arg.code env)) :
    Guarded env.symbols (Expr.argChecks declared args) (Expr.pushArgs env args) := by
  induction args with
  | nil => exact guarded_pure _ _
  | cons arg rest ih =>
    have later := ih fun other member => each other (List.mem_cons_of_mem arg member)
    exact guarded_bind later fun _ _ =>
      guarded_map (each arg List.mem_cons_self) fun _ _ => ⟨_, rfl⟩

theorem guarded_expr (informed : env.Informed declared) (e : Expr) :
    Guarded env.symbols (e.checks declared) (e.code env) := by
  induction e using Expr.args_induction with
  | ident ty v => exact guarded_map (guarded_place informed v) fun _ _ => ⟨_, rfl⟩
  | lit ty node x => exact guarded_map (guarded_literal informed node x) fun _ _ => ⟨_, rfl⟩
  | assign ty target value ih =>
    exact guarded_bind (guarded_place informed target) fun _ _ =>
      guarded_map ih fun _ _ => ⟨_, rfl⟩
  | unary ty op operand ih =>
    cases op with
    | not => exact guarded_map ih fun _ _ => ⟨_, rfl⟩
    | negate =>
      exact guarded_bind (guarded_negatable env.symbols operand.ty) fun _ _ =>
        guarded_map ih fun _ _ => ⟨_, rfl⟩
    | addressOf =>
      cases operand with
      | ident inner v => exact guarded_map (guarded_place informed v) fun _ _ => ⟨_, rfl⟩
      | _ => exact guarded_throw rfl
  | binary ty op left right ihLeft ihRight =>
    exact guarded_bind (guarded_operationWidth env.symbols left.ty right.ty) fun _ _ =>
      guarded_bind ihLeft fun _ _ => guarded_map ihRight fun _ _ => ⟨_, rfl⟩
  | call ty callee args ih =>
    exact guarded_bind (guarded_functionAt env.symbols callee) fun _ _ =>
      guarded_map (guarded_args args ih) fun _ _ => ⟨_, rfl⟩

theorem guarded_returnValue (informed : env.Informed declared) (value : Option Expr) :
    Guarded env.symbols (optionChecks declared value) (returnValue env value) := by
  cases value with
  | none => exact guarded_pure _ _
  | some e =>
    rw [optionChecks_some]
    exact guarded_map (guarded_expr informed e) fun _ _ => ⟨_, rfl⟩

theorem guarded_stepCode (informed : env.Informed declared) (step : Option Expr) :
    Guarded env.symbols (optionChecks declared step) (stepCode env step) := by
  cases step with
  | none => exact guarded_pure _ _
  | some e =>
    rw [optionChecks_some]
    exact guarded_map (guarded_expr informed e) fun _ _ => ⟨_, rfl⟩

theorem pauseWhen_total (informed : env.Informed declared) (direct : Bool) :
    ∃ code, env.pauseWhen direct = .ok code := by
  cases direct with
  | false => exact ⟨[], rfl⟩
  | true =>
    obtain ⟨label, pooled⟩ := informed.pause
    rw [Env.pauseWhen, Env.pause, pooled]
    exact ⟨_, rfl⟩

theorem guarded_codeAll (informed : env.Informed declared) (body : List Stmt) :
    ∀ direct l, Guarded env.symbols (Stmt.checksOf declared body)
      (Stmt.codeAll env direct l body) := by
  induction body using Stmt.body_induction with
  | nil => exact fun _ _ => guarded_pure _ _
  | cons s rest inner ih =>
    intro direct l
    refine guarded_bind ?_ fun first _ => guarded_map (ih direct first.2) fun _ _ => ⟨_, rfl⟩
    cases s with
    | function decl => exact guarded_throw rfl
    | declare vars => exact guarded_pure _ _
    | block b =>
      obtain ⟨id, body⟩ := b
      exact inner id body (.block id body) false l
    | ifThen test b =>
      obtain ⟨id, body⟩ := b
      exact guarded_bind (guarded_expr informed test) fun _ _ =>
        guarded_map (inner id body (.ifThen test id body) false l.drawIf) fun _ _ => ⟨_, rfl⟩
    | whileLoop test b =>
      obtain ⟨id, body⟩ := b
      exact guarded_bind (guarded_expr informed test) fun _ _ =>
        guarded_map (inner id body (.whileLoop test id body) false l.drawWhile) fun _ _ => ⟨_, rfl⟩
    | forLoop init test step b =>
      obtain ⟨id, body⟩ := b
      -- The step is met after the body, though it is written before it.
      exact guarded_bind (guarded_expr informed init) fun _ _ =>
        guarded_bind (guarded_expr informed test) fun _ _ =>
          guarded_bind (inner id body (.forLoop init test step id body) false l.drawFor) fun _ _ =>
            guarded_map (guarded_stepCode informed step) fun _ _ => ⟨_, rfl⟩
    | ret value =>
      obtain ⟨paused, pause⟩ := pauseWhen_total informed direct
      refine guarded_map (guarded_returnValue informed value) fun v _ => ?_
      rw [pause]
      exact ⟨_, rfl⟩
    | eval e => exact guarded_map (guarded_expr informed e) fun _ _ => ⟨_, rfl⟩

theorem copyParams_total (informed : env.Informed declared) (params : List VarId) :
    (∀ v ∈ params, v ∈ declared ∧ ∃ s, env.symbols.variableAt v = .ok s) →
      ∀ index, ∃ code, copyParams env index params = .ok code := by
  induction params with
  | nil => exact fun _ _ => ⟨[], rfl⟩
  | cons v rest ih =>
    intro known index
    obtain ⟨member, s, found⟩ := known v List.mem_cons_self
    obtain ⟨offset, slot⟩ := Frames.slotOffset_of_declared informed.slots found member
    have rest := fun w inside => known w (List.mem_cons_of_mem v inside)
    obtain ⟨later, ahead⟩ := ih rest (index + 1)
    have place : env.place v = .ok ⟨.frame (Int32.ofInt offset), s.ty.width⟩ := by
      rw [Env.place, found]
      simp only [bind, Except.bind, slot]
      rfl
    rw [copyParams, place]
    simp only [bind, Except.bind, ahead]
    exact ⟨_, rfl⟩

end

/-- The same environment, with other frames. -/
theorem Env.Informed.moved {env : Env} {declared more : List VarId} {frames : Frames}
    (informed : env.Informed declared) (holds : frames.Holds env.symbols more) :
    Env.Informed { env with frames := frames } more :=
  ⟨holds, informed.strings, informed.pause⟩

section
variable {env : Env} {declared : List VarId}

/-- Once its layout is there, a function's parameters have slots to be copied into. -/
theorem informed_laid (informed : env.Informed declared) {f : FunctionDecl} {layout : Layout}
    (laid : Layout.ofFunction env.symbols env.frames f = .ok layout) :
    Env.Informed { env with frames := layout.frames } (declared ++ f.vars) ∧
      ∃ copies, copyParams { env with frames := layout.frames } 0 f.params = .ok copies := by
  have fills := Layout.fills_ofFunction informed.slots f
  have inside := informed.moved (fills.holds layout laid)
  have known := known_of_guarded fills.guarded laid
  exact ⟨inside, copyParams_total inside f.params (fun v param =>
    ⟨List.mem_append_right _ (List.mem_append_left _ param),
      known v (List.mem_append_left _ param)⟩) 0⟩

theorem guarded_function (informed : env.Informed declared) (l : Labels) (f : FunctionDecl) :
    Guarded env.symbols (f.checks declared) (f.code env l) := by
  refine guarded_bind (guarded_functionAt env.symbols f.symbol) fun symbol _ => ?_
  have fills := Layout.fills_ofFunction informed.slots f
  refine guarded_bind fills.guarded fun layout laid => ?_
  obtain ⟨inside, copies, copied⟩ := informed_laid informed laid
  exact guarded_of_ok copied
    (guarded_map (guarded_codeAll inside f.body.body _ l) fun _ _ => ⟨_, rfl⟩)

theorem informed_after (informed : env.Informed declared) {l : Labels} {f : FunctionDecl}
    {c : FunctionCode} (ok : f.code env l = .ok c) :
    Env.Informed { env with frames := c.frames } (declared ++ f.vars) := by
  obtain ⟨symbol, layout, copies, body, _, laid, _, _, frames, _⟩ := f.code_ok ok
  rw [frames]
  exact (informed_laid informed laid).1

end

theorem guarded_functions (body : List Stmt) :
    ∀ {env : Env} {declared : List VarId} {l : Labels}, env.Informed declared →
      Guarded env.symbols (unitChecks declared body) (functionsCode env l body) := by
  induction body with
  | nil => exact fun _ => guarded_pure _ _
  | cons s rest ih =>
    intro env declared l informed
    cases s with
    | function f =>
      exact guarded_bind (guarded_function informed l f) fun first ok =>
        guarded_map (ih (informed_after informed ok)) fun _ _ => ⟨_, rfl⟩
    | _ => exact guarded_throw rfl

namespace StringPool

theorem labelAt_addLiterals_of_ne (p : StringPool) {literals : List StringLiteral} {node : NodeId}
    (absent : ∀ l ∈ literals, l.node ≠ node) :
    (p.addLiterals literals).2.labelAt node = p.labelAt node := by
  induction literals generalizing p with
  | nil => rfl
  | cons l rest ih =>
    have here := absent l List.mem_cons_self
    exact (ih _ fun other member => absent other (List.mem_cons_of_mem l member)).trans
      (labelAt_addLiteral_of_ne p l (Ne.symm here))

/-- A label may be replaced by a later one, but never goes. -/
theorem labelAt_addLiterals_of_ok {p : StringPool} {node : NodeId}
    (pooled : ∃ label, p.labelAt node = .ok label) (literals : List StringLiteral) :
    ∃ label, (p.addLiterals literals).2.labelAt node = .ok label := by
  induction literals generalizing p with
  | nil => exact pooled
  | cons l rest ih =>
    refine ih (p := (p.addLiteral l).pool) ?_
    by_cases same : node = l.node
    · subst node
      exact ⟨_, labelAt_addLiteral p l⟩
    · rwa [labelAt_addLiteral_of_ne p l same]

theorem labelAt_addLiterals_of_mem (p : StringPool) {literals : List StringLiteral}
    {l : StringLiteral} (member : l ∈ literals) :
    ∃ label, (p.addLiterals literals).2.labelAt l.node = .ok label := by
  induction literals generalizing p with
  | nil => cases member
  | cons first rest ih =>
    rcases List.mem_cons.mp member with rfl | later
    · exact labelAt_addLiterals_of_ok ⟨_, labelAt_addLiteral p l⟩ rest
    · exact ih (p.addLiteral first).pool later

theorem guarded_labelAt (symbols : SymbolTable) (pauseText : String) (node : NodeId) :
    Guarded symbols [.string node]
      ((ofLiterals symbols.literals pauseText).2.labelAt node) := by
  rw [ofLiterals, labelAt_addPause]
  by_cases present : ∃ l ∈ symbols.literals, l.node = node
  · obtain ⟨l, member, rfl⟩ := present
    obtain ⟨label, pooled⟩ := labelAt_addLiterals_of_mem {} member
    have found : symbols.literals.any (·.node = l.node) = true :=
      List.any_eq_true.mpr ⟨l, member, by simp⟩
    simp [pooled, Guarded, firstFault, Check.fault, found]
  · have absent : ∀ l ∈ symbols.literals, l.node ≠ node := fun l member same =>
      present ⟨l, member, same⟩
    have missing : symbols.literals.any (·.node = node) = false :=
      List.any_eq_false.mpr fun l member => by simp [absent l member]
    rw [labelAt_addLiterals_of_ne _ absent]
    simp [labelAt, Guarded, firstFault, Check.fault, missing]

end StringPool

theorem informed_unit (symbols : SymbolTable) (config : Config) :
    Env.Informed ⟨symbols, config, (StringPool.ofLiterals symbols.literals config.pauseText).2, {}⟩
      [] :=
  ⟨Frames.holds_empty symbols, StringPool.guarded_labelAt symbols config.pauseText, _, rfl⟩

theorem guarded_unit (symbols : SymbolTable) (config : Config) (p : Program) :
    Guarded symbols p.checks (p.code symbols config) :=
  guarded_map (guarded_functions p.body (informed_unit symbols config)) fun _ _ => ⟨_, rfl⟩

/-- A unit is refused exactly when some check fails, with the fault of the first that does. The
pause string is always there. -/
theorem first_fault_decides (symbols : SymbolTable) (config : Config) (p : Program) :
    (∀ cause, p.assembly symbols config = .error cause ↔ ∃ before check after,
      p.checks = before ++ check :: after ∧ (∀ c ∈ before, c.fault symbols = none) ∧
        check.fault symbols = some cause) ∧
    ((∃ text, p.assembly symbols config = .ok text) ↔
      ∀ c ∈ p.checks, c.fault symbols = none) ∧
    p.assembly symbols config ≠ .error .pauseNotPooled := by
  have guarded : Guarded symbols p.checks (p.assembly symbols config) :=
    guarded_map (guarded_unit symbols config p) fun _ _ => ⟨_, rfl⟩
  refine ⟨fun cause => (guarded_error guarded).trans firstFault_eq_some,
    (guarded_ok guarded).trans firstFault_eq_none, fun paused => ?_⟩
  obtain ⟨_, check, _, _, _, fault⟩ := firstFault_eq_some.mp ((guarded_error guarded).mp paused)
  exact check.fault_ne_pause symbols fault

end Ia32Backend
