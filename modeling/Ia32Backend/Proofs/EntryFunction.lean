import Ia32Backend.Proofs.CompiledApart
import Ia32Backend.Proofs.LabelIntegrity
import Ia32Backend.Proofs.Meaning.Unit
import Ia32Backend.Proofs.SameCode
import Ia32Backend.Proofs.UnitFunctions

/-!
The function in which the program starts. Behind its reservation it calls the start routine, and
before the leave of each return that stands directly in its body it pauses. Otherwise its code, and
all other code, is what it is in a unit without an entry function, and so are the faults. The rule
is stated on code: what a function's code becomes is told by where its leaves stand.
-/
namespace Ia32Backend

/-- What is written before the leave of a return that pauses. -/
def Config.pauseCode (config : Config) (label : String) : List Instr :=
  [.push .acc, .push (.addr label), .call config.pauseRoutine,
    .arith .add .long (.imm 4) (.reg .sp), .pop .acc]

mutual

/-- How many returns stand in a statement. -/
def Stmt.returns : Stmt → Nat
  | .ret _ => 1
  | .block ⟨_, body⟩ => Stmt.returnsOf body
  | .ifThen _ ⟨_, body⟩ => Stmt.returnsOf body
  | .whileLoop _ ⟨_, body⟩ => Stmt.returnsOf body
  | .forLoop _ _ _ ⟨_, body⟩ => Stmt.returnsOf body
  | .function _ => 0
  | .declare _ => 0
  | .eval _ => 0
termination_by structural s => s

def Stmt.returnsOf : List Stmt → Nat
  | [] => 0
  | s :: rest => s.returns + Stmt.returnsOf rest
termination_by structural body => body

end

/-- For each leave of a statement's code, in order, whether it belongs to the statement itself. -/
def Stmt.leaves (s : Stmt) : List Bool :=
  if s.isReturn then [true] else List.replicate s.returns false

/-- For each leave of a function's code, in order, whether it is that of a return which stands
directly in the body. -/
def FunctionDecl.leaves (f : FunctionDecl) : List Bool :=
  f.body.body.flatMap Stmt.leaves ++ if endsInReturn f.body.body then [] else [false]

/-- Writes some instructions before each leave whose mark is set. -/
def beforeLeaves (added : List Instr) (marks : List Bool) : List Instr → List Instr
  | [] => []
  | i :: rest =>
      if i = .leave then
        (if marks.headD false then added else []) ++ i :: beforeLeaves added marks.tail rest
      else i :: beforeLeaves added marks rest

/-- Takes stack for variables. -/
def Instr.reserves : Instr → Bool
  | .arith .sub .long (.imm _) (.reg .sp) => true
  | _ => false

/-- How many instructions a function's code opens with: its label, three that set up the frame, and
the reservation where there is one. -/
def openingLength (code : List Instr) : Nat := if code[4]?.any Instr.reserves then 5 else 4

/-- The code of a function in which the program starts, told by its code where it does not. -/
def FunctionDecl.entryCode (config : Config) (pauseLabel : String) (f : FunctionDecl)
    (code : List Instr) : List Instr :=
  code.take (openingLength code) ++ .call config.startRoutine ::
    beforeLeaves (config.pauseCode pauseLabel) f.leaves (code.drop (openingLength code))

/-- The codes of some functions, where the program starts in those that it may start in. -/
def startedAll (symbols : SymbolTable) (config : Config) (functions : List FunctionDecl)
    (codes : List (List Instr)) : List (List Instr) :=
  List.zipWith (fun f code =>
    if f.isEntry symbols config then
      f.entryCode config (numbered "SL" symbols.literals.length) code
    else code) functions codes

/-- A unit in which the program starts, told by the unit without an entry function. -/
def Program.started (symbols : SymbolTable) (config : Config) (p : Program) (u : UnitCode) :
    UnitCode :=
  { u with functions := startedAll symbols config p.functions u.functions }

/-! Leaves. -/

section
variable {added a b : List Instr} {marks more : List Bool}

theorem beforeLeaves_append (paired : a.count .leave = marks.length) :
    beforeLeaves added (marks ++ more) (a ++ b) =
      beforeLeaves added marks a ++ beforeLeaves added more b := by
  induction a generalizing marks with
  | nil =>
    cases List.eq_nil_of_length_eq_zero paired.symm
    rfl
  | cons i rest ih =>
    by_cases leave : i = .leave
    · subst i
      cases marks with
      | nil => simp at paired
      | cons mark marks =>
        have paired : rest.count .leave = marks.length := by simpa using paired
        simp [beforeLeaves, ih paired]
    · have paired : rest.count .leave = marks.length := by simpa [leave] using paired
      simp [beforeLeaves, leave, ih paired]

theorem beforeLeaves_unmarked (unmarked : ∀ mark ∈ marks, mark = false) :
    beforeLeaves added marks a = a := by
  induction a generalizing marks with
  | nil => rfl
  | cons i rest ih =>
    have first : marks.headD false = false := by
      cases marks with
      | nil => rfl
      | cons mark marks => exact unmarked mark List.mem_cons_self
    have later := ih fun mark member => unmarked mark (List.mem_of_mem_tail member)
    by_cases leave : i = .leave
    · simp only [beforeLeaves, leave, first, later, if_true, Bool.false_eq_true, if_false,
        List.nil_append]
    · simp only [beforeLeaves, leave, ih unmarked, if_false]

end

section
variable {env : Env}

theorem count_leave_of_inlined {names : List VarId} {code : List Instr}
    (inlined : Inlined env names code) : code.count .leave = 0 := by
  apply List.count_eq_zero.mpr
  intro member
  cases inlined _ member

theorem count_leave_expr {e : Expr} {c : ValueCode} (ok : e.code env = .ok c) (w : Width) :
    c.code.count .leave = 0 ∧ (c.at w).count .leave = 0 := by
  have inlined := e.inlined_code env c ok
  exact ⟨count_leave_of_inlined inlined, count_leave_of_inlined (inlined_at inlined w)⟩

theorem count_leave_returnValue {value : Option Expr} {code : List Instr}
    (ok : returnValue env value = .ok code) : code.count .leave = 0 := by
  cases value with
  | none =>
    cases pure_eq_ok.mp ok
    rfl
  | some e =>
    obtain ⟨v, inner, rfl⟩ := returnValue_some_ok ok
    exact (count_leave_expr inner .long).2

theorem count_leave_stepCode {step : Option Expr} {code : List Instr}
    (ok : stepCode env step = .ok code) : code.count .leave = 0 := by
  cases step with
  | none =>
    cases pure_eq_ok.mp ok
    rfl
  | some e =>
    obtain ⟨v, inner, rfl⟩ := stepCode_some_ok ok
    exact (count_leave_expr inner .long).1

theorem count_leave_copyParams {params : List VarId} : ∀ {index : Nat} {code : List Instr},
    copyParams env index params = .ok code → code.count .leave = 0 := by
  induction params with
  | nil =>
    intro index code ok
    cases pure_eq_ok.mp ok
    rfl
  | cons v rest ih =>
    intro index code ok
    obtain ⟨p, later, _, inner, rfl⟩ := copyParams_cons_ok ok
    simp [ih inner]

end

/-- A leave for each return, and none besides. -/
theorem Stmt.count_leave_codeAll (env : Env) (body : List Stmt) :
    ∀ l code last, codeAll env false l body = .ok (code, last) →
      code.count .leave = returnsOf body := by
  induction body using Stmt.body_induction with
  | nil =>
    intro l code last ok
    cases pure_eq_ok.mp ok
    rfl
  | cons s rest inner ih =>
    intro l code last ok
    obtain ⟨first, mid, later, here, ahead, rfl⟩ := codeAll_cons_ok ok
    rw [List.count_append, ih mid later last ahead, returnsOf, Nat.add_right_cancel_iff]
    cases s with
    | function decl => exact (throw_ne_ok here).elim
    | declare vars =>
      cases pure_eq_ok.mp here
      rfl
    | block b =>
      obtain ⟨id, body⟩ := b
      exact inner id body (.block id body) l first mid here
    | ifThen test b =>
      obtain ⟨id, body⟩ := b
      obtain ⟨t, nested, tested, inside, rfl⟩ := code_ifThen_ok here
      have inside := inner id body (.ifThen test id body) _ _ _ inside
      simp [ifCode, returns, (count_leave_expr tested .long).1, inside]
    | whileLoop test b =>
      obtain ⟨id, body⟩ := b
      obtain ⟨t, nested, tested, inside, rfl⟩ := code_whileLoop_ok here
      have inside := inner id body (.whileLoop test id body) _ _ _ inside
      simp [loopCode, leaveUnless, returns, (count_leave_expr tested .long).1, inside]
    | forLoop init test step b =>
      obtain ⟨id, body⟩ := b
      obtain ⟨i, t, nested, next, initial, tested, inside, stepped, rfl⟩ := code_forLoop_ok here
      have inside := inner id body (.forLoop init test step id body) _ _ _ inside
      simp [loopCode, leaveUnless, returns, (count_leave_expr initial .long).1,
        (count_leave_expr tested .long).1, count_leave_stepCode stepped, inside]
    | ret value =>
      obtain ⟨v, p, returned, paused, rfl, rfl⟩ := code_ret_ok here
      cases pure_eq_ok.mp paused
      simp [epilogue, returns, count_leave_returnValue returned]
    | eval e =>
      obtain ⟨c, evaluated, rfl, rfl⟩ := code_eval_ok here
      exact (count_leave_expr evaluated .long).1

theorem Stmt.length_leaves (s : Stmt) : s.leaves.length = s.returns := by
  cases s with
  | ret value => rfl
  | _ => exact List.length_replicate

theorem Stmt.length_leavesOf (body : List Stmt) :
    (body.flatMap Stmt.leaves).length = returnsOf body := by
  induction body with
  | nil => rfl
  | cons s rest ih =>
    rw [List.flatMap_cons, List.length_append, s.length_leaves, ih, returnsOf]

theorem Stmt.leaves_unmarked {s : Stmt} (other : s.isReturn = false) :
    ∀ mark ∈ s.leaves, mark = false := by
  intro mark member
  rw [leaves, other] at member
  exact List.eq_of_mem_replicate member

theorem Stmt.count_leave_code {env : Env} {l mid : Labels} {code : List Instr} (s : Stmt)
    (ok : s.code env false l = .ok (code, mid)) : code.count .leave = s.returns := by
  have alone : codeAll env false l [s] = .ok (code, mid) := by
    simp only [codeAll, ok, bind, Except.bind, pure, Except.pure, List.append_nil]
  rw [count_leave_codeAll env [s] l code mid alone, returnsOf, returnsOf, Nat.add_zero]

/-! Pauses. -/

section
variable (env : Env)

theorem Stmt.code_indirect (s : Stmt) (other : s.isReturn = false) (direct : Bool) (l : Labels) :
    s.code env direct l = s.code env false l := by
  rcases s.shape with ⟨vars, rfl⟩ | ⟨id, body, nests⟩ | flat
  · rfl
  · cases nests <;> rfl
  · cases s with
    | ret value => cases other
    | function decl => rfl
    | eval e => rfl
    | _ => exact flat.elim

theorem Env.pause_eq {label : String} (pooled : env.strings.pauseLabel = .ok label) :
    env.pause = .ok (env.config.pauseCode label) := by
  rw [Env.pause, pooled]
  rfl

theorem Stmt.code_direct {label : String} (pooled : env.strings.pauseLabel = .ok label)
    (s : Stmt) (l : Labels) : s.code env true l = (s.code env false l).map fun r =>
      (beforeLeaves (env.config.pauseCode label) s.leaves r.1, r.2) := by
  by_cases returns : s.isReturn
  · cases s with
    | ret value =>
      simp only [code, Env.pauseWhen, env.pause_eq pooled]
      cases written : returnValue env value with
      | error cause => rfl
      | ok v =>
        have quiet : v.count .leave = ([] : List Bool).length := count_leave_returnValue written
        have kept : beforeLeaves (env.config.pauseCode label) [] v = v :=
          beforeLeaves_unmarked (by simp)
        have paused : beforeLeaves (env.config.pauseCode label) [true] (v ++ epilogue) =
            v ++ (env.config.pauseCode label ++ epilogue) := by
          rw [← List.nil_append [true], beforeLeaves_append quiet, kept]
          rfl
        simp only [bind, Except.bind, pure, Except.pure, Except.map, List.append_nil,
          List.append_assoc, leaves, isReturn, if_true, paused]
    | _ => cases returns
  · have unmarked := s.leaves_unmarked (eq_false_of_ne_true returns)
    rw [s.code_indirect env (eq_false_of_ne_true returns)]
    cases s.code env false l with
    | error cause => rfl
    | ok r => simp only [Except.map, beforeLeaves_unmarked unmarked]

/-- Where a body is that of the entry function, it is what it is elsewhere but for the pauses. -/
theorem Stmt.codeAll_direct {label : String} (pooled : env.strings.pauseLabel = .ok label)
    (body : List Stmt) : ∀ l, codeAll env true l body = (codeAll env false l body).map fun r =>
      (beforeLeaves (env.config.pauseCode label) (body.flatMap leaves) r.1, r.2) := by
  induction body with
  | nil => exact fun _ => rfl
  | cons s rest ih =>
    intro l
    rw [codeAll, codeAll, s.code_direct env pooled]
    cases plain : s.code env false l with
    | error cause => rfl
    | ok r =>
      obtain ⟨first, mid⟩ := r
      have paired : first.count .leave = s.leaves.length := by
        rw [s.count_leave_code plain, s.length_leaves]
      simp only [Except.map, bind, Except.bind, ih mid]
      cases codeAll env false mid rest with
      | error cause => rfl
      | ok r =>
        obtain ⟨later, last⟩ := r
        simp only [pure, Except.pure, List.flatMap_cons, beforeLeaves_append paired]

end

/-! Functions. -/

theorem reserves_of_bodyCode {env : Env} {names : List VarId} {code : List Instr}
    (bodily : BodyCode env names code) : ∀ i ∈ code, i.reserves = false := by
  intro i member
  cases bodily i member with
  | inline inline =>
    cases inline with
    | combine op w => cases op <;> cases w <;> rfl
    | _ => rfl
  | _ => rfl

theorem reserves_copyParams {env : Env} {params : List VarId} : ∀ {index : Nat} {code : List Instr},
    copyParams env index params = .ok code → ∀ i ∈ code, i.reserves = false := by
  induction params with
  | nil =>
    intro index code ok
    cases pure_eq_ok.mp ok
    exact fun _ member => (List.not_mem_nil member).elim
  | cons v rest ih =>
    intro index code ok
    obtain ⟨p, later, _, inner, rfl⟩ := copyParams_cons_ok ok
    simpa [Instr.reserves] using ih inner

theorem openingLength_prologue (label : String) (reserved : Nat) {rest : List Instr}
    (inert : ∀ i ∈ rest, i.reserves = false) :
    openingLength (prologue label reserved ++ rest) = (prologue label reserved).length := by
  unfold prologue openingLength
  split
  · cases rest with
    | nil => rfl
    | cons i rest => simp [inert i List.mem_cons_self]
  · rfl

/-- The parts of a function's code that the entry function's code can be told by. -/
structure FunctionDecl.Reads (f : FunctionDecl) (code : List Instr) : Prop where
  opening : ∃ env label reserved copies rest, copyParams env 0 f.params = .ok copies ∧
    code = prologue label reserved ++ copies ++ rest ∧
    openingLength code = (prologue label reserved).length
  leaves : code.count .leave = f.leaves.length

section
variable {env : Env} {f : FunctionDecl} {l last : Labels} {copies body : List Instr}

theorem inert_function (copied : copyParams env 0 f.params = .ok copies)
    (inside : Stmt.codeAll env false l f.body.body = .ok (body, last)) :
    ∀ i ∈ copies ++ (body ++ closing f.body.body), i.reserves = false := by
  have bodily := Stmt.bodyCode_codeAll env _ f.body.body [] false l body last
    (List.Subset.refl _) inside
  have closed : ∀ i ∈ closing f.body.body, i.reserves = false := by
    unfold closing
    split <;> simp [epilogue, Instr.reserves]
  intro i member
  rw [List.mem_append, List.mem_append] at member
  exact member.elim (reserves_copyParams copied i)
    fun member => member.elim (reserves_of_bodyCode bodily i) (closed i)

theorem reads_function (label : String) (reserved : Nat)
    (copied : copyParams env 0 f.params = .ok copies)
    (inside : Stmt.codeAll env false l f.body.body = .ok (body, last)) :
    f.Reads (prologue label reserved ++ copies ++ body ++ closing f.body.body) where
  opening := by
    refine ⟨env, label, reserved, copies, body ++ closing f.body.body, copied,
      List.append_assoc _ _ _, ?_⟩
    rw [List.append_assoc, List.append_assoc]
    exact openingLength_prologue label reserved (inert_function copied inside)
  leaves := by
    have opening : (prologue label reserved).count .leave = 0 := by
      unfold prologue
      split <;> simp
    have close : (closing f.body.body).count .leave =
        (if endsInReturn f.body.body then [] else [false]).length := by
      unfold closing
      split <;> rfl
    rw [List.count_append, List.count_append, List.count_append, opening,
      count_leave_copyParams copied, Stmt.count_leave_codeAll env _ _ _ _ inside, close,
      FunctionDecl.leaves, List.length_append, Stmt.length_leavesOf]
    omega

theorem entryCode_function (config : Config) (pauseLabel label : String) (reserved : Nat)
    (copied : copyParams env 0 f.params = .ok copies)
    (inside : Stmt.codeAll env false l f.body.body = .ok (body, last)) :
    f.entryCode config pauseLabel
        (prologue label reserved ++ copies ++ body ++ closing f.body.body) =
      prologue label reserved ++ [.call config.startRoutine] ++ copies ++
        beforeLeaves (config.pauseCode pauseLabel) (f.body.body.flatMap Stmt.leaves) body ++
        closing f.body.body := by
  have opening := openingLength_prologue label reserved (inert_function copied inside)
  have quiet : copies.count .leave = ([] : List Bool).length := count_leave_copyParams copied
  have paired : body.count .leave = (f.body.body.flatMap Stmt.leaves).length := by
    rw [Stmt.count_leave_codeAll env _ _ _ _ inside, Stmt.length_leavesOf]
  have copiesKept : beforeLeaves (config.pauseCode pauseLabel) [] copies = copies :=
    beforeLeaves_unmarked (by simp)
  have closeKept : beforeLeaves (config.pauseCode pauseLabel)
      (if endsInReturn f.body.body then [] else [false]) (closing f.body.body) =
        closing f.body.body := by
    apply beforeLeaves_unmarked
    split <;> simp
  have split : beforeLeaves (config.pauseCode pauseLabel) ([] ++ f.leaves)
      (copies ++ (body ++ closing f.body.body)) = copies ++
        (beforeLeaves (config.pauseCode pauseLabel) (f.body.body.flatMap Stmt.leaves) body ++
          closing f.body.body) := by
    rw [beforeLeaves_append quiet, copiesKept, FunctionDecl.leaves, beforeLeaves_append paired,
      closeKept]
  rw [List.nil_append] at split
  simp only [FunctionDecl.entryCode, List.append_assoc, opening, List.take_left, List.drop_left,
    split, List.cons_append, List.nil_append]

end

section
variable (env : Env) (config : Config) {label : String}

/-- Where nothing pauses, code does not depend on the configuration. -/
theorem codeAll_config (body : List Stmt) (l : Labels) :
    Stmt.codeAll { env with config := config } false l body = Stmt.codeAll env false l body :=
  codeAll_same body [] false l ⟨rfl, rfl, fun _ _ => rfl⟩ rfl

theorem codeAll_started (pooled : env.strings.pauseLabel = .ok label) (body : List Stmt)
    (l : Labels) : Stmt.codeAll { env with config := config } true l body =
      (Stmt.codeAll env false l body).map fun r =>
        (beforeLeaves (config.pauseCode label) (body.flatMap Stmt.leaves) r.1, r.2) := by
  rw [Stmt.codeAll_direct { env with config := config } pooled, codeAll_config]

theorem FunctionDecl.code_started (pooled : env.strings.pauseLabel = .ok label) {f : FunctionDecl}
    (unnamed : f.isEntry env.symbols env.config = false) (l : Labels) :
    f.code { env with config := config } l = (f.code env l).map fun c =>
      { c with code := if f.isEntry env.symbols config then f.entryCode config label c.code
        else c.code } := by
  unfold FunctionDecl.code
  cases found : env.symbols.functionAt f.symbol with
  | error cause => rfl
  | ok symbol =>
    cases Layout.ofFunction env.symbols env.frames f with
    | error cause => rfl
    | ok layout =>
      have same : copyParams { env with config := config, frames := layout.frames } 0 f.params =
          copyParams { env with frames := layout.frames } 0 f.params :=
        copyParams_same f.params 0 ⟨rfl, rfl, fun _ _ => rfl⟩
      rw [isEntry_eq found, decide_eq_false_iff_not] at unnamed
      simp only [bind, Except.bind, same, isEntry_eq found, unnamed, decide_false]
      cases copied : copyParams { env with frames := layout.frames } 0 f.params with
      | error cause => rfl
      | ok copies =>
        by_cases named : symbol.name = config.entryName
        · have started := codeAll_started { env with frames := layout.frames } config pooled
            f.body.body l
          simp only [named, decide_true, started]
          cases inside : Stmt.codeAll { env with frames := layout.frames } false l f.body.body with
          | error cause => rfl
          | ok result =>
            have assembled := entryCode_function config label symbol.label layout.reserved copied
              inside
            simp only [closing] at assembled
            simp only [pure, Except.pure, Except.map, Bool.false_eq_true, if_true, if_false,
              List.append_nil, assembled]
        · have plain := codeAll_config { env with frames := layout.frames } config f.body.body l
          simp only [named, decide_false, plain]
          cases Stmt.codeAll { env with frames := layout.frames } false l f.body.body <;> rfl

theorem FunctionDecl.reads_code {f : FunctionDecl} {l : Labels} {c : FunctionCode}
    (unnamed : f.isEntry env.symbols env.config = false) (ok : f.code env l = .ok c) :
    f.Reads c.code := by
  obtain ⟨symbol, layout, copies, body, found, _, copied, inside, _, code⟩ := f.code_ok ok
  rw [isEntry_eq found, decide_eq_false_iff_not] at unnamed
  rw [decide_eq_false unnamed] at inside
  rw [code, FunctionSymbol.startCall, if_neg unnamed, List.append_nil]
  exact reads_function symbol.label layout.reserved copied inside

/-! Units. -/

theorem functionsCode_started (pooled : env.strings.pauseLabel =
      .ok (numbered "SL" env.symbols.literals.length)) {body : List Stmt} : ∀ (frames : Frames)
    (l : Labels), (∀ f ∈ Program.functions ⟨body⟩, f.isEntry env.symbols env.config = false) →
      functionsCode { env with config := config, frames := frames } l body =
        (functionsCode { env with frames := frames } l body).map
          (startedAll env.symbols config (Program.functions ⟨body⟩)) := by
  induction body with
  | nil => exact fun _ _ _ => rfl
  | cons s rest ih =>
    intro frames l unnamed
    cases s with
    | function f =>
      rw [Program.functions_cons, List.forall_mem_cons] at unnamed
      have first := FunctionDecl.code_started { env with frames := frames } config pooled
        unnamed.1 l
      rw [functionsCode, functionsCode, first]
      cases f.code { env with frames := frames } l with
      | error cause => rfl
      | ok c =>
        have later := ih c.frames c.labels unnamed.2
        simp only [Except.map, bind, Except.bind, later]
        cases functionsCode { env with frames := c.frames } c.labels rest <;> rfl
    | _ => rfl

theorem reads_functionsCode {body : List Stmt} : ∀ {frames : Frames} {l : Labels}
    {codes : List (List Instr)},
    (∀ f ∈ Program.functions ⟨body⟩, f.isEntry env.symbols env.config = false) →
      functionsCode { env with frames := frames } l body = .ok codes →
      List.Forall₂ FunctionDecl.Reads (Program.functions ⟨body⟩) codes := by
  induction body with
  | nil =>
    intro frames l codes _ ok
    cases pure_eq_ok.mp ok
    exact .nil
  | cons s rest ih =>
    intro frames l codes unnamed ok
    obtain ⟨f, first, later, rfl, here, ahead, rfl⟩ := functionsCode_cons_ok ok
    rw [Program.functions_cons, List.forall_mem_cons] at unnamed
    have first := FunctionDecl.reads_code { env with frames := frames } unnamed.1 here
    exact .cons first (ih unnamed.2 ahead)

end

theorem pauseLabel_ofLiterals (literals : List StringLiteral) (pauseText : String) :
    (StringPool.ofLiterals literals pauseText).2.pauseLabel =
      .ok (numbered "SL" literals.length) := by
  have count := StringPool.count_addLiterals {} literals
  rw [Nat.zero_add] at count
  rw [← count]
  rfl

/-- An entry function changes only the start and the pauses. Of two configurations that differ in
the name of the entry function, let the second name no function of the program. Both give the same
fault, or the first gives the code of the second with one call behind the reservation of each entry
function and a pause before the leave of each return directly in its body. -/
theorem entry_adds_start_and_pauses {symbols : SymbolTable} {config : Config} {other : String}
    {p : Program}
    (unnamed : ∀ f ∈ p.functions, f.isEntry symbols { config with entryName := other } = false) :
    (∃ cause, p.assembly symbols { config with entryName := other } = .error cause ∧
      p.assembly symbols config = .error cause) ∨
    ∃ u, p.code symbols { config with entryName := other } = .ok u ∧
      p.code symbols config = .ok (p.started symbols config u) ∧
      List.Forall₂ FunctionDecl.Reads p.functions u.functions ∧
      p.assembly symbols { config with entryName := other } =
        .ok ((Listing.ofCode u.code).render config.lineEnd) ∧
      p.assembly symbols config =
        .ok ((Listing.ofCode (p.started symbols config u).code).render config.lineEnd) := by
  have pooled := pauseLabel_ofLiterals symbols.literals config.pauseText
  have started : functionsCode (unitEnv symbols config) {} p.body =
      (functionsCode (unitEnv symbols { config with entryName := other }) {} p.body).map
        (startedAll symbols config p.functions) :=
    functionsCode_started (unitEnv symbols { config with entryName := other }) config pooled {} {}
      unnamed
  have code : p.code symbols config =
      (p.code symbols { config with entryName := other }).map (p.started symbols config) := by
    rw [Program.code_eq, Program.code_eq, started]
    cases functionsCode (unitEnv symbols { config with entryName := other }) {} p.body <;> rfl
  cases plain : p.code symbols { config with entryName := other } with
  | error cause =>
    rw [plain] at code
    exact Or.inl ⟨cause, assembly_error.mpr plain, assembly_error.mpr code⟩
  | ok u =>
    rw [plain] at code
    obtain ⟨strings, _, functions, _⟩ := Program.code_ok plain
    have reads : List.Forall₂ FunctionDecl.Reads p.functions u.functions :=
      reads_functionsCode ⟨symbols, { config with entryName := other }, strings, {}⟩ unnamed
        functions
    refine Or.inr ⟨u, rfl, code, reads, ?_, ?_⟩
    · rw [Program.assembly, plain]
      rfl
    · rw [Program.assembly, code]
      rfl

def startingSymbols : SymbolTable where
  functions := [⟨"main", "_main", [⟨0⟩]⟩, ⟨"spare", "_spare", []⟩]
  vars := [⟨"n", .int, ⟨9⟩⟩]

/-- `main(n) { if (n) return n; return 1; }` before a function with an empty body. -/
def starting : Program where
  body := [
    .function ⟨⟨0⟩, [⟨0⟩], ⟨⟨0⟩, [
      .ifThen (.ident .int ⟨0⟩) ⟨⟨1⟩, [.ret (some (.ident .int ⟨0⟩))]⟩,
      .ret (some (.lit .int ⟨0⟩ (.int 1)))]⟩⟩,
    .function ⟨⟨1⟩, [], ⟨⟨2⟩, []⟩⟩]

/-- Only the second return pauses: the first stands in a nested block, and the empty body ends in no
return of its own. -/
theorem entry_adds_start_and_pauses_nested :
    ∃ u, starting.code startingSymbols { entryName := "" } = .ok u ∧
      (starting.assembly startingSymbols {} =
        .ok ((Listing.ofCode (starting.started startingSymbols {} u).code).render "\n")) ∧
      (u.functions.map fun code => code.count .leave) = [2, 1] ∧
      ((starting.started startingSymbols {} u).functions.map fun code =>
        code.count (.call "_system")) = [1, 0] := by
  have unnamed : ∀ f ∈ starting.functions,
      f.isEntry startingSymbols { entryName := "" } = false := by
    intro f member
    revert f
    decide
  rcases @entry_adds_start_and_pauses startingSymbols {} "" starting unnamed with
    ⟨cause, plain, _⟩ | ⟨u, plain, _, _, _, text⟩
  · cases plain
  · refine ⟨u, plain, text, ?_⟩
    cases plain
    exact ⟨rfl, rfl⟩

end Ia32Backend
