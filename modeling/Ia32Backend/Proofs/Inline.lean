import Ia32Backend.Proofs.Accepted
import Ia32Backend.Proofs.Uses

/-!
The instructions that the code of an expression can hold, whatever the expression, and those that a
body adds to them. Memory operands are slots of variables that the source refers to, and no register
is written but the accumulator, the other register, the divisor's and, by what moves the stack, the
stack pointer and the frame pointer.
-/
namespace Ia32Backend

inductive Instr.Inline (env : Env) (names : List VarId) : Instr → Prop where
  | load {v : VarId} {p : Place} (known : v ∈ names) (place : env.place v = .ok p) :
      Inline env names (.mov p.width p.operand .acc)
  | store {v : VarId} {p : Place} (known : v ∈ names) (place : env.place v = .ok p) :
      Inline env names (.mov p.width .acc p.operand)
  | address {v : VarId} {p : Place} (known : v ∈ names) (place : env.place v = .ok p) :
      Inline env names (.lea p.operand .acc)
  | number (n : Int32) : Inline env names (.mov .long (.imm n) .acc)
  | text {node : NodeId} {label : String} (pooled : env.strings.labelAt node = .ok label) :
      Inline env names (.mov .long (.addr label) .acc)
  | signExtend : Inline env names (.movSigned .acc .acc)
  | zeroExtend : Inline env names (.movZero .acc .acc)
  | test (w : Width) : Inline env names (.cmp w (.imm 0) .acc)
  | set (c : Cond) : Inline env names (.set c .acc)
  | neg (w : Width) : Inline env names (.neg w .acc)
  | keep (w : Width) : Inline env names (.mov w .acc .other)
  | save : Inline env names (.push .other)
  | restore : Inline env names (.pop .other)
  | swap (w : Width) : Inline env names (.xchg w .acc .other)
  | combine (op : ArithOp) (w : Width) : Inline env names (.arith op w .other .acc)
  | compare (w : Width) : Inline env names (.cmp w .other .acc)
  | mulByte : Inline env names (.mulByte .other)
  | divisor (w : Width) : Inline env names (.mov w .other .divisor)
  | cltd : Inline env names .cltd
  | cbtw : Inline env names .cbtw
  | divide (w : Width) : Inline env names (.idiv w .divisor)
  | argument : Inline env names (.push .acc)
  | call {callee : FunctionId} {f : FunctionSymbol}
      (found : env.symbols.functionAt callee = .ok f) : Inline env names (.call f.label)
  | drop (n : Int32) : Inline env names (.arith .add .long (.imm n) (.reg .sp))

/-- Code that holds no other instructions. -/
def Inlined (env : Env) (names : List VarId) (code : List Instr) : Prop :=
  ∀ i ∈ code, i.Inline env names

section
variable {env : Env} {names more : List VarId} {a b code : List Instr} {i : Instr}

theorem inlined_nil : Inlined env names [] := fun _ member => (List.not_mem_nil member).elim

theorem inlined_cons (first : i.Inline env names) (rest : Inlined env names code) :
    Inlined env names (i :: code) := by
  intro j member
  rcases List.mem_cons.mp member with rfl | later
  · exact first
  · exact rest j later

theorem inlined_one (single : i.Inline env names) : Inlined env names [i] :=
  inlined_cons single inlined_nil

theorem inlined_append (left : Inlined env names a) (right : Inlined env names b) :
    Inlined env names (a ++ b) := by
  intro i member
  exact (List.mem_append.mp member).elim (left i) (right i)

theorem Instr.Inline.mono (inline : i.Inline env names) (subset : names ⊆ more) :
    i.Inline env more := by
  cases inline with
  | load known place => exact .load (subset known) place
  | store known place => exact .store (subset known) place
  | address known place => exact .address (subset known) place
  | text pooled => exact .text pooled
  | call found => exact .call found
  | _ => constructor

theorem inlined_mono (inlined : Inlined env names code) (subset : names ⊆ more) :
    Inlined env more code := fun i member => (inlined i member).mono subset

theorem inlined_at {v : ValueCode} (inlined : Inlined env names v.code) (w : Width) :
    Inlined env names (v.at w) := by
  refine inlined_append inlined ?_
  cases v.width <;> cases w <;>
    first | exact inlined_nil | exact inlined_one .signExtend

theorem inlined_operation (op : BinaryOp) (w : Width) : Inlined env names (op.code w) := by
  have compared : ∀ c, Inlined env names (compareCode c w) := by
    intro c
    refine inlined_append (inlined_cons (.compare w) (inlined_one (.set c))) ?_
    cases w <;> first | exact inlined_nil | exact inlined_one .zeroExtend
  cases op with
  | plus => exact inlined_one (.combine .add w)
  | minus => exact inlined_one (.combine .sub w)
  | and => exact inlined_one (.combine .and w)
  | or => exact inlined_one (.combine .or w)
  | multiply =>
    cases w with
    | byte => exact inlined_one .mulByte
    | long => exact inlined_one (.combine .imul .long)
  | divide =>
    cases w with
    | byte => exact inlined_cons (.divisor _) (inlined_cons .cbtw (inlined_one (.divide _)))
    | long => exact inlined_cons (.divisor _) (inlined_cons .cltd (inlined_one (.divide _)))
  | _ => exact compared _

theorem inlined_binary {op : BinaryOp} {w : Width} {l r : ValueCode}
    (left : Inlined env names l.code) (right : Inlined env names r.code) (save : Bool) :
    Inlined env names (binaryCode op w l r save).code := by
  have kept : Inlined env names (if save then [.push .other] else []) := by
    cases save <;> first | exact inlined_nil | exact inlined_one .save
  have taken : Inlined env names (if save then [.pop .other] else []) := by
    cases save <;> first | exact inlined_nil | exact inlined_one .restore
  refine inlined_append (inlined_append (inlined_append (inlined_append (inlined_append
    (inlined_append (inlined_at left w) (inlined_one (.keep w))) kept) (inlined_at right w)) taken)
    (inlined_one (.swap w))) (inlined_operation op w)

theorem inlined_call {callee : FunctionId} {f : FunctionSymbol} {args : List Instr}
    (found : env.symbols.functionAt callee = .ok f) (count : Nat)
    (pushed : Inlined env names args) : Inlined env names (callCode f.label count args).code := by
  refine inlined_append (inlined_append pushed (inlined_one (.call found))) ?_
  split
  · exact inlined_nil
  · exact inlined_one (.drop _)

theorem inlined_literal {node : NodeId} {x : Literal} {o : Operand}
    (literal : env.literal node x = .ok o) : Inlined env names [.mov .long o .acc] := by
  cases x with
  | float => exact (throw_ne_ok literal).elim
  | string =>
    simp only [Env.literal, bind_eq_ok, pure_eq_ok] at literal
    obtain ⟨label, pooled, rfl⟩ := literal
    exact inlined_one (.text pooled)
  | bool value =>
    cases value <;>
    · cases pure_eq_ok.mp literal
      exact inlined_one (.number _)
  | _ =>
    cases pure_eq_ok.mp literal
    exact inlined_one (.number _)

theorem inlined_pushArgs {args : List Expr} {pushed : List Instr}
    (each : ∀ arg ∈ args, ∀ c, arg.code env = .ok c → Inlined env arg.names c.code)
    (ok : Expr.pushArgs env args = .ok pushed) :
    Inlined env (args.flatMap Expr.names) pushed := by
  induction args generalizing pushed with
  | nil =>
    cases pure_eq_ok.mp ok
    exact inlined_nil
  | cons arg rest ih =>
    obtain ⟨later, v, ahead, first, rfl⟩ := Expr.pushArgs_cons_ok ok
    have tail := ih (fun e member => each e (List.mem_cons_of_mem arg member)) ahead
    have head := each arg List.mem_cons_self v first
    rw [List.flatMap_cons]
    exact inlined_append (inlined_append (inlined_mono tail (List.subset_append_right _ _))
      (inlined_at (inlined_mono head (List.subset_append_left _ _)) .long)) (inlined_one .argument)

end

theorem Expr.inlined_code (env : Env) (e : Expr) :
    ∀ c, e.code env = .ok c → Inlined env e.names c.code := by
  induction e using Expr.args_induction with
  | ident ty v =>
    intro c ok
    obtain ⟨p, place, rfl⟩ := code_ident_ok ok
    exact inlined_one (.load (List.mem_singleton_self v) place)
  | lit ty node x =>
    intro c ok
    obtain ⟨o, literal, rfl⟩ := code_lit_ok ok
    exact inlined_literal literal
  | assign ty target value ih =>
    intro c ok
    obtain ⟨p, v, place, inner, rfl⟩ := code_assign_ok ok
    have written := inlined_mono (ih v inner) (List.subset_cons_self target value.names)
    exact inlined_append (inlined_at written p.width)
      (inlined_one (.store List.mem_cons_self place))
  | unary ty op operand ih =>
    intro c ok
    cases op with
    | addressOf =>
      obtain ⟨inner, v, p, rfl, place, rfl⟩ := code_addressOf_ok ok
      exact inlined_one (.address (List.mem_singleton_self v) place)
    | not =>
      obtain ⟨v, inner, rfl⟩ := code_not_ok ok
      exact inlined_append (ih v inner)
        (inlined_cons (.test v.width) (inlined_cons (.set .e) (inlined_one .zeroExtend)))
    | negate =>
      obtain ⟨v, inner, rfl⟩ := code_negate_ok ok
      exact inlined_append (ih v inner) (inlined_one (.neg v.width))
  | binary ty op left right first second =>
    intro c ok
    obtain ⟨w, l, r, _, codeL, codeR, rfl⟩ := code_binary_ok ok
    rw [names_binary]
    exact inlined_binary (inlined_mono (first l codeL) (List.subset_append_left _ _))
      (inlined_mono (second r codeR) (List.subset_append_right _ _)) _
  | call ty callee args each =>
    intro c ok
    obtain ⟨f, pushed, found, inner, rfl⟩ := code_call_ok ok
    rw [names_call]
    exact inlined_call found args.length (inlined_pushArgs each inner)

/-! Bodies. -/

inductive Instr.Bodily (env : Env) (names : List VarId) : Instr → Prop where
  | inline {i : Instr} (inline : i.Inline env names) : Bodily env names i
  | branch (c : Cond) (name : String) : Bodily env names (.jump c name)
  | back (name : String) : Bodily env names (.jmp name)
  | label (name : String) : Bodily env names (.label name)
  | pauseText {label : String} (pooled : env.strings.pauseLabel = .ok label) :
      Bodily env names (.push (.addr label))
  | pause : Bodily env names (.call env.config.pauseRoutine)
  | takeBack : Bodily env names (.pop .acc)
  | leave : Bodily env names .leave
  | ret : Bodily env names .ret

/-- The variables of some expressions. -/
def usedNames (uses : List (List VarId × Expr)) : List VarId := uses.flatMap fun use => use.2.names

section
variable {env : Env} {names : List VarId}

/-- Code of a body that refers to some variables. -/
def BodyCode (env : Env) (names : List VarId) (code : List Instr) : Prop :=
  ∀ i ∈ code, i.Bodily env names

theorem bodyCode_nil : BodyCode env names [] := fun _ member => (List.not_mem_nil member).elim

theorem bodyCode_append {a b : List Instr} (first : BodyCode env names a)
    (second : BodyCode env names b) : BodyCode env names (a ++ b) := by
  intro i member
  exact (List.mem_append.mp member).elim (first i) (second i)

theorem bodyCode_cons {i : Instr} {code : List Instr} (first : i.Bodily env names)
    (rest : BodyCode env names code) : BodyCode env names (i :: code) := by
  intro j member
  rcases List.mem_cons.mp member with rfl | later
  · exact first
  · exact rest j later

theorem bodyCode_expr {e : Expr} {c : ValueCode} (ok : e.code env = .ok c)
    (known : e.names ⊆ names) (w : Width) :
    BodyCode env names c.code ∧ BodyCode env names (c.at w) := by
  have inlined := inlined_mono (e.inlined_code env c ok) known
  exact ⟨fun i member => .inline (inlined i member),
    fun i member => .inline (inlined_at inlined w i member)⟩

theorem bodyCode_returnValue {value : Option Expr} {code : List Instr}
    (ok : returnValue env value = .ok code) (known : ∀ e ∈ value, e.names ⊆ names) :
    BodyCode env names code := by
  cases value with
  | none =>
    cases pure_eq_ok.mp ok
    exact bodyCode_nil
  | some e =>
    obtain ⟨v, inner, rfl⟩ := returnValue_some_ok ok
    exact (bodyCode_expr inner (known e rfl) .long).2

theorem bodyCode_stepCode {step : Option Expr} {code : List Instr}
    (ok : stepCode env step = .ok code) (known : ∀ e ∈ step, e.names ⊆ names) :
    BodyCode env names code := by
  cases step with
  | none =>
    cases pure_eq_ok.mp ok
    exact bodyCode_nil
  | some e =>
    obtain ⟨v, inner, rfl⟩ := stepCode_some_ok ok
    exact (bodyCode_expr inner (known e rfl) .long).1

theorem bodyCode_pauseWhen {direct : Bool} {code : List Instr}
    (ok : env.pauseWhen direct = .ok code) : BodyCode env names code := by
  cases direct with
  | false =>
    cases pure_eq_ok.mp ok
    exact bodyCode_nil
  | true =>
    obtain ⟨label, pooled, rfl⟩ := Env.pause_ok ok
    exact bodyCode_cons (.inline .argument) (bodyCode_cons (.pauseText pooled)
      (bodyCode_cons .pause (bodyCode_cons (.inline (.drop 4)) (bodyCode_cons .takeBack
        bodyCode_nil))))

theorem bodyCode_epilogue : BodyCode env names epilogue :=
  bodyCode_cons .leave (bodyCode_cons .ret bodyCode_nil)

theorem bodyCode_ifCode {done : String} {test : ValueCode} {inner : List Instr}
    (tested : BodyCode env names test.code) (inside : BodyCode env names inner) :
    BodyCode env names (ifCode done test inner) :=
  bodyCode_append (bodyCode_append (bodyCode_append tested
    (bodyCode_cons (.inline (.test _)) (bodyCode_cons (.branch _ _) bodyCode_nil))) inside)
    (bodyCode_cons (.label _) bodyCode_nil)

theorem bodyCode_loopCode {head done : String} {test : ValueCode} {inner step : List Instr}
    (tested : BodyCode env names test.code) (inside : BodyCode env names inner)
    (stepped : BodyCode env names step) :
    BodyCode env names (loopCode head done test inner step) := by
  have leaves : BodyCode env names (leaveUnless test.width done) :=
    bodyCode_cons (.inline (.test _)) (bodyCode_cons (.inline (.set _))
      (bodyCode_cons (.inline .zeroExtend) (bodyCode_cons (.inline (.neg _))
        (bodyCode_cons (.branch _ _) bodyCode_nil))))
  exact bodyCode_append (bodyCode_append (bodyCode_append (bodyCode_append (bodyCode_append
    (bodyCode_cons (.label _) bodyCode_nil) tested) leaves) inside) stepped)
    (bodyCode_cons (.back _) (bodyCode_cons (.label _) bodyCode_nil))

end

theorem Stmt.bodyCode_codeAll (env : Env) (names : List VarId) (body : List Stmt) :
    ∀ scope direct l code last, usedNames (usesOf scope body) ⊆ names →
      codeAll env direct l body = .ok (code, last) → BodyCode env names code := by
  induction body using Stmt.body_induction with
  | nil =>
    intro scope direct l code last _ ok
    cases pure_eq_ok.mp ok
    exact bodyCode_nil
  | cons s rest inner ih =>
    intro scope direct l code last known ok
    obtain ⟨first, mid, later, here, ahead, rfl⟩ := codeAll_cons_ok ok
    simp only [usesOf, usedNames, List.flatMap_append, List.append_subset] at known
    obtain ⟨own, others⟩ := known
    refine bodyCode_append ?_ (ih _ direct mid later last others ahead)
    cases s with
    | function decl => exact (throw_ne_ok here).elim
    | declare vars =>
      cases pure_eq_ok.mp here
      exact bodyCode_nil
    | block b =>
      obtain ⟨id, body⟩ := b
      exact inner id body (.block id body) scope false l first mid own here
    | ifThen test b =>
      obtain ⟨id, body⟩ := b
      obtain ⟨t, nested, tested, inside, rfl⟩ := code_ifThen_ok here
      simp only [uses, List.flatMap_cons, List.append_subset] at own
      exact bodyCode_ifCode (bodyCode_expr tested own.1 .long).1
        (inner id body (.ifThen test id body) scope _ _ _ _ own.2 inside)
    | whileLoop test b =>
      obtain ⟨id, body⟩ := b
      obtain ⟨t, nested, tested, inside, rfl⟩ := code_whileLoop_ok here
      simp only [uses, List.flatMap_cons, List.append_subset] at own
      exact bodyCode_loopCode (bodyCode_expr tested own.1 .long).1
        (inner id body (.whileLoop test id body) scope _ _ _ _ own.2 inside) bodyCode_nil
    | forLoop init test step b =>
      obtain ⟨id, body⟩ := b
      obtain ⟨i, t, nested, next, initial, tested, inside, stepped, rfl⟩ := code_forLoop_ok here
      simp only [uses, List.flatMap_cons, List.flatMap_append, List.append_subset] at own
      obtain ⟨knownInit, knownTest, knownStep, knownBody⟩ := own
      refine bodyCode_append (bodyCode_expr initial knownInit .long).1
        (bodyCode_loopCode (bodyCode_expr tested knownTest .long).1
          (inner id body (.forLoop init test step id body) scope _ _ _ _ knownBody inside)
          (bodyCode_stepCode stepped ?_))
      rintro e rfl
      simpa using knownStep
    | ret value =>
      obtain ⟨v, p, returned, paused, rfl, rfl⟩ := code_ret_ok here
      refine bodyCode_append (bodyCode_append (bodyCode_returnValue returned ?_)
        (bodyCode_pauseWhen paused)) bodyCode_epilogue
      rintro e rfl
      simpa [uses] using own
    | eval e =>
      obtain ⟨c, evaluated, rfl, rfl⟩ := code_eval_ok here
      exact (bodyCode_expr evaluated (by simpa [uses] using own) .long).1

end Ia32Backend
