import Ia32Backend.Proofs.Simulation.Operators

/-!
Calls, and with them all expressions. Arguments are pushed from the last to the first, so the callee
finds them in order, and the caller drops them again.
-/
namespace Ia32Backend

/-- What an expression must not do for its meaning to be carried out: take an address, or call what
is not declared with as many parameters. -/
def Expr.ResolvedIn (p : Program) : Expr → Prop
  | .unary _ .addressOf _ => False
  | .call _ callee args => ∃ g ∈ p.functions, g.symbol = callee ∧ g.params.length = args.length
  | _ => True

def Expr.Resolved (p : Program) (e : Expr) : Prop := ∀ part ∈ e.parts, part.ResolvedIn p

instance (p : Program) : DecidablePred (Expr.ResolvedIn p)
  | .unary _ .addressOf _ => .isFalse id
  | .unary _ .not _ => .isTrue trivial
  | .unary _ .negate _ => .isTrue trivial
  | .call _ callee args => inferInstanceAs (Decidable (∃ g ∈ p.functions, g.symbol = callee ∧
      g.params.length = args.length))
  | .ident _ _ => .isTrue trivial
  | .lit _ _ _ => .isTrue trivial
  | .assign _ _ _ => .isTrue trivial
  | .binary _ _ _ _ => .isTrue trivial

instance (p : Program) : DecidablePred (Expr.Resolved p) := fun e =>
  inferInstanceAs (Decidable (∀ part ∈ e.parts, part.ResolvedIn p))

namespace Site

section
variable {site : Site} {scope : List VarId} {s : Setting} {p : Program}
  {call : FunctionId → List Word → Run Word}

/-- One more argument lies on top of those that were pushed before. -/
theorem passes_push {c c₁ c₂ : Cpu} {words : List Word} {x : Word} (passes : c.Passes words)
    (kept : site.frame.Kept 0 c c₁) (pushed : site.frame.Kept 4 c₁ c₂) (top : c₂.top = x)
    (room : (c.reg .sp).toNat + 4 * words.length + site.frame.reserved ≤
      site.frame.base.toNat) : c₂.Passes (x :: words) := by
  have bound := site.frame.base.isLt
  have whole := Activation.kept_trans kept pushed
  refine Cpu.passes_push passes whole.sp top (by omega) fun a low high => ?_
  exact Activation.kept_mem whole low (by omega) (Or.inl (by omega))

theorem carries_args {args : List Expr}
    (laid : Layout.Laid site.frame.env.symbols site.frame.env.frames site.frame.reserved scope)
    (each : ∀ arg ∈ args, ∀ v, arg.code site.frame.env = .ok v →
      site.Does scope v.code (arg.eval s call) (!arg.usesOther) (Gives v.width)) :
    ∀ {pushed i c w log}, Expr.pushArgs site.frame.env args = .ok pushed →
      site.image.Has i pushed → site.frame.Holds scope w.store c →
      Shown site.shows w.events log →
      Simulates site.image site.shows site.bound (Expr.evalArgs s call args) w
        ⟨.inside i, c, log⟩ fun words w' t =>
          site.Settled scope c (4 * words.length) (i + pushed.length) w' t ∧
            t.cpu.Passes words ∧ words.length = args.length := by
  induction args with
  | nil =>
    intro pushed i c w log ok _ holds shown
    cases pure_eq_ok.mp ok
    exact .of_outcome (a := []) (fun _ => rfl) shown
      ⟨⟨rfl, Activation.kept_refl _ c, holds⟩, c.passes_nil, rfl⟩
  | cons arg rest ih =>
    intro pushed i c w log ok here holds shown
    obtain ⟨later, v, inner, first, rfl⟩ := Expr.pushArgs_cons_ok ok
    rw [List.append_assoc] at here ⊢
    obtain ⟨hereLater, here⟩ := Image.has_append.mp here
    obtain ⟨hereArg, herePush⟩ := Image.has_append.mp here
    have does := does_at (each arg List.mem_cons_self v first) .long
    rw [Expr.evalArgs]
    refine .bind (ih (fun a member => each a (List.mem_cons_of_mem arg member)) inner hereLater
      holds shown) ?_
    rintro words w₁ ⟨_, c₁, log₁⟩ shown₁ ⟨⟨rfl, kept₁, holds₁⟩, passes, count⟩
    refine .bind (does _ c₁ w₁ log₁ hereArg holds₁ shown₁) ?_
    rintro x w₂ ⟨_, c₂, log₂⟩ shown₂ ⟨⟨rfl, kept₂, holds₂⟩, value, _⟩
    refine .after_push herePush ?_
    intro c₃ push
    obtain ⟨kept₃, holds₃, top, _⟩ := Activation.after_push push laid holds₂
    have depth := kept₁.sp
    have room := holds.room
    have result : c₃.top = x.at .long := top.trans value.symm
    have passed := passes_push passes kept₂ kept₃ result (by omega)
    have kept := Activation.kept_trans kept₁ (Activation.kept_trans kept₂ kept₃)
    refine .of_outcome (a := x.at .long :: words) (fun _ => rfl) shown₂
      ⟨⟨?_, ?_, holds₃⟩, passed, ?_⟩
    · simp only [List.length_append, List.length_cons, List.length_nil, Nat.add_assoc]
    · rwa [show 4 * words.length + (0 + 4) = 4 * (x.at .long :: words).length by
        rw [List.length_cons]; omega] at kept
    · rw [List.length_cons, List.length_cons, count]

theorem run_drop (data : String → Word) (c : Cpu) (n : Nat) :
    ∃ c', c.run data [.arith .add .long (.imm (Int32.ofNat n)) (.reg .sp)] = .ok c' ∧
      c'.reg .sp = c.reg .sp + BitVec.ofNat 32 n ∧ (∀ r, r ≠ .sp → c'.reg r = c.reg r) ∧
      c'.mem = c.mem := by
  refine ⟨_, rfl, ?_, fun r other => by simp [other], rfl⟩
  simp [Cpu.blend, ArithOp.apply, Cpu.value]

theorem does_call {ty : ValueType} {callee : FunctionId} {f : FunctionSymbol} {args : List Expr}
    {pushed : List Instr}
    (laid : Layout.Laid site.frame.env.symbols site.frame.env.frames site.frame.reserved scope)
    (calls : site.Calls p call)
    (declared : ∃ g ∈ p.functions, g.symbol = callee ∧ g.params.length = args.length)
    (found : site.frame.env.symbols.functionAt callee = .ok f)
    (ok : Expr.pushArgs site.frame.env args = .ok pushed)
    (each : ∀ arg ∈ args, ∀ v, arg.code site.frame.env = .ok v →
      site.Does scope v.code (arg.eval s call) (!arg.usesOther) (Gives v.width)) :
    site.Does scope (callCode f.label args.length pushed).code
      (Expr.eval s call (.call ty callee args)) false (Gives .long) := by
  intro i c w log here holds shown
  obtain ⟨g, member, symbol, arity⟩ := declared
  simp only [callCode, List.append_assoc] at here ⊢
  obtain ⟨hereArgs, here⟩ := Image.has_append.mp here
  obtain ⟨hereCall, hereDrop⟩ := Image.has_append.mp here
  rw [Expr.eval]
  refine .bind (carries_args laid each ok hereArgs holds shown) ?_
  rintro words w₁ ⟨_, c₁, log₁⟩ shown₁ ⟨⟨rfl, kept₁, holds₁⟩, passes, count⟩
  have room := holds.room
  have depth : (c₁.reg .sp).toNat + 4 * words.length = (c.reg .sp).toNat := kept₁.sp
  have bound := site.frame.base.isLt
  refine .bind (calls _ callee f g words c₁ w₁ log₁ (Image.has_cons.mp hereCall).1 found member
    symbol (arity.trans count.symm) passes (by omega) shown₁) ?_
  rintro x w₂ ⟨_, c₂, log₂⟩ shown₂ ⟨store, rfl, returned, result⟩
  obtain ⟨kept₂, holds₂⟩ := Activation.after_call returned laid holds₁
  rw [← store] at holds₂
  have gives : Gives .long ⟨.long, x⟩ c₂ := by rw [Gives, Cpu.low_long, result]
  by_cases none : args.length = 0
  · have kept := Activation.kept_trans kept₁ kept₂
    rw [count, none] at kept
    refine .of_outcome (fun _ => rfl) shown₂ ⟨⟨?_, kept, holds₂⟩, gives, unspared⟩
    simp [none, Nat.add_assoc]
  · rw [if_neg none] at hereDrop ⊢
    obtain ⟨c₃, dropped, sp, regs, mem⟩ := run_drop site.image.data c₂ (4 * args.length)
    have kept := Activation.kept_trans kept₁ kept₂
    rw [count] at kept
    obtain ⟨kept₃, holds₃⟩ := Activation.after_raise (n := 0) (k := 4 * args.length)
      (by rwa [Nat.zero_add]) holds₂ room sp
      (fun r member => regs r (by rintro rfl; simp at member)) mem
    refine .after_steps (Image.steps_run hereDrop dropped) (Nat.le_add_right _ _) ?_
    refine .of_outcome (fun _ => rfl) shown₂ ⟨⟨?_, kept₃, holds₃⟩, ?_, unspared⟩
    · simp [Nat.add_assoc]
    · rw [Gives, Cpu.low_long, regs .ax (by decide), ← result]

theorem operandWidth_of_ok {left right : ValueType} {w : Width}
    (ok : (left.promote right).operationWidth = .ok w) : w = operandWidth left right := by
  cases left <;> cases right <;> first | exact (throw_ne_ok ok).elim | (cases ok; rfl)

/-- The code of an expression carries out its meaning. -/
theorem does_expr (symbols : s.symbols = site.frame.env.symbols) (texts : site.Texts s)
    (calls : site.Calls p call)
    (laid : Layout.Laid site.frame.env.symbols site.frame.env.frames site.frame.reserved scope)
    (e : Expr) : ∀ v, e.code site.frame.env = .ok v → e.names ⊆ scope → e.Resolved p →
      site.Does scope v.code (e.eval s call) (!e.usesOther) (Gives v.width) := by
  induction e using Expr.args_induction with
  | ident ty v =>
    intro code ok names _
    obtain ⟨place, found, rfl⟩ := Expr.code_ident_ok ok
    exact does_ident symbols (names (List.mem_singleton_self v)) found
  | lit ty node x =>
    intro code ok _ _
    obtain ⟨o, literal, rfl⟩ := Expr.code_lit_ok ok
    exact does_lit texts literal
  | assign ty target value ih =>
    intro code ok names resolved
    rw [Expr.names_assign, List.cons_subset] at names
    obtain ⟨place, v, found, inner, rfl⟩ := Expr.code_assign_ok ok
    exact does_assign symbols laid names.1 found (ih v inner names.2 fun part member =>
      resolved part (List.mem_cons_of_mem _ member))
  | unary ty op operand ih =>
    intro code ok names resolved
    have inside : operand.Resolved p := fun part member =>
      resolved part (List.mem_cons_of_mem _ member)
    cases op with
    | addressOf => exact (resolved _ List.mem_cons_self).elim
    | not =>
      obtain ⟨v, inner, rfl⟩ := Expr.code_not_ok ok
      exact does_not (ih v inner names inside)
    | negate =>
      obtain ⟨v, inner, rfl⟩ := Expr.code_negate_ok ok
      exact does_negate (ih v inner names inside)
  | binary ty op left right ihl ihr =>
    intro code ok names resolved
    rw [Expr.names_binary, List.append_subset] at names
    obtain ⟨w, l, r, width, first, second, rfl⟩ := Expr.code_binary_ok ok
    cases operandWidth_of_ok width
    have parts : ∀ part ∈ left.parts ++ right.parts, part.ResolvedIn p := fun part member =>
      resolved part (List.mem_cons_of_mem _ member)
    exact does_binary laid
      (ihl l first names.1 fun part member => parts part (List.mem_append_left _ member))
      (ihr r second names.2 fun part member => parts part (List.mem_append_right _ member))
  | call ty callee args ih =>
    intro code ok names resolved
    rw [Expr.names_call] at names
    obtain ⟨f, pushed, found, inner, rfl⟩ := Expr.code_call_ok ok
    refine does_call laid calls (resolved _ List.mem_cons_self) found inner ?_
    intro arg member v first
    refine ih arg member v first (fun name inside =>
      names (List.mem_flatMap.mpr ⟨arg, member, inside⟩)) fun part inside => ?_
    refine resolved part (List.mem_cons_of_mem _ ?_)
    rw [Expr.partsOf_eq]
    exact List.mem_flatMap.mpr ⟨arg, member, inside⟩

end

end Site

end Ia32Backend
