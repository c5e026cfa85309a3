import Ia32Backend.Proofs.Meaning.Expr
import Ia32Backend.Proofs.Simulation.Site

/-!
Variables, literals, assignments and operators: their code carries out their meaning, with the value
in the accumulator. While the right operand is computed the left one waits in the other register, or
on the stack where the right one's code writes that register.
-/
namespace Ia32Backend

/-- A value as code leaves it in the accumulator. -/
def Gives (w : Width) (x : Value) (c : Cpu) : Prop := x = ⟨w, c.low w .ax⟩

/-- The same, for a value that is wanted at a width. -/
def GivesAt (w : Width) (x : Value) (c : Cpu) : Prop := x.at w = c.low w .ax

namespace Site

section
variable {site : Site} {scope : List VarId}

theorem does_at {v : ValueCode} {run : Run Value} {spares : Bool}
    (does : site.Does scope v.code run spares (Gives v.width)) (w : Width) :
    site.Does scope (v.at w) run spares (GivesAt w) := by
  have extended : site.Does scope (v.code ++ v.width.extendTo w) (run >>= fun x => pure (id x))
      spares (GivesAt w) := by
    refine does_then does (computing_of_computes (computes_extendTo v.width w)) ?_ ?_
    · cases v.width <;> cases w <;> decide
    · rintro x c rfl
      obtain ⟨c', done, low⟩ := Cpu.run_extendTo site.image.data c v.width w
      exact ⟨c', done, low.symm⟩
  rwa [show (run >>= fun x => pure (id x)) = run from bind_pure run] at extended

theorem does_not {v : ValueCode} {run : Run Value} {spares : Bool}
    (does : site.Does scope v.code run spares (Gives v.width)) :
    site.Does scope v.not.code (run >>= fun x => pure ⟨.long, truth 32 (!x.isTrue)⟩) spares
      (Gives .long) := by
  refine does_then does (computing_of_computes rfl) ?_ ?_
  · simp [Instr.sets, Operand.regs]
  · rintro x c rfl
    obtain ⟨c', done, result⟩ := Cpu.run_not site.image.data c v.width
    refine ⟨c', done, ?_⟩
    rw [Gives, Cpu.low_long, result, Value.isTrue, bne, Bool.not_not]

theorem does_negate {v : ValueCode} {run : Run Value} {spares : Bool}
    (does : site.Does scope v.code run spares (Gives v.width)) :
    site.Does scope v.negate.code (run >>= fun x => pure ⟨x.width, -x.bits⟩) spares
      (Gives v.width) := by
  refine does_then does (computing_of_computes rfl) ?_ ?_
  · simp [Instr.sets, Operand.regs]
  · rintro x c rfl
    obtain ⟨c', done, result⟩ := Cpu.run_negate site.image.data c v.width
    exact ⟨c', done, by rw [Gives, result]⟩

theorem widthOf_at {s : Setting} (symbols : s.symbols = site.frame.env.symbols) {v : VarId}
    {d : Nat} {w : Width} (here : site.frame.At v d w) : s.widthOf v = pure w := by
  obtain ⟨symbol, found, rfl⟩ := here.width
  rw [Setting.widthOf, symbols, found]

theorem does_ident {s : Setting} {call : FunctionId → List Word → Run Word} {ty : ValueType}
    {v : VarId} {p : Place} (symbols : s.symbols = site.frame.env.symbols) (known : v ∈ scope)
    (place : site.frame.env.place v = .ok p) :
    site.Does scope p.load.code (Expr.eval s call (.ident ty v)) true (Gives p.width) := by
  obtain ⟨d, here, operand⟩ := Activation.at_of_place place
  refine does_computing (computing_of_computes rfl)
    (by simp [Place.load, Instr.sets, Operand.regs]) ?_
  intro c w holds
  refine ⟨⟨p.width, (w.store v).setWidth p.width.bits⟩, _, rfl, ?_, ?_⟩
  · intro later
    rw [Expr.eval, widthOf_at symbols here]
    rfl
  · rw [Gives, Cpu.low_setReg_blend, operand, Activation.value_slot _ holds known here]

/-- Addresses of strings are those of their labels. -/
def Texts (site : Site) (s : Setting) : Prop :=
  ∀ node label, site.frame.env.strings.labelAt node = .ok label →
    s.text node = site.image.data label

theorem does_lit {s : Setting} {call : FunctionId → List Word → Run Word} {ty : ValueType}
    {node : NodeId} {x : Literal} {o : Operand} (texts : site.Texts s)
    (literal : site.frame.env.literal node x = .ok o) :
    site.Does scope [.mov .long o .acc] (Expr.eval s call (.lit ty node x)) true
      (Gives .long) := by
  refine does_computing (computing_of_computes rfl) (by simp [Instr.sets, Operand.regs]) ?_
  intro c w _
  suffices value : s.literal node x = pure ⟨.long, c.value site.image.data .long o⟩ by
    refine ⟨⟨.long, c.value site.image.data .long o⟩, _, rfl, ?_, ?_⟩
    · intro later
      rw [Expr.eval, value]
      rfl
    · rw [Gives, Cpu.low_setReg_blend]
  cases x with
  | string text =>
    obtain ⟨label, pooled, same⟩ := bind_eq_ok.mp literal
    cases same
    rw [Setting.literal, texts node label pooled, Cpu.value, BitVec.setWidth_eq]
  | float bits => exact (throw_ne_ok literal).elim
  | bool b => cases b <;> cases literal <;> rfl
  | _ =>
    cases literal
    exact congrArg (fun n => pure (Value.mk .long n)) (BitVec.setWidth_eq _).symm

theorem does_assign {s : Setting} {call : FunctionId → List Word → Run Word} {ty : ValueType}
    {target : VarId} {value : Expr} {p : Place} {v : ValueCode} {spares : Bool}
    (symbols : s.symbols = site.frame.env.symbols)
    (laid : Layout.Laid site.frame.env.symbols site.frame.env.frames site.frame.reserved scope)
    (known : target ∈ scope) (place : site.frame.env.place target = .ok p)
    (does : site.Does scope v.code (value.eval s call) spares (Gives v.width)) :
    site.Does scope (p.store v).code (Expr.eval s call (.assign ty target value)) spares
      (Gives p.width) := by
  obtain ⟨d, here, operand⟩ := Activation.at_of_place place
  intro i c w log code holds shown
  obtain ⟨first, second⟩ := Image.has_append.mp code
  rw [Expr.eval, widthOf_at symbols here, pure_bind]
  refine .bind (does_at does p.width i c w log first holds shown) ?_
  rintro x w' ⟨pos, mid, log'⟩ shown' ⟨⟨rfl, kept, held⟩, low, same⟩
  obtain ⟨more, still⟩ := Activation.after_store laid (List.Subset.refl _) known here held
    ((x.at p.width).signExtend 32)
  have stored : mid.run site.image.data [.mov p.width .acc p.operand] =
      .ok (mid.setMem (mid.mem.write (site.frame.base - BitVec.ofNat 32 d) p.width
        (((x.at p.width).signExtend 32).setWidth p.width.bits))) := by
    rw [Value.setWidth_signExtend _ (by cases p.width <;> decide), low, ← held.base,
      ← add_neg_disp, operand]
    rfl
  refine .after_steps (Image.steps_run second stored) (Nat.le_add_right _ _) ?_
  refine .of_outcome (fun _ => rfl) shown' ⟨⟨?_, Activation.kept_trans kept more,
    Activation.holds_subset still (List.subset_append_left _ _)⟩,
    congrArg (Value.mk p.width) low, same⟩
  rw [Place.store, List.length_append, Nat.add_assoc]

/-- What an operator makes of its operands. -/
def operate (op : BinaryOp) (w : Width) (a b : BitVec w.bits) : Run Value :=
  match op.apply a b with
  | some r => pure ⟨w, r⟩
  | none => throw .divide

theorem run_exchange (data : String → Word) (c : Cpu) (w : Width) :
    ∃ c', c.run data [.xchg w .acc .other] = .ok c' ∧ c'.low w .ax = c.low w .dx ∧
      c'.low w .dx = c.low w .ax := by
  refine ⟨_, rfl, ?_, Cpu.low_setReg_blend _ _ _ _ _⟩
  rw [Cpu.low_setReg_of_ne _ (by decide), Cpu.low_setReg_blend]
  rfl

/-- Both operands at hand: the left one in the other register, the right one in the accumulator. -/
theorem carries_operation {op : BinaryOp} {w : Width} {i : Nat} {c : Cpu} {world : World}
    {log : List RuntimeCall} {a b : BitVec w.bits}
    (here : site.image.Has i ([.xchg w .acc .other] ++ op.code w))
    (holds : site.frame.Holds scope world.store c) (shown : Shown site.shows world.events log)
    (left : a = c.low w .dx) (right : b = c.low w .ax) :
    Simulates site.image site.shows site.bound (operate op w a b) world ⟨.inside i, c, log⟩
      (site.Ends scope c (i + (1 + (op.code w).length)) (Gives w)) := by
  obtain ⟨mid, exchanged, low, lowOther⟩ := run_exchange site.image.data c w
  have operated := Cpu.run_operation site.image.data mid op w
  rw [low, lowOther, ← left, ← right] at operated
  rw [operate]
  cases result : op.apply a b with
  | some r =>
    rw [result] at operated
    obtain ⟨c', ran, final⟩ := operated
    have whole := Cpu.run_append_ok.mpr ⟨mid, exchanged, ran⟩
    have computing : Computing ([.xchg w .acc .other] ++ op.code w) :=
      computing_of_computes (computes_operation op w)
    obtain ⟨kept, still⟩ := Activation.after_computing (A := site.frame) computing whole
    refine .after_steps (Image.steps_run here whole) (Nat.le_add_right _ _) ?_
    refine .of_outcome (fun _ => rfl) shown ⟨⟨?_, kept, still holds⟩, by rw [Gives, final]⟩
    rw [List.length_append]
    rfl
  | none =>
    rw [result] at operated
    obtain ⟨hereFirst, hereThen⟩ := Image.has_append.mp here
    exact .of_divide (Image.traps_steps (Image.steps_run hereFirst exchanged)
      (Image.traps_run hereThen operated (by decide))) shown

/-- The right operand where the left one waits in the other register. -/
theorem carries_right {op : BinaryOp} {w : Width} {r : ValueCode} {second : Run Value} {i : Nat}
    {c : Cpu} {world : World} {log : List RuntimeCall} {a : BitVec w.bits}
    (right : site.Does scope r.code second true (Gives r.width))
    (here : site.image.Has i (r.at w ++ ([.xchg w .acc .other] ++ op.code w)))
    (holds : site.frame.Holds scope world.store c) (shown : Shown site.shows world.events log)
    (left : a = c.low w .dx) :
    Simulates site.image site.shows site.bound (second >>= fun b => operate op w a (b.at w)) world
      ⟨.inside i, c, log⟩
      (site.Ends scope c (i + ((r.at w).length + (1 + (op.code w).length))) (Gives w)) := by
  obtain ⟨hereRight, hereRest⟩ := Image.has_append.mp here
  refine .bind (does_at right w i c world log hereRight holds shown) ?_
  rintro b w₁ ⟨_, c₁, log₁⟩ shown₁ ⟨⟨rfl, kept₁, holds₁⟩, low₁, same⟩
  have other : c₁.low w .dx = c.low w .dx := congrArg (BitVec.setWidth w.bits) (same rfl)
  exact ends_later kept₁ (Nat.add_assoc _ _ _)
    (carries_operation hereRest holds₁ shown₁ (left.trans other.symm) low₁)

theorem run_pop (data : String → Word) (c : Cpu) {r : Reg} (other : r ≠ .sp) :
    ∃ c', c.run data [.pop (.reg r)] = .ok c' ∧ c'.reg r = c.top ∧
      c'.reg .sp = c.reg .sp + BitVec.ofNat 32 4 ∧
      (∀ q, q ≠ r → q ≠ .sp → c'.reg q = c.reg q) ∧ c'.mem = c.mem := by
  refine ⟨_, rfl, by simp [Cpu.blend], ?_, ?_, rfl⟩
  · simp [Cpu.drop, Ne.symm other]
  · intro q notPopped notStack
    simp [Cpu.drop, notPopped, notStack]

/-- What was pushed last lies on top until the code that pushed it takes it back. -/
theorem top_kept {c c' : Cpu} (kept : site.frame.Kept 0 c c')
    (room : (c.reg .sp).toNat + 4 + site.frame.reserved ≤ site.frame.base.toNat) :
    c'.top = c.top := by
  have sp : c'.reg .sp = c.reg .sp := BitVec.eq_of_toNat_eq kept.sp
  have bound := site.frame.base.isLt
  rw [Cpu.top, Cpu.top, sp]
  exact Activation.kept_mem kept (Nat.le_refl _) (by omega) (Or.inl room)

/-- The right operand where the left one waits on the stack. -/
theorem carries_right_saved {op : BinaryOp} {w : Width} {r : ValueCode} {second : Run Value}
    {i : Nat} {c : Cpu} {world : World} {log : List RuntimeCall} {a : BitVec w.bits}
    (laid : Layout.Laid site.frame.env.symbols site.frame.env.frames site.frame.reserved scope)
    (right : site.Does scope r.code second false (Gives r.width))
    (here : site.image.Has i ([.push .other] ++ (r.at w ++ ([.pop .other] ++
      ([.xchg w .acc .other] ++ op.code w)))))
    (holds : site.frame.Holds scope world.store c) (shown : Shown site.shows world.events log)
    (left : a = c.low w .dx) :
    Simulates site.image site.shows site.bound (second >>= fun b => operate op w a (b.at w)) world
      ⟨.inside i, c, log⟩ (site.Ends scope c
        (i + (1 + ((r.at w).length + (1 + (1 + (op.code w).length))))) (Gives w)) := by
  obtain ⟨herePush, here⟩ := Image.has_append.mp here
  obtain ⟨hereRight, here⟩ := Image.has_append.mp here
  obtain ⟨herePop, hereRest⟩ := Image.has_append.mp here
  refine .after_push herePush ?_
  intro c₁ pushed
  obtain ⟨kept₁, holds₁, top₁, _⟩ := Activation.after_push pushed laid holds
  have room := holds.room
  have lower := kept₁.sp
  refine .bind (does_at right w _ c₁ world log hereRight holds₁ shown) ?_
  rintro b w₂ ⟨_, c₂, log₂⟩ shown₂ ⟨⟨rfl, kept₂, holds₂⟩, low₂, _⟩
  have top₂ : c₂.top = c.reg .dx := by
    rw [top_kept kept₂ (by omega), top₁]
    exact BitVec.setWidth_eq _
  obtain ⟨c₃, popped, other, sp, regs, mem⟩ := run_pop site.image.data c₂ (r := .dx) (by decide)
  have kept := Activation.kept_trans kept₁ kept₂
  obtain ⟨kept₃, holds₃⟩ := Activation.after_raise (n := 0) kept holds₂ room sp (fun r member =>
    regs r (by rintro rfl; simp at member) (by rintro rfl; simp at member)) mem
  refine .after_steps (Image.steps_run herePop popped) (Nat.le_add_right _ _) ?_
  have waited : a = c₃.low w .dx := by rw [left, Cpu.low, Cpu.low, other, top₂]
  have acc : c₃.low w .ax = c₂.low w .ax :=
    congrArg (BitVec.setWidth w.bits) (regs .ax (by decide) (by decide))
  refine ends_later kept₃ ?_
    (carries_operation hereRest holds₃ shown₂ waited (low₂.trans acc.symm))
  simp only [List.length_cons, List.length_nil]
  omega

theorem run_move (data : String → Word) (c : Cpu) (w : Width) :
    ∃ c', c.run data [.mov w .acc .other] = .ok c' ∧ c'.low w .dx = c.low w .ax :=
  ⟨_, rfl, Cpu.low_setReg_blend _ _ _ _ _⟩

theorem does_binary {op : BinaryOp} {w : Width} {l r : ValueCode} {first second : Run Value}
    {save keeps : Bool}
    (laid : Layout.Laid site.frame.env.symbols site.frame.env.frames site.frame.reserved scope)
    (left : site.Does scope l.code first keeps (Gives l.width))
    (right : site.Does scope r.code second (!save) (Gives r.width)) :
    site.Does scope (binaryCode op w l r save).code
      (first >>= fun a => second >>= fun b => operate op w (a.at w) (b.at w)) false (Gives w) := by
  intro i c world log here holds shown
  simp only [binaryCode, List.append_assoc] at here ⊢
  obtain ⟨hereLeft, here⟩ := Image.has_append.mp here
  obtain ⟨hereMove, here⟩ := Image.has_append.mp here
  refine .bind (does_at left w i c world log hereLeft holds shown) ?_
  rintro a w₁ ⟨_, c₁, log₁⟩ shown₁ ⟨⟨rfl, kept₁, holds₁⟩, low₁, _⟩
  obtain ⟨c₂, moved, low₂⟩ := run_move site.image.data c₁ w
  obtain ⟨kept₂, still₂⟩ := Activation.after_computing (A := site.frame)
    (computing_of_computes rfl) moved
  refine .after_steps (Image.steps_run hereMove moved) (Nat.le_add_right _ _) ?_
  have claimed : ∀ x c', Gives w x c' → Gives w x c' ∧ (false = true → c'.reg .dx = c.reg .dx) :=
    fun x c' gives => ⟨gives, unspared⟩
  refine ends_weaken claimed ?_
  cases save with
  | false =>
    refine ends_later (Activation.kept_trans kept₁ kept₂) ?_
      (carries_right right here (still₂ holds₁) shown₁ (low₁.trans low₂.symm))
    simp only [List.length_append, List.length_cons, List.length_nil, Bool.false_eq_true, if_false]
    omega
  | true =>
    refine ends_later (Activation.kept_trans kept₁ kept₂) ?_
      (carries_right_saved laid right here (still₂ holds₁) shown₁ (low₁.trans low₂.symm))
    simp only [List.length_append, List.length_cons, List.length_nil, if_true]
    omega

end

end Site

end Ia32Backend
