import Ia32Backend.Proofs.FunctionLabels
import Ia32Backend.Proofs.Preservation
import Ia32Backend.Proofs.Simulation.Valuation

/-!
Expressions on the machine, one at a time: their code ends with the value in the accumulator and
the assigned variables in their slots, and changes nothing else on the stack.
-/
namespace Ia32Backend

namespace Eval

variable {Ω α β : Type}

/-- What can end an evaluation: a division, or a call. -/
def Ends (callees : Callees Ω) (stop : Stop) : Prop :=
  stop = .divide ∨ ∃ callee args s, callees callee args s = .error stop

/-- An evaluation that nothing else ends early. -/
def Proceeds (callees : Callees Ω) (run : Eval Ω α) : Prop :=
  ∀ s stop, run s = .error stop → Ends callees stop

section
variable {callees : Callees Ω}

theorem proceeds_pure (a : α) : Proceeds callees (pure a) := by
  intro s stop failed
  cases failed

theorem proceeds_bind {run : Eval Ω α} {f : α → Eval Ω β} (first : Proceeds callees run)
    (next : ∀ a, Proceeds callees (f a)) : Proceeds callees (run >>= f) := by
  intro s stop failed
  rcases bind_error.mp failed with before | ⟨a, mid, _, later⟩
  · exact first s stop before
  · exact next a mid stop later

theorem proceeds_assign (v : VarId) (x : Word) : Proceeds callees (assign v x) := by
  intro s stop failed
  cases failed

theorem proceeds_operate (op : BinaryOp) (w : Width) (a b : BitVec w.bits) :
    Proceeds callees (operate op w a b) := by
  intro s stop failed
  unfold operate at failed
  cases result : op.apply a b with
  | none =>
    rw [result] at failed
    cases failed
    exact Or.inl rfl
  | some r =>
    rw [result] at failed
    cases failed

theorem proceeds_call (callee : FunctionId) (args : List Word) :
    Proceeds callees (call callees callee args) := by
  intro s stop failed
  unfold call at failed
  cases result : callees callee args s with
  | error cause =>
    rw [result] at failed
    cases failed
    exact Or.inr ⟨callee, args, s, result⟩
  | ok r =>
    rw [result] at failed
    cases failed

end

end Eval

section
variable {Ω : Type} {env : Env} {t : Terrain} {callees : Callees Ω}

theorem Env.literal_value {node : NodeId} {x : Literal} {o : Operand}
    (ok : env.literal node x = .ok o) (t : Terrain) : ∃ y, t.literal node x = .ok y := by
  cases x with
  | float bits => exact (throw_ne_ok ok).elim
  | bool b => cases b <;> exact ⟨_, rfl⟩
  | _ => exact ⟨_, rfl⟩

theorem Expr.proceeds_args {args : List Expr}
    (each : ∀ arg ∈ args, ∀ v, arg.code env = .ok v →
      Eval.Proceeds callees (arg.evaluate t callees)) :
    ∀ {pushed}, Expr.pushArgs env args = .ok pushed →
      Eval.Proceeds callees (Expr.evaluateArgs t callees args) := by
  induction args with
  | nil => exact fun _ => Eval.proceeds_pure []
  | cons arg rest ih =>
    intro pushed ok
    obtain ⟨later, v, inner, first, rfl⟩ := Expr.pushArgs_cons_ok ok
    rw [Expr.evaluateArgs]
    refine Eval.proceeds_bind (ih (fun a member => each a (List.mem_cons_of_mem arg member)) inner)
      fun words => ?_
    exact Eval.proceeds_bind (each arg List.mem_cons_self v first) fun x => Eval.proceeds_pure _

/-- The evaluation of what has code ends early by a division or by a call alone. -/
theorem Expr.proceeds_evaluate (e : Expr) :
    ∀ v, e.code env = .ok v → Eval.Proceeds callees (e.evaluate t callees) := by
  induction e using Expr.args_induction with
  | ident ty v =>
    intro code ok s stop failed
    cases failed
  | lit ty node x =>
    intro code ok s stop failed
    obtain ⟨o, literal, _⟩ := Expr.code_lit_ok ok
    obtain ⟨y, value⟩ := Env.literal_value literal t
    rw [Expr.evaluate, value] at failed
    cases failed
  | assign ty target value ih =>
    intro code ok
    obtain ⟨place, v, _, inner, _⟩ := Expr.code_assign_ok ok
    rw [Expr.evaluate]
    exact Eval.proceeds_bind (ih v inner) fun x =>
      Eval.proceeds_bind (Eval.proceeds_assign _ _) fun _ => Eval.proceeds_pure _
  | unary ty op operand ih =>
    intro code ok
    cases op with
    | addressOf =>
      obtain ⟨inner, v, place, rfl, _, _⟩ := Expr.code_addressOf_ok ok
      exact Eval.proceeds_pure _
    | not =>
      obtain ⟨v, inner, _⟩ := Expr.code_not_ok ok
      rw [Expr.evaluate]
      exact Eval.proceeds_bind (ih v inner) fun x => Eval.proceeds_pure _
    | negate =>
      obtain ⟨v, inner, _⟩ := Expr.code_negate_ok ok
      rw [Expr.evaluate]
      exact Eval.proceeds_bind (ih v inner) fun x => Eval.proceeds_pure _
  | binary ty op left right ihl ihr =>
    intro code ok
    obtain ⟨w, l, r, _, first, second, _⟩ := Expr.code_binary_ok ok
    rw [Expr.evaluate]
    exact Eval.proceeds_bind (ihl l first) fun a =>
      Eval.proceeds_bind (ihr r second) fun b => Eval.proceeds_operate _ _ _ _
  | call ty callee args ih =>
    intro code ok
    obtain ⟨f, pushed, _, inner, _⟩ := Expr.code_call_ok ok
    rw [Expr.evaluate]
    exact Eval.proceeds_bind (Expr.proceeds_args ih inner) fun words =>
      Eval.proceeds_bind (Eval.proceeds_call callee words) fun x => Eval.proceeds_pure _

/-- The code of an expression, where each variable has a slot of its own on the stack and the stack
lasts. Whatever the form and the annotations, it runs straight to its end and leaves the value in
the accumulator, the assigned variables in their slots and all else on the stack as it was. -/
theorem expression_code_yields_value {m : Image} {shows : Ω → List RuntimeCall → Prop} {e : Expr}
    {v : ValueCode} {i : Nat} {c : Cpu} {log : List RuntimeCall} {s : Store Ω}
    (lowered : e.code env = .ok v) (here : m.Has i v.code)
    (spread : (env.terrain m.data (c.reg .bp)).Spread e.names (c.reg .sp).toNat
      (c.reg .bp).toNat)
    (held : (env.terrain m.data (c.reg .bp)).Held e.names s.vars c.mem)
    (shown : shows s.rest log) (fulfils : m.Fulfils env (c.reg .bp) e.names shows callees)
    (lasts : m.StackLasts ⟨.inside i, c, log⟩) :
    Straight v.code ∧
    (∀ stop, e.evaluate (env.terrain m.data (c.reg .bp)) callees s = .error stop →
      stop = .divide ∨ ∃ callee args mid, callees callee args mid = .error stop) ∧
    ∀ x after, e.evaluate (env.terrain m.data (c.reg .bp)) callees s = .ok (x, after) →
      ∃ n c' log', m.Steps n ⟨.inside i, c, log⟩ ⟨.inside (i + v.code.length), c', log'⟩ ∧
        Gives v.width x c' ∧ (∀ r ∈ [Reg.sp, .bp, .bx, .si, .di], c'.reg r = c.reg r) ∧
        (env.terrain m.data (c.reg .bp)).Held e.names after.vars c'.mem ∧
        (∀ y : Word, (c.reg .sp).toNat ≤ y.toNat →
          ¬ (env.terrain m.data (c.reg .bp)).Owned e.assigned y → c'.mem y = c.mem y) ∧
        shows after.rest log' := by
  refine ⟨(expr_straight lowered .long).1, Expr.proceeds_evaluate e v lowered s, ?_⟩
  intro x after done
  let g : Ground Ω := ⟨m, shows, env, e.names, e.assigned, (c.reg .sp).toNat, c.reg .bp⟩
  have sound : g.Sound := ⟨spread, e.assigned_subset⟩
  have holds : g.Holds s.vars c := ⟨rfl, Nat.le_refl _, held⟩
  obtain ⟨n, c', log', steps, keeps, after, shown', gives, _⟩ := Ground.computes_expr sound fulfils
    e v lowered (List.Subset.refl _) (List.Subset.refl _) i c log s x after here holds shown lasts
    done
  refine ⟨n, c', log', steps, gives, ?_, after.slots, keeps.outside, shown'⟩
  rw [List.forall_mem_cons]
  exact ⟨BitVec.eq_of_toNat_eq keeps.sp, keeps.saved⟩

end

/-- A character `c` at 4 and a number `n` at 8 bytes below the frame pointer. -/
def pointingEnv : Env where
  symbols := { functions := [⟨"f", "_f", []⟩], vars := [⟨"c", .char, ⟨0⟩⟩, ⟨"n", .int, ⟨0⟩⟩] }
  config := {}
  strings := {}
  frames := ((({} : Frames).allocate ⟨0⟩ .char ⟨0⟩).2.allocate ⟨0⟩ .int ⟨1⟩).2

/-- `(c = 300) + f(&n, c)`: what is left of the number waits while an address is passed. -/
def pointing : Expr :=
  .binary .int .plus (.assign .char ⟨0⟩ (.lit .int ⟨0⟩ (.int 300)))
    (.call .int ⟨0⟩ [.unary .address .addressOf (.ident .int ⟨1⟩), .ident .char ⟨0⟩])

def pointingCode : ValueCode := (pointing.code pointingEnv).toOption.getD ⟨[], .long⟩

/-- A routine that adds its second argument to what the first one points to. -/
def addThrough (c : Cpu) : Cpu :=
  c.setReg .ax (c.mem.read (c.mem.read (c.reg .sp) .long) .long +
    c.mem.read (c.reg .sp + 4) .long)

def pointingImage : Image :=
  { Image.ofCode pointingCode.code (by decide) with
    runtime := fun _ _ => addThrough
    returns := fun _ _ c => ⟨fun r member => by
      have other : r ≠ .ax := by rintro rfl; simp at member
      simp [addThrough, other], fun _ _ => rfl⟩ }

/-- The same on the side of the source, which knows the pointer as the address of `n`. -/
def addVariable (t : Terrain) : Callees Unit := fun _ args s =>
  match args with
  | [p, x] => if p = t.address ⟨1⟩ then .ok (s.vars ⟨1⟩ + x, ()) else .error .undefined
  | _ => .error .undefined

def pointingCpu : Cpu where
  reg := fun r => match r with | .sp => 4096 | .bp => 4112 | _ => 0
  flags := none
  mem := Memory.write (fun _ => 0) 4104 .long 7

theorem pointing_lasts : pointingImage.StackLasts ⟨.inside 0, pointingCpu, []⟩ :=
  Image.stackLasts_of_advance 16 rfl

theorem pointing_fulfils (base : Word) :
    pointingImage.Fulfils pointingEnv base pointing.names (fun _ _ => True)
      (addVariable (pointingEnv.terrain pointingImage.data base)) := by
  intro i c log s callee symbol args x rest found _ passes _ _ held _ lasts answer
  obtain ⟨p, y, rfl, rfl, rfl⟩ : ∃ p y, args = [p, y] ∧
      p = (pointingEnv.terrain pointingImage.data base).address ⟨1⟩ ∧ x = s.vars ⟨1⟩ + y := by
    unfold addVariable at answer
    split at answer
    · split at answer
      · cases answer
        exact ⟨_, _, rfl, by assumption, rfl⟩
      · cases answer
    · cases answer
  have external : pointingImage.find symbol.label = none := by
    refine Image.find_none ?_
    rw [show labelsOf pointingImage.code = [] by decide]
    exact List.not_mem_nil
  have returned := pointingImage.returns log symbol.label c
  refine ⟨1, _, _, Image.steps_routine found external lasts,
    ⟨returned.saved, fun a high => returned.above a (by omega)⟩, ?_, trivial⟩
  have first := passes 0 _ rfl
  have second := passes 1 _ rfl
  have number : c.mem.read _ .long = BitVec.setWidth 32 (s.vars ⟨1⟩) := held ⟨1⟩ (by decide)
  rw [BitVec.setWidth_eq] at number
  change (addThrough c).reg .ax = _
  rw [addThrough, Cpu.setReg_reg, if_pos rfl, ← number, ← first, ← second]
  simp

theorem expression_code_pointing :
    ∃ n c' log', pointing.code pointingEnv = .ok pointingCode ∧
      pointingImage.Steps n ⟨.inside 0, pointingCpu, []⟩ ⟨.inside 15, c', log'⟩ ∧
      c'.reg .ax = 95 ∧ c'.reg .sp = 4096 ∧ c'.mem.read 4108 .byte = 44 ∧
      c'.mem.read 4104 .long = 7 := by
  let t := pointingEnv.terrain pointingImage.data (pointingCpu.reg .bp)
  have spread : t.Spread pointing.names (pointingCpu.reg .sp).toNat (pointingCpu.reg .bp).toNat :=
    ⟨by decide, by decide, by decide⟩
  let s : Store Unit := ⟨fun v => if v = ⟨1⟩ then 7 else 0, ()⟩
  have held : t.Held pointing.names s.vars pointingCpu.mem := by
    unfold Terrain.Held
    decide
  have lowered : pointing.code pointingEnv = .ok pointingCode := rfl
  have here : pointingImage.Has 0 pointingCode.code :=
    @Image.has_middle _ _ [] [] (by simp [pointingImage, Image.ofCode])
  obtain ⟨_, _, runs⟩ := expression_code_yields_value lowered here spread held trivial
    (pointing_fulfils _) pointing_lasts
  obtain ⟨n, c', log', steps, gives, saved, slots, _⟩ := runs ⟨.long, 95⟩
    ⟨fun v => if v = ⟨0⟩ then 44 else s.vars v, ()⟩ rfl
  refine ⟨n, c', log', lowered, steps, ?_, saved .sp (by decide), slots ⟨0⟩ (by decide),
    slots ⟨1⟩ (by decide)⟩
  rw [Gives, Value.mk.injEq] at gives
  exact (Cpu.low_long c' .ax).symm.trans (eq_of_heq gives.2).symm

end Ia32Backend
