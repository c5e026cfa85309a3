import Ia32Backend.Proofs.Inline
import Ia32Backend.Proofs.Machine.Alone
import Ia32Backend.Proofs.Machine.Effects

/-!
When the left operand of a binary expression is saved on the stack. It waits in the other register
while the right operand is computed, and the question put to the tree of the right operand has the
same answer as the question put to its code: whether an instruction there calls or writes that
register. So it is saved exactly where it could be lost.
-/
namespace Ia32Backend

/-- Whether an instruction calls or writes the other register, as its destination or by what it
does besides. A division of bytes leaves its remainder in the accumulator. -/
def Instr.disturbsOther : Instr → Bool
  | .call _ => true
  | .idiv .byte _ => false
  | i => i.sets.contains .dx

/-- In some state, the instruction alone changes a register. A call may come back with anything in
a register that it need not keep. -/
def Instr.Changes (r : Reg) (i : Instr) : Prop :=
  ∃ data c c', Alone.Step data [i] (0, c) (1, c') ∧ c'.reg r ≠ c.reg r

/-! ### What keeps the other register -/

theorem Cpu.divide_byte_effect {c c' : Cpu} {v : BitVec Width.byte.bits}
    (ok : c.divide .byte v = .ok c') : ∀ r, r ≠ .ax → c'.reg r = c.reg r := by
  intro r other
  simp only [divide] at ok
  split at ok
  · cases ok
    simp [other]
  · cases ok

theorem Cpu.exec_other {data : String → Word} {c c' : Cpu} {i : Instr}
    (calm : i.disturbsOther = false) (ok : c.exec data i = .ok c') :
    c'.reg .dx = c.reg .dx := by
  unfold Instr.disturbsOther at calm
  split at calm
  · cases calm
  · exact divide_byte_effect ok .dx (by decide)
  · refine (exec_effect ok).1 .dx fun member => ?_
    rw [List.contains_iff_mem.mpr member] at calm
    cases calm

namespace Alone

variable {data : String → Word} {code : List Instr} {here there : Nat × Cpu}

theorem step_other (calm : ∀ i ∈ code, i.disturbsOther = false)
    (step : Step data code here there) : there.2.reg .dx = here.2.reg .dx := by
  cases step with
  | plain found done => exact Cpu.exec_other (calm _ (List.mem_of_getElem? found)) done
  | call found room returned => cases calm _ (List.mem_of_getElem? found)
  | jmp found only => rfl
  | taken found flags holds only => rfl
  | passed found flags fails => rfl

theorem run_other (calm : ∀ i ∈ code, i.disturbsOther = false)
    (run : Run data code here there) : there.2.reg .dx = here.2.reg .dx := by
  induction run with
  | refl => rfl
  | tail _ step ih => exact (step_other calm step).trans ih

end Alone

namespace Instr

variable {i : Instr}

theorem disturbs_of_changes (changes : i.Changes .dx) : i.disturbsOther = true := by
  obtain ⟨data, c, c', step, changed⟩ := changes
  cases calm : i.disturbsOther with
  | true => rfl
  | false =>
    refine (changed (Alone.step_other (fun j member => ?_) step)).elim
    rw [List.mem_singleton.mp member, calm]

/-! ### What changes it -/

/-- A state in which the other register is zero and no copy, exchange, sign or remainder is. -/
def probe : Cpu where
  reg := fun r => match r with
    | .dx => 0
    | .cx => 4
    | _ => -1
  flags := none
  mem := fun _ => 1

theorem changes_of_exec {c : Cpu} (ok : probe.exec (fun _ => 0) i = .ok c)
    (changed : c.reg .dx ≠ 0) : i.Changes .dx :=
  ⟨fun _ => 0, probe, c, .plain rfl ok, changed⟩

theorem changes_call (target : String) : (Instr.call target).Changes .dx := by
  refine ⟨fun _ => 0, probe, probe.setReg .dx 1, .call rfl (by decide) ⟨?_, fun _ _ => rfl⟩,
    by decide⟩
  decide

end Instr

theorem Env.place_other {env : Env} {v : VarId} {p : Place} (place : env.place v = .ok p)
    (w : Width) : (Instr.mov w .acc p.operand).disturbsOther = false := by
  obtain ⟨s, offset, _, _, rfl⟩ := place_ok place
  rfl

/-- Of the instructions of an expression, exactly those disturb the other register that change it
in some state. -/
theorem Instr.Inline.disturbs_iff {env : Env} {names : List VarId} {i : Instr}
    (inline : i.Inline env names) : i.disturbsOther = true ↔ i.Changes .dx := by
  refine ⟨fun disturbs => ?_, disturbs_of_changes⟩
  cases inline with
  | store known place =>
    rw [Env.place_other place] at disturbs
    cases disturbs
  | keep w => cases w <;> exact changes_of_exec rfl (by decide)
  | restore => exact changes_of_exec rfl (by decide)
  | swap w => cases w <;> exact changes_of_exec rfl (by decide)
  | cltd => exact changes_of_exec rfl (by decide)
  | divide w =>
    cases w with
    | byte => cases disturbs
    | long => exact changes_of_exec rfl (by decide)
  | call found => exact changes_call _
  | _ => cases disturbs

/-! ### Code of expressions -/

section
variable {env : Env}

theorem any_extendTo (w wanted : Width) :
    (w.extendTo wanted).any Instr.disturbsOther = false := by
  cases w <;> cases wanted <;> rfl

theorem any_at (v : ValueCode) (w : Width) :
    (v.at w).any Instr.disturbsOther = v.code.any Instr.disturbsOther := by
  rw [ValueCode.at, List.any_append, any_extendTo, Bool.or_false]

/-- The question put to a tree and to its code. -/
theorem Expr.any_code (e : Expr) :
    ∀ v, e.code env = .ok v → v.code.any Instr.disturbsOther = e.usesOther := by
  induction e using Expr.args_induction with
  | ident ty x =>
    intro v ok
    obtain ⟨p, _, rfl⟩ := code_ident_ok ok
    rfl
  | lit ty node x =>
    intro v ok
    obtain ⟨o, _, rfl⟩ := code_lit_ok ok
    rfl
  | assign ty target value ih =>
    intro v ok
    obtain ⟨p, inner, place, lowered, rfl⟩ := code_assign_ok ok
    rw [Place.store, List.any_append, any_at, ih inner lowered, List.any_cons, List.any_nil,
      Env.place_other place, Bool.or_false, Bool.or_false, usesOther]
  | unary ty op operand ih =>
    intro v ok
    cases op with
    | addressOf =>
      obtain ⟨kind, x, p, rfl, _, rfl⟩ := code_addressOf_ok ok
      rfl
    | not =>
      obtain ⟨inner, lowered, rfl⟩ := code_not_ok ok
      rw [ValueCode.not, List.any_append, ih inner lowered]
      exact Bool.or_false _
    | negate =>
      obtain ⟨inner, lowered, rfl⟩ := code_negate_ok ok
      rw [ValueCode.negate, List.any_append, ih inner lowered]
      exact Bool.or_false _
  | binary ty op left right _ _ =>
    intro v ok
    obtain ⟨w, l, r, _, _, _, rfl⟩ := code_binary_ok ok
    exact List.any_eq_true.mpr ⟨.mov w .acc .other, by simp [binaryCode], rfl⟩
  | call ty callee args _ =>
    intro v ok
    obtain ⟨f, pushed, _, _, rfl⟩ := code_call_ok ok
    exact List.any_eq_true.mpr ⟨.call f.label, by simp [callCode], rfl⟩

end

/-- The code of an expression holds an instruction that disturbs the other register exactly if the
tree says so, and such an instruction can indeed change it. The left operand of a binary expression
is saved exactly if the code of the right one disturbs the register that it waits in. Where it is
not saved, no step of that code changes the register, in whatever state it starts. -/
theorem other_saved_iff_disturbed (env : Env) :
    (∀ (e : Expr) v, e.code env = .ok v →
      (e.usesOther = true ↔ ∃ i ∈ v.code, i.disturbsOther = true) ∧
      ∀ i ∈ v.code, i.disturbsOther = true ↔ i.Changes .dx) ∧
    ∀ ty op (left right : Expr) v, (Expr.binary ty op left right).code env = .ok v →
      ∃ w l r, (left.ty.promote right.ty).operationWidth = .ok w ∧
        left.code env = .ok l ∧ right.code env = .ok r ∧
        ((∃ i ∈ r.code, i.disturbsOther = true) ∧
            v.code = l.at w ++ [.mov w .acc .other] ++ [.push .other] ++ r.at w ++
              [.pop .other] ++ [.xchg w .acc .other] ++ op.code w ∨
          (∀ i ∈ r.code, i.disturbsOther = false) ∧
            v.code = l.at w ++ [.mov w .acc .other] ++ r.at w ++
              [.xchg w .acc .other] ++ op.code w ∧
            ∀ data c pos c', Alone.Run data (r.at w) (0, c) (pos, c') →
              c'.reg .dx = c.reg .dx) := by
  refine ⟨fun e v ok => ⟨?_, fun i member => ?_⟩, ?_⟩
  · rw [← e.any_code v ok, List.any_eq_true]
  · exact (e.inlined_code env v ok i member).disturbs_iff
  · intro ty op left right v ok
    obtain ⟨w, l, r, width, first, second, rfl⟩ := Expr.code_binary_ok ok
    refine ⟨w, l, r, width, first, second, ?_⟩
    have asked := right.any_code r second
    cases saved : right.usesOther with
    | true =>
      rw [saved, List.any_eq_true] at asked
      exact .inl ⟨asked, rfl⟩
    | false =>
      rw [saved, ← any_at r w, List.any_eq_false] at asked
      have calm : ∀ i ∈ r.at w, i.disturbsOther = false := fun i member =>
        Bool.eq_false_iff.mpr (asked i member)
      exact .inr ⟨fun i member => calm i (List.mem_append_left _ member), by simp [binaryCode],
        fun data c pos c' run => Alone.run_other calm run⟩

/-- A number `x` and a character `c`. -/
def letterEnv : Env where
  symbols := { functions := [], vars := [⟨"x", .int, ⟨0⟩⟩, ⟨"c", .char, ⟨0⟩⟩] }
  config := {}
  strings := {}
  frames := ((({} : Frames).allocate ⟨0⟩ .int ⟨0⟩).2.allocate ⟨0⟩ .char ⟨1⟩).2

/-- `c = -(c / 'b')`, a division of bytes inside. -/
def dividedLetter : Expr :=
  .assign .char ⟨1⟩ (.unary .char .negate
    (.binary .char .divide (.ident .char ⟨1⟩) (.lit .char ⟨0⟩ (.char 'b'))))

/-- `x = !-c`, in the accumulator throughout. -/
def testedLetter : Expr :=
  .assign .int ⟨0⟩ (.unary .bool .not (.unary .char .negate (.ident .char ⟨1⟩)))

theorem other_saved_letters :
    (∃ r, dividedLetter.code letterEnv = .ok r ∧ ∃ i ∈ r.code, i.disturbsOther = true) ∧
    ∃ r, testedLetter.code letterEnv = .ok r ∧ (∀ i ∈ r.code, i.disturbsOther = false) ∧
      ∀ data c pos c', Alone.Run data (r.at .long) (0, c) (pos, c') →
        c'.reg .dx = c.reg .dx := by
  have asked := (other_saved_iff_disturbed letterEnv).1
  refine ⟨⟨_, rfl, (asked dividedLetter _ rfl).1.mp rfl⟩, ?_⟩
  obtain ⟨w, l, r, width, _, lowered, saved | unsaved⟩ := (other_saved_iff_disturbed letterEnv).2
    .int .plus (.ident .int ⟨0⟩) testedLetter _ rfl
  · cases (asked testedLetter r lowered).1.mpr saved.1
  · cases width
    exact ⟨r, lowered, unsaved.1, unsaved.2.2⟩

end Ia32Backend
