import Ia32Backend.Proofs.Accepted
import Ia32Backend.Proofs.Machine.Cpu

/-!
What an instruction can change: the registers it sets and the one cell of memory it may write. All
else is as it was.
-/
namespace Ia32Backend

/-- The register that an operand stands for as a destination. -/
def Operand.regs : Operand → List Reg
  | .reg r => [r]
  | _ => []

/-- The cell that an operand stands for as a destination. -/
def Operand.cell (c : Cpu) (w : Width) : Operand → Option (Word × Width)
  | .mem base disp => some (c.reg base + disp.toBitVec, w)
  | _ => none

namespace Instr

/-- Registers that an instruction sets. -/
def sets : Instr → List Reg
  | .mov _ _ dst => dst.regs
  | .movSigned _ dst => dst.regs
  | .movZero _ dst => dst.regs
  | .lea _ dst => dst.regs
  | .arith _ _ _ dst => dst.regs
  | .mulByte _ => [.ax]
  | .idiv _ _ => [.ax, .dx]
  | .cltd => [.dx]
  | .cbtw => [.ax]
  | .neg _ dst => dst.regs
  | .set _ dst => dst.regs
  | .xchg _ a b => a.regs ++ b.regs
  | .push _ => [.sp]
  | .pop dst => .sp :: dst.regs
  | .leave => [.sp, .bp]
  | _ => []

/-- The cell that an instruction writes. -/
def written (c : Cpu) : Instr → Option (Word × Width)
  | .mov w _ dst => dst.cell c w
  | .movSigned _ dst => dst.cell c .long
  | .movZero _ dst => dst.cell c .long
  | .lea _ dst => dst.cell c .long
  | .arith _ w _ dst => dst.cell c w
  | .neg w dst => dst.cell c w
  | .set _ dst => dst.cell c .byte
  | .push _ => some (c.reg .sp - 4, .long)
  | .pop dst => dst.cell c.drop .long
  | _ => none

end Instr

/-- A register to compute in. -/
def Operand.isGeneral : Operand → Bool
  | .reg .ax => true
  | .reg .cx => true
  | .reg .dx => true
  | _ => false

/-- Whether an instruction does no more than compute in the general registers. -/
def Instr.computes : Instr → Bool
  | .mov _ _ dst => dst.isGeneral
  | .movSigned _ dst => dst.isGeneral
  | .movZero _ dst => dst.isGeneral
  | .lea _ dst => dst.isGeneral
  | .arith _ _ _ dst => dst.isGeneral
  | .neg _ dst => dst.isGeneral
  | .set _ dst => dst.isGeneral
  | .xchg _ a b => a.isGeneral && b.isGeneral
  | .mulByte _ => true
  | .idiv _ _ => true
  | .cltd => true
  | .cbtw => true
  | .cmp _ _ _ => true
  | _ => false

theorem Operand.isGeneral_effect {o : Operand} (general : o.isGeneral = true) :
    o.regs ⊆ [.ax, .cx, .dx] ∧ ∀ c w, o.cell c w = none := by
  cases o with
  | reg r => cases r <;> first | exact ⟨by decide, fun _ _ => rfl⟩ | cases general
  | _ => cases general

theorem Instr.computes_effect {i : Instr} (computes : i.computes = true) :
    i.sets ⊆ [.ax, .cx, .dx] ∧ ∀ c, i.written c = none := by
  cases i with
  | xchg w a b =>
    obtain ⟨left, right⟩ := Bool.and_eq_true_iff.mp computes
    exact ⟨List.append_subset.mpr ⟨(Operand.isGeneral_effect left).1,
      (Operand.isGeneral_effect right).1⟩, fun _ => rfl⟩
  | mulByte src => exact ⟨by simp [sets], fun _ => rfl⟩
  | idiv w src => exact ⟨by simp [sets], fun _ => rfl⟩
  | cltd => exact ⟨by decide, fun _ => rfl⟩
  | cbtw => exact ⟨by decide, fun _ => rfl⟩
  | cmp w src dst => exact ⟨List.nil_subset _, fun _ => rfl⟩
  | _ => first
    | exact ⟨(Operand.isGeneral_effect computes).1,
        fun c => (Operand.isGeneral_effect computes).2 c _⟩
    | cases computes

theorem computes_operation (op : BinaryOp) (w : Width) :
    (op.code w).all Instr.computes = true := by
  cases op <;> cases w <;> rfl

theorem computes_extendTo (w wanted : Width) :
    (w.extendTo wanted).all Instr.computes = true := by
  cases w <;> cases wanted <;> rfl

/-- Memory that differs in one cell at most. -/
def WrittenAt (cell : Option (Word × Width)) (m m' : Memory) : Prop :=
  match cell with
  | none => m' = m
  | some (a, w) => ∃ v, m' = m.write a w v

namespace Cpu

theorem lower_ok {c c' : Cpu} {n : Word} (ok : c.lower n = .ok c') :
    n.toNat ≤ (c.reg .sp).toNat ∧ c' = c.setReg .sp (c.reg .sp - n) := by
  unfold lower at ok
  split at ok
  · cases ok
    exact ⟨by assumption, rfl⟩
  · cases ok

theorem push_ok {c c' : Cpu} {v : Word} (ok : c.push v = .ok c') :
    4 ≤ (c.reg .sp).toNat ∧ c' = (c.setReg .sp (c.reg .sp - 4)).setMem
      (c.mem.write (c.reg .sp - 4) .long v) := by
  simp only [push, bind_eq_ok, pure_eq_ok] at ok
  obtain ⟨lowered, room, rfl⟩ := ok
  obtain ⟨enough, rfl⟩ := lower_ok room
  exact ⟨enough, by simp⟩

theorem lower_stack {c : Cpu} {n : Word} {trap : Trap} (failed : c.lower n = .error trap) :
    trap = .stack := by
  unfold lower at failed
  split at failed <;> cases failed
  rfl

theorem push_stack {c : Cpu} {v : Word} {trap : Trap} (failed : c.push v = .error trap) :
    trap = .stack := by
  unfold push at failed
  cases lowered : c.lower 4 with
  | ok mid =>
    rw [lowered] at failed
    cases failed
  | error cause =>
    rw [lowered] at failed
    cases failed
    exact lower_stack lowered

/-- What a push leaves alone, and what it puts on top of the stack. -/
theorem push_effect {c c' : Cpu} {v : Word} (ok : c.push v = .ok c') :
    (c'.reg .sp).toNat + 4 = (c.reg .sp).toNat ∧ c'.top = v ∧
      (∀ r, r ≠ .sp → c'.reg r = c.reg r) ∧
      ∀ x : Word, (c.reg .sp).toNat ≤ x.toNat → c'.mem x = c.mem x := by
  obtain ⟨enough, rfl⟩ := push_ok ok
  have four : (4 : Word).toNat = 4 := rfl
  have bound := (c.reg .sp).isLt
  have sp : (c.reg .sp - 4).toNat + 4 = (c.reg .sp).toNat := by
    rw [BitVec.toNat_sub, four]
    omega
  refine ⟨?_, ?_, fun r other => by simp [other], fun x high => ?_⟩
  · simpa using sp
  · simp only [top, setMem_mem, setMem_reg, setReg_reg, if_pos]
    exact Memory.read_write_same _ _ _ _
  · refine Memory.write_outside _ _ (by simp only [Width.bytes]; omega) ?_
    rintro ⟨_, below⟩
    simp only [Width.bytes] at below
    omega

theorem assign_effect {c c' : Cpu} {w : Width} {v : BitVec w.bits} {o : Operand}
    (ok : c.assign w v o = .ok c') :
    (∀ r, r ∉ o.regs → c'.reg r = c.reg r) ∧ WrittenAt (o.cell c w) c.mem c'.mem := by
  cases o with
  | reg q =>
    cases ok
    refine ⟨?_, rfl⟩
    intro r other
    rw [Operand.regs, List.mem_singleton] at other
    simp [other]
  | mem base disp =>
    cases ok
    exact ⟨fun r _ => rfl, v, rfl⟩
  | imm n => cases ok
  | addr label => cases ok

theorem divide_effect {c c' : Cpu} {w : Width} {v : BitVec w.bits} (ok : c.divide w v = .ok c') :
    (∀ r, r ∉ [Reg.ax, .dx] → c'.reg r = c.reg r) ∧ c'.mem = c.mem := by
  cases w with
  | long =>
    simp only [divide] at ok
    split at ok
    · cases ok
      refine ⟨?_, rfl⟩
      intro r other
      simp only [List.mem_cons, List.not_mem_nil, or_false, not_or] at other
      simp [other]
    · cases ok
  | byte =>
    simp only [divide] at ok
    split at ok
    · cases ok
      refine ⟨?_, rfl⟩
      intro r other
      simp only [List.mem_cons, List.not_mem_nil, or_false, not_or] at other
      simp [other]
    · cases ok

/-- An assignment and a change of flags. -/
theorem assign_flags_effect {c c' : Cpu} {w : Width} {v : BitVec w.bits} {o : Operand}
    {f : Option Flags}
    (ok : (do pure ((← c.assign w v o).setFlags f) : Except Trap Cpu) = .ok c') :
    (∀ r, r ∉ o.regs → c'.reg r = c.reg r) ∧ WrittenAt (o.cell c w) c.mem c'.mem := by
  simp only [bind_eq_ok, pure_eq_ok] at ok
  obtain ⟨mid, assigned, rfl⟩ := ok
  obtain ⟨regs, mem⟩ := assign_effect assigned
  exact ⟨regs, mem⟩

theorem arith_effect {data : String → Word} {c c' : Cpu} {op : ArithOp} {w : Width}
    {src dst : Operand} (ok : c.exec data (.arith op w src dst) = .ok c') :
    (∀ r, r ∉ dst.regs → c'.reg r = c.reg r) ∧ WrittenAt (dst.cell c w) c.mem c'.mem := by
  unfold exec at ok
  split at ok <;> rename_i same <;> cases same
  · simp only [bind_eq_ok, pure_eq_ok] at ok
    obtain ⟨mid, room, rfl⟩ := ok
    obtain ⟨_, rfl⟩ := lower_ok room
    refine ⟨?_, rfl⟩
    intro r other
    rw [Operand.regs, List.mem_singleton] at other
    simp [other]
  · exact assign_flags_effect ok

theorem exec_effect {data : String → Word} {c c' : Cpu} {i : Instr}
    (ok : c.exec data i = .ok c') :
    (∀ r, r ∉ i.sets → c'.reg r = c.reg r) ∧ WrittenAt (i.written c) c.mem c'.mem := by
  cases i with
  | mov w src dst => exact assign_effect ok
  | movSigned src dst => exact assign_effect ok
  | movZero src dst => exact assign_effect ok
  | lea src dst =>
    cases src with
    | mem base disp => exact assign_effect ok
    | _ => cases ok
  | arith op w src dst => exact arith_effect ok
  | mulByte src =>
    cases ok
    exact ⟨fun r other => by simp [List.ne_of_not_mem_cons other], rfl⟩
  | idiv w src =>
    obtain ⟨regs, mem⟩ := divide_effect ok
    exact ⟨regs, mem⟩
  | cltd =>
    cases ok
    exact ⟨fun r other => by simp [List.ne_of_not_mem_cons other], rfl⟩
  | cbtw =>
    cases ok
    exact ⟨fun r other => by simp [List.ne_of_not_mem_cons other], rfl⟩
  | neg w dst => exact assign_flags_effect ok
  | cmp w src dst =>
    cases ok
    exact ⟨fun r _ => rfl, rfl⟩
  | set cond dst =>
    simp only [exec] at ok
    split at ok
    · exact assign_effect ok
    · cases ok
  | xchg w a b =>
    cases a with
    | reg r =>
      cases b with
      | reg q =>
        cases ok
        refine ⟨?_, rfl⟩
        intro p other
        simp only [Instr.sets, Operand.regs, List.mem_append, List.mem_singleton, not_or] at other
        simp [other]
      | _ => cases ok
    | _ => cases ok
  | push src =>
    obtain ⟨_, rfl⟩ := push_ok ok
    exact ⟨fun r other => by simp [List.ne_of_not_mem_cons other], _, rfl⟩
  | pop dst =>
    obtain ⟨regs, mem⟩ := assign_effect ok
    refine ⟨?_, mem⟩
    intro r other
    simp only [Instr.sets, List.mem_cons, not_or] at other
    rw [regs r other.2]
    simp [drop, other.1]
  | leave =>
    cases ok
    refine ⟨?_, rfl⟩
    intro r other
    simp only [Instr.sets, List.mem_cons, List.not_mem_nil, or_false, not_or] at other
    simp [drop, other]
  | label name =>
    cases ok
    exact ⟨fun r _ => rfl, rfl⟩
  | call target => cases ok
  | jmp target => cases ok
  | jump cond target => cases ok
  | ret => cases ok
  | globl name => cases ok
  | ascii text => cases ok

theorem run_cons_ok {data : String → Word} {c c' : Cpu} {i : Instr} {rest : List Instr} :
    c.run data (i :: rest) = .ok c' ↔
      ∃ mid, c.exec data i = .ok mid ∧ mid.run data rest = .ok c' := by
  simp only [run, bind_eq_ok]

theorem run_append_ok {data : String → Word} {c c' : Cpu} {a b : List Instr} :
    c.run data (a ++ b) = .ok c' ↔ ∃ mid, c.run data a = .ok mid ∧ mid.run data b = .ok c' := by
  induction a generalizing c with
  | nil => simp [run, pure_eq_ok]
  | cons i rest ih =>
    simp only [List.cons_append, run_cons_ok, ih]
    constructor
    · rintro ⟨mid, first, last, second, third⟩
      exact ⟨last, ⟨mid, first, second⟩, third⟩
    · rintro ⟨last, ⟨mid, first, second⟩, third⟩
      exact ⟨mid, first, last, second, third⟩

end Cpu

end Ia32Backend
