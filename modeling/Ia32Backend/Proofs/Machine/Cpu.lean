import Ia32Backend.Proofs.Machine.Memory

/-!
The target's processor, one instruction at a time. Flags that an instruction leaves undefined are
absent afterwards, and nothing can be tested on them. A division whose quotient does not exist or
does not fit, and a stack pointer that would pass below address zero, end the run.
-/
namespace Ia32Backend

structure Flags where
  zero : Bool
  sign : Bool
  overflow : Bool
  deriving DecidableEq, Repr

namespace Flags

def ofResult {n : Nat} (r : BitVec n) (overflow : Bool) : Flags := ⟨r == 0#n, r.msb, overflow⟩

def ofSub {n : Nat} (a b : BitVec n) : Flags := ofResult (a - b) (BitVec.ssubOverflow a b)

def ofNeg {n : Nat} (a : BitVec n) : Flags := ofResult (-a) (a == BitVec.intMin n)

end Flags

def Cond.holds (f : Flags) : Cond → Bool
  | .e => f.zero
  | .ne => !f.zero
  | .l => f.sign != f.overflow
  | .ge => f.sign == f.overflow
  | .g => !f.zero && f.sign == f.overflow
  | .le => f.zero || f.sign != f.overflow

/-- The result for the destination. -/
def ArithOp.apply {n : Nat} (src dst : BitVec n) : ArithOp → BitVec n
  | .add => dst + src
  | .sub => dst - src
  | .imul => dst * src
  | .and => dst &&& src
  | .or => dst ||| src

def ArithOp.flags {n : Nat} (src dst : BitVec n) : ArithOp → Option Flags
  | .add => some (.ofResult (dst + src) (BitVec.saddOverflow dst src))
  | .sub => some (.ofSub dst src)
  | .imul => none
  | .and => some (.ofResult (dst &&& src) false)
  | .or => some (.ofResult (dst ||| src) false)

/-- Quotient and remainder of a signed division that truncates, where the quotient fits. -/
def quotient? (n : Nat) (dividend divisor : Int) : Option (BitVec n × BitVec n) :=
  let q := dividend.tdiv divisor
  if divisor = 0 ∨ q < -2 ^ (n - 1) ∨ 2 ^ (n - 1) ≤ q then none
  else some (BitVec.ofInt n q, BitVec.ofInt n (dividend.tmod divisor))

/-- Why a run ends. -/
inductive Trap where
  | divide
  | stack
  | stuck
  deriving DecidableEq, Repr

structure Cpu where
  reg : Reg → Word
  flags : Option Flags
  mem : Memory

namespace Cpu

def setReg (c : Cpu) (r : Reg) (v : Word) : Cpu :=
  { c with reg := fun q => if q = r then v else c.reg q }

def setFlags (c : Cpu) (f : Option Flags) : Cpu := { c with flags := f }

def setMem (c : Cpu) (m : Memory) : Cpu := { c with mem := m }

/-- A byte register is the low end of a long one. -/
def blend (old : Word) : (w : Width) → BitVec w.bits → Word
  | .byte, v => old.extractLsb' 8 24 ++ (v : BitVec 8)
  | .long, v => v

/-- What an operand stands for. The address of a label is given by `data`. -/
def value (data : String → Word) (c : Cpu) (w : Width) : Operand → BitVec w.bits
  | .reg r => (c.reg r).setWidth w.bits
  | .mem base disp => c.mem.read (c.reg base + disp.toBitVec) w
  | .imm v => v.toBitVec.setWidth w.bits
  | .addr label => (data label).setWidth w.bits

def assign (c : Cpu) (w : Width) (v : BitVec w.bits) : Operand → Except Trap Cpu
  | .reg r => .ok (c.setReg r (blend (c.reg r) w v))
  | .mem base disp => .ok (c.setMem (c.mem.write (c.reg base + disp.toBitVec) w v))
  | .imm _ => .error .stuck
  | .addr _ => .error .stuck

/-- Moves the stack pointer down. -/
def lower (c : Cpu) (n : Word) : Except Trap Cpu :=
  if n.toNat ≤ (c.reg .sp).toNat then .ok (c.setReg .sp (c.reg .sp - n)) else .error .stack

def push (c : Cpu) (v : Word) : Except Trap Cpu := do
  let c ← c.lower 4
  pure (c.setMem (c.mem.write (c.reg .sp) .long v))

/-- The long on top of the stack. -/
def top (c : Cpu) : Word := c.mem.read (c.reg .sp) .long

def drop (c : Cpu) : Cpu := c.setReg .sp (c.reg .sp + 4)

def divide (c : Cpu) (w : Width) (divisor : BitVec w.bits) : Except Trap Cpu :=
  match w with
  | .long =>
    match quotient? 32 (c.reg .dx ++ c.reg .ax).toInt divisor.toInt with
    | some (q, r) => .ok (((c.setReg .ax q).setReg .dx r).setFlags none)
    | none => .error .divide
  | .byte =>
    match quotient? 8 ((c.reg .ax).setWidth 16).toInt divisor.toInt with
    | some (q, r) =>
      .ok ((c.setReg .ax ((c.reg .ax).extractLsb' 16 16 ++ r ++ q)).setFlags none)
    | none => .error .divide

/-- The effect of an instruction that goes on to the next one. -/
def exec (data : String → Word) (c : Cpu) : Instr → Except Trap Cpu
  | .mov w src dst => c.assign w (c.value data w src) dst
  | .movSigned src dst => c.assign .long ((c.value data .byte src).signExtend 32) dst
  | .movZero src dst => c.assign .long ((c.value data .byte src).setWidth 32) dst
  | .lea (.mem base disp) dst => c.assign .long (c.reg base + disp.toBitVec) dst
  | .lea _ _ => .error .stuck
  | .arith .sub .long src (.reg .sp) => do
      let n := c.value data .long src
      pure ((← c.lower n).setFlags (some (.ofSub (c.reg .sp) n)))
  | .arith op w src dst => do
      let a := c.value data w src
      let b := c.value data w dst
      pure ((← c.assign w (op.apply a b) dst).setFlags (op.flags a b))
  | .mulByte src =>
      let al : BitVec 8 := (c.reg .ax).setWidth 8
      let product : BitVec 16 := al.signExtend 16 * (c.value data .byte src).signExtend 16
      .ok ((c.setReg .ax ((c.reg .ax).extractLsb' 16 16 ++ product)).setFlags none)
  | .idiv w src => c.divide w (c.value data w src)
  | .cltd => .ok (c.setReg .dx (if (c.reg .ax).msb then -1 else 0))
  | .cbtw =>
      let al : BitVec 8 := (c.reg .ax).setWidth 8
      .ok (c.setReg .ax ((c.reg .ax).extractLsb' 16 16 ++ al.signExtend 16))
  | .neg w dst => do
      let a := c.value data w dst
      pure ((← c.assign w (-a) dst).setFlags (some (.ofNeg a)))
  | .cmp w src dst =>
      .ok (c.setFlags (some (.ofSub (c.value data w dst) (c.value data w src))))
  | .set cond dst =>
      match c.flags with
      | some f => c.assign .byte (if cond.holds f then 1#8 else 0#8) dst
      | none => .error .stuck
  | .xchg w (.reg r) (.reg q) =>
      let old := c.value data w (.reg r)
      let c' := c.setReg r (blend (c.reg r) w (c.value data w (.reg q)))
      .ok (c'.setReg q (blend (c'.reg q) w old))
  | .xchg _ _ _ => .error .stuck
  | .push src => c.push (c.value data .long src)
  | .pop dst => c.drop.assign .long c.top dst
  | .leave =>
      let c' := c.setReg .sp (c.reg .bp)
      .ok (c'.drop.setReg .bp c'.top)
  | .label _ => .ok c
  | .call _ => .error .stuck
  | .jmp _ => .error .stuck
  | .jump _ _ => .error .stuck
  | .ret => .error .stuck
  | .globl _ => .error .stuck
  | .ascii _ => .error .stuck

/-- The effect of a piece of code without jumps and calls. -/
def run (data : String → Word) (c : Cpu) : List Instr → Except Trap Cpu
  | [] => pure c
  | i :: rest => do run data (← c.exec data i) rest

/-! Registers, flags and memory after each kind of change. -/

section
variable (c : Cpu) (r q : Reg) (v : Word) (f : Option Flags) (m : Memory)

@[simp] theorem setReg_reg : (c.setReg r v).reg q = if q = r then v else c.reg q := rfl
@[simp] theorem setReg_flags : (c.setReg r v).flags = c.flags := rfl
@[simp] theorem setReg_mem : (c.setReg r v).mem = c.mem := rfl
@[simp] theorem setFlags_reg : (c.setFlags f).reg q = c.reg q := rfl
@[simp] theorem setFlags_flags : (c.setFlags f).flags = f := rfl
@[simp] theorem setFlags_mem : (c.setFlags f).mem = c.mem := rfl
@[simp] theorem setMem_reg : (c.setMem m).reg q = c.reg q := rfl
@[simp] theorem setMem_flags : (c.setMem m).flags = c.flags := rfl
@[simp] theorem setMem_mem : (c.setMem m).mem = m := rfl

end

@[simp] theorem setWidth_blend (old : Word) (w : Width) (v : BitVec w.bits) :
    (blend old w v).setWidth w.bits = v := by
  cases w with
  | byte =>
    have low : ((old.extractLsb' 8 24 ++ (v : BitVec 8)).setWidth 8) = v := by
      rw [BitVec.setWidth_append, dif_pos (by decide), BitVec.setWidth_eq]
    exact low
  | long => exact BitVec.setWidth_eq v

end Cpu

end Ia32Backend
