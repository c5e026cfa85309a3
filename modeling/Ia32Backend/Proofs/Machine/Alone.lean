import Ia32Backend.Proofs.Machine.Cpu
import Mathlib.Logic.Relation

/-!
The code of one function on its own. Whatever it calls comes back as the calling convention says,
with anything in the other registers, the flags and the memory below the stack pointer. A jump needs
its label to stand in the code once. What traps takes no step.
-/
namespace Ia32Backend

/-- What a caller finds after a call: the saved registers and its own part of memory. -/
structure Cpu.Returned (c c' : Cpu) : Prop where
  saved : ∀ r ∈ [Reg.sp, .bp, .bx, .si, .di], c'.reg r = c.reg r
  above : ∀ x : Word, (c.reg .sp).toNat ≤ x.toNat → c'.mem x = c.mem x

/-- The only position at which code defines a label. -/
def OnlyAt (code : List Instr) (name : String) (pos : Nat) : Prop :=
  code[pos]? = some (.label name) ∧ ∀ k, code[k]? = some (.label name) → k = pos

namespace Alone

inductive Step (data : String → Word) (code : List Instr) : Nat × Cpu → Nat × Cpu → Prop where
  | plain {pos : Nat} {i : Instr} {c c' : Cpu} (found : code[pos]? = some i)
      (done : c.exec data i = .ok c') : Step data code (pos, c) (pos + 1, c')
  | call {pos : Nat} {name : String} {c c' : Cpu} (found : code[pos]? = some (.call name))
      (room : 4 ≤ (c.reg .sp).toNat) (returned : c.Returned c') :
      Step data code (pos, c) (pos + 1, c')
  | jmp {pos there : Nat} {name : String} {c : Cpu} (found : code[pos]? = some (.jmp name))
      (only : OnlyAt code name there) : Step data code (pos, c) (there, c)
  | taken {pos there : Nat} {cond : Cond} {name : String} {c : Cpu} {f : Flags}
      (found : code[pos]? = some (.jump cond name)) (flags : c.flags = some f)
      (holds : cond.holds f = true) (only : OnlyAt code name there) :
      Step data code (pos, c) (there, c)
  | passed {pos : Nat} {cond : Cond} {name : String} {c : Cpu} {f : Flags}
      (found : code[pos]? = some (.jump cond name)) (flags : c.flags = some f)
      (fails : cond.holds f = false) : Step data code (pos, c) (pos + 1, c)

/-- A run from one position and state to another, over any number of steps. -/
def Run (data : String → Word) (code : List Instr) : Nat × Cpu → Nat × Cpu → Prop :=
  Relation.ReflTransGen (Step data code)

end Alone

end Ia32Backend
