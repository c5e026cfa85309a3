import Ia32Backend.Proofs.Machine.Alone
import Ia32Backend.Proofs.SlotAddress
import Ia32Backend.Proofs.StackDepth

/-!
What holds throughout a function's run. Against the state in which the function was entered, its
memory from the return address up is untouched, the caller's frame pointer is kept right below, the
saved registers are as they were, and the stack pointer is as deep as the position says.
-/
namespace Ia32Backend

/-- Where the stack pointer is put by a prologue that reserves so many bytes. -/
def stackBase (start : Cpu) (reserved : Nat) : Word :=
  ((start.reg .sp - 4) &&& -16) - BitVec.ofNat 32 reserved

/-- The registers that locate the frame, at a depth. -/
def Depth.Located (reserved : Nat) (start c : Cpu) : Depth → Prop
  | .pushed d => c.reg .bp = start.reg .sp - 4 ∧
      (c.reg .sp).toNat + d = (stackBase start reserved).toNat
  | .back => c.reg .sp = start.reg .sp ∧ c.reg .bp = start.reg .bp

/-- The invariant of a run that was entered at `start`. -/
structure Within (reserved : Nat) (start c : Cpu) (d : Depth) : Prop where
  saved : ∀ r ∈ [Reg.bx, .si, .di], c.reg r = start.reg r
  above : ∀ x : Word, (start.reg .sp).toNat ≤ x.toNat → c.mem x = start.mem x
  link : c.mem.read (start.reg .sp - 4) .long = start.reg .bp
  located : d.Located reserved start c

/-- Room for the caller's frame pointer and the reserved bytes. -/
structure Roomy (reserved : Nat) (start : Cpu) : Prop where
  link : 4 ≤ (start.reg .sp).toNat
  frame : (stackBase start reserved).toNat + reserved + 4 ≤ (start.reg .sp).toNat

/-- An instruction that writes, apart from what it pushes, into slots of the frame alone. -/
def Instr.WritesSlots (reserved : Nat) (i : Instr) : Prop :=
  (∃ src, i = .push src) ∨ ∀ c cell, i.written c = some cell →
    ∃ d, 4 ≤ d ∧ d ≤ reserved ∧ cell.1 = c.reg .bp - BitVec.ofNat 32 d

section
variable {reserved : Nat} {start c c' : Cpu} {data : String → Word}

theorem Roomy.linkAddress (room : Roomy reserved start) :
    (start.reg .sp - 4).toNat + 4 = (start.reg .sp).toNat := by
  have link := room.link
  rw [show (4 : Word) = BitVec.ofNat 32 4 from rfl, toNat_sub_ofNat link]
  omega

/-- Memory stays as the invariant wants it where the cell that is written ends below the frame. -/
theorem memory_below (room : Roomy reserved start) {cell : Option (Word × Width)} {m m' : Memory}
    (written : WrittenAt cell m m')
    (below : ∀ a w, cell = some (a, w) → a.toNat + w.bytes ≤ (start.reg .sp - 4).toNat) :
    (∀ x : Word, (start.reg .sp - 4).toNat ≤ x.toNat → m' x = m x) ∧
      m'.read (start.reg .sp - 4) .long = m.read (start.reg .sp - 4) .long := by
  have link := room.linkAddress
  have bound := (start.reg .sp).isLt
  suffices same : ∀ x : Word, (start.reg .sp - 4).toNat ≤ x.toNat → m' x = m x from
    ⟨same, Memory.read_congr (by simp only [Width.bytes]; omega) fun x inside => same x inside.1⟩
  intro x high
  cases cell with
  | none =>
    cases written
    rfl
  | some cell =>
    obtain ⟨a, w⟩ := cell
    obtain ⟨v, rfl⟩ := written
    have ends := below a w rfl
    apply Memory.write_outside m v (by omega)
    intro inside
    exact absurd inside.2 (by omega)

/-- Instructions that set none of the registers that matter and write below the frame. -/
theorem within_still (room : Roomy reserved start) {d : Nat} {i : Instr}
    (within : Within reserved start c (.pushed d)) (sets : i.sets ⊆ [.ax, .cx, .dx])
    (slots : i.WritesSlots reserved) (done : c.exec data i = .ok c') :
    Within reserved start c' (.pushed d) := by
  obtain ⟨regs, written⟩ := Cpu.exec_effect done
  obtain ⟨frame, depth⟩ := within.located
  have link := room.linkAddress
  have fits := room.frame
  have other : ∀ r, r ∉ [Reg.ax, .cx, .dx] → c'.reg r = c.reg r := fun r outside =>
    regs r fun member => outside (sets member)
  have below : ∀ a w, i.written c = some (a, w) →
      a.toNat + w.bytes ≤ (start.reg .sp - 4).toNat := by
    intro a w cell
    rcases slots with ⟨src, rfl⟩ | slot
    · simp [Instr.sets] at sets
    · obtain ⟨e, low, high, same⟩ := slot c (a, w) cell
      simp only [frame] at same
      have small : w.bytes ≤ 4 := by cases w <;> decide
      rw [same, toNat_sub_ofNat (by omega)]
      omega
  obtain ⟨above, kept⟩ := memory_below room written below
  refine ⟨?_, ?_, kept.trans within.link, ?_, ?_⟩
  · intro r member
    rw [← within.saved r member]
    exact other r (by revert member; cases r <;> decide)
  · intro x high
    rw [above x (by omega), within.above x high]
  · rw [other .bp (by decide), frame]
  · rw [other .sp (by decide), depth]

theorem within_push (room : Roomy reserved start) {d : Nat} {src : Operand}
    (within : Within reserved start c (.pushed d)) (done : c.exec data (.push src) = .ok c') :
    Within reserved start c' (.pushed (d + 4)) := by
  obtain ⟨regs, written⟩ := Cpu.exec_effect done
  obtain ⟨enough, rfl⟩ := Cpu.push_ok done
  obtain ⟨frame, depth⟩ := within.located
  have link := room.linkAddress
  have fits := room.frame
  have lowered : (c.reg .sp - 4).toNat = (c.reg .sp).toNat - 4 :=
    toNat_sub_ofNat (d := 4) enough
  obtain ⟨above, kept⟩ := memory_below room written (by
    intro a w cell
    cases cell
    simp only [Width.bytes]
    omega)
  refine ⟨?_, ?_, kept.trans within.link, ?_, ?_⟩
  · intro r member
    rw [← within.saved r member]
    exact regs r (by revert member; cases r <;> simp [Instr.sets])
  · intro x high
    rw [above x (by omega), within.above x high]
  · exact (regs .bp (by simp [Instr.sets])).trans frame
  · simp only [Cpu.setMem_reg, Cpu.setReg_reg, ↓reduceIte, lowered]
    omega

theorem within_raise {d n : Nat} {v : Word} (within : Within reserved start c (.pushed (d + n)))
    (same : v = BitVec.ofNat 32 n) (regs : ∀ r ∈ [Reg.bx, .si, .di, .bp], c'.reg r = c.reg r)
    (mem : c'.mem = c.mem) (raised : c'.reg .sp = c.reg .sp + v) :
    Within reserved start c' (.pushed d) := by
  obtain ⟨frame, depth⟩ := within.located
  have bound := (stackBase start reserved).isLt
  refine ⟨?_, ?_, ?_, ?_, ?_⟩
  · intro r member
    rw [← within.saved r member]
    exact regs r (by revert member; cases r <;> decide)
  · rw [mem]
    exact within.above
  · rw [mem]
    exact within.link
  · rw [regs .bp (by decide), frame]
  · rw [raised, same, BitVec.toNat_add, BitVec.toNat_ofNat]
    omega

theorem within_pop {d : Nat} {r : Reg} (general : r ∈ [Reg.ax, .cx, .dx])
    (within : Within reserved start c (.pushed (d + 4)))
    (done : c.exec data (.pop (.reg r)) = .ok c') : Within reserved start c' (.pushed d) := by
  obtain ⟨regs, written⟩ := Cpu.exec_effect done
  refine within_raise within rfl ?_ written ?_
  · intro q member
    apply regs
    revert general member
    cases q <;> cases r <;> simp [Instr.sets, Operand.regs]
  · cases done
    have other : Reg.sp ≠ r := by
      intro same
      subst same
      exact absurd general (by decide)
    simp [Cpu.drop, other]

theorem within_drop {d n : Nat} (within : Within reserved start c (.pushed (d + n)))
    (done : c.exec data (.arith .add .long (.imm (Int32.ofNat n)) (.reg .sp)) = .ok c') :
    Within reserved start c' (.pushed d) := by
  obtain ⟨regs, written⟩ := Cpu.exec_effect done
  refine within_raise within rfl ?_ written ?_
  · intro q member
    apply regs
    revert member
    cases q <;> simp [Instr.sets, Operand.regs]
  · cases done
    simp [Cpu.value, Cpu.blend, ArithOp.apply]

theorem within_leave (within : Within reserved start c (.pushed 0))
    (done : c.exec data .leave = .ok c') : Within reserved start c' .back := by
  obtain ⟨regs, written⟩ := Cpu.exec_effect done
  obtain ⟨frame, _⟩ := within.located
  have mem : c'.mem = c.mem := written
  refine ⟨?_, by rw [mem]; exact within.above, by rw [mem]; exact within.link, ?_, ?_⟩
  · intro r member
    rw [← within.saved r member]
    exact regs r (by revert member; cases r <;> simp [Instr.sets])
  · cases done
    simp only [Cpu.drop, Cpu.setReg_reg, frame, reduceCtorEq, ↓reduceIte]
    exact BitVec.sub_add_cancel _ _
  · cases done
    simp only [Cpu.drop, Cpu.top, Cpu.setReg_reg, Cpu.setReg_mem, ↓reduceIte, frame]
    exact within.link

theorem within_call (room : Roomy reserved start) {d : Nat}
    (within : Within reserved start c (.pushed d)) (returned : c.Returned c') :
    Within reserved start c' (.pushed d) := by
  obtain ⟨frame, depth⟩ := within.located
  have link := room.linkAddress
  have fits := room.frame
  have bound := (start.reg .sp).isLt
  refine ⟨?_, ?_, ?_, ?_, ?_⟩
  · intro r member
    rw [← within.saved r member]
    exact returned.saved r (by revert member; cases r <;> simp)
  · intro x high
    rw [returned.above x (by omega), within.above x high]
  · rw [← within.link]
    refine Memory.read_congr (by simp only [Width.bytes]; omega) ?_
    intro x inside
    exact returned.above x (by have low := inside.1; omega)
  · rw [returned.saved .bp (by simp), frame]
  · rw [returned.saved .sp (by simp), depth]

/-- An instruction takes the depth before it to the one behind it. -/
theorem within_exec (room : Roomy reserved start) {here there : Depth} {i : Instr}
    (within : Within reserved start c here) (moves : i.Moves here there)
    (slots : i.WritesSlots reserved) (done : c.exec data i = .ok c') :
    Within reserved start c' there := by
  cases moves with
  | push d src => exact within_push room within done
  | popAcc d => exact within_pop (by decide) within done
  | popOther d => exact within_pop (by decide) within done
  | drop d count => exact within_drop within done
  | call d name => cases done
  | label name =>
    cases done
    exact within
  | jmp name => cases done
  | jump cond name => cases done
  | still d sets plain => exact within_still room within sets slots done
  | leave => exact within_leave within done
  | ret => cases done

end

end Ia32Backend
