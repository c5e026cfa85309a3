import Ia32Backend.Proofs.Machine.Effects
import Ia32Backend.Proofs.Meaning.Value

/-!
What the code of an operator computes: from the low ends of two registers, the source language's
result in the low end of the accumulator, or a divide fault where the source has no result.
-/
namespace Ia32Backend

/-! Signed conditions after a comparison. -/

namespace Flags

theorem zero_ofSub {n : Nat} (a b : BitVec n) : (ofSub a b).zero = (a == b) := by
  rw [Bool.eq_iff_iff]
  simp [ofSub, ofResult, BitVec.sub_eq_iff_eq_add]

theorem sign_ne_overflow {w : Width} (a b : BitVec w.bits) :
    ((ofSub a b).sign != (ofSub a b).overflow) = a.slt b := by
  have lowA := BitVec.le_toInt a
  have highA := BitVec.toInt_lt (x := a)
  have lowB := BitVec.le_toInt b
  have highB := BitVec.toInt_lt (x := b)
  have difference := BitVec.toInt_sub (x := a) (y := b)
  rw [Int.bmod_def] at difference
  rw [Bool.eq_iff_iff]
  simp only [ofSub, ofResult, BitVec.msb_eq_toInt, BitVec.ssubOverflow, BitVec.slt_eq_decide,
    bne_iff_ne, ne_eq, ← Bool.decide_or, decide_eq_decide, decide_eq_true_eq]
  cases w <;> simp only [Width.bits] at * <;> split at difference <;> omega

end Flags

theorem Cond.holds_ofSub {w : Width} (a b : BitVec w.bits) :
    Cond.e.holds (.ofSub a b) = (a == b) ∧ Cond.ne.holds (.ofSub a b) = (a != b) ∧
      Cond.l.holds (.ofSub a b) = a.slt b ∧ Cond.le.holds (.ofSub a b) = a.sle b ∧
      Cond.g.holds (.ofSub a b) = b.slt a ∧ Cond.ge.holds (.ofSub a b) = b.sle a := by
  have zero := Flags.zero_ofSub a b
  have less := Flags.sign_ne_overflow a b
  have least : ((Flags.ofSub a b).sign == (Flags.ofSub a b).overflow) = !a.slt b := by
    rw [← less, bne, Bool.not_not]
  have strict : b.slt a = !a.sle b := by rw [BitVec.sle_eq_not_slt, Bool.not_not]
  refine ⟨zero, ?_, less, ?_, ?_, ?_⟩
  · rw [holds, zero, bne]
  · rw [holds, zero, less, BitVec.sle_eq_slt_or_eq, Bool.or_comm]
  · rw [holds, zero, least, strict, BitVec.sle_eq_slt_or_eq, Bool.not_or, Bool.and_comm]
  · rw [holds, least, BitVec.sle_eq_not_slt]

/-- A division faults just where the source has no quotient. -/
theorem quotient?_eq {w : Width} (a b : BitVec w.bits) :
    quotient? w.bits a.toInt b.toInt =
      if b = 0 ∨ (a = BitVec.intMin w.bits ∧ b = -1) then none
      else some (a.sdiv b, a.srem b) := by
  by_cases zero : b = 0
  · simp [quotient?, zero]
  · by_cases least : a = BitVec.intMin w.bits ∧ b = -1
    · obtain ⟨rfl, rfl⟩ := least
      cases w <;> decide
    · have other : a ≠ BitVec.intMin w.bits ∨ b ≠ -1 := by
        rwa [Decidable.not_and_iff_or_not] at least
      have fits := BitVec.toInt_sdiv_of_ne_or_ne a b other
      have low := BitVec.le_toInt (a.sdiv b)
      have high := BitVec.toInt_lt (x := a.sdiv b)
      have divisor : b.toInt ≠ 0 := by
        intro same
        exact zero (BitVec.eq_of_toInt_eq (by simpa using same))
      rw [quotient?, ← fits, ← BitVec.toInt_srem, if_neg (by omega),
        if_neg (not_or.mpr ⟨zero, least⟩), BitVec.ofInt_toInt, BitVec.ofInt_toInt]

namespace Cpu

/-- The low end of a register. -/
def low (c : Cpu) (w : Width) (r : Reg) : BitVec w.bits := (c.reg r).setWidth w.bits

@[simp] theorem low_long (c : Cpu) (r : Reg) : c.low .long r = c.reg r := BitVec.setWidth_eq _

theorem signExtend_low_long (c : Cpu) (r : Reg) : (c.low .long r).signExtend 32 = c.reg r :=
  (BitVec.signExtend_eq _).trans (low_long c r)

@[simp] theorem low_setFlags (c : Cpu) (f : Option Flags) (w : Width) (r : Reg) :
    (c.setFlags f).low w r = c.low w r := rfl

@[simp] theorem low_setReg_blend (c : Cpu) (w : Width) (r : Reg) (old : Word)
    (v : BitVec w.bits) : (c.setReg r (blend old w v)).low w r = v := by
  rw [low, setReg_reg, if_pos rfl, setWidth_blend]

theorem low_setReg_of_ne (c : Cpu) {r q : Reg} (other : q ≠ r) (v : Word) (w : Width) :
    (c.setReg r v).low w q = c.low w q := by
  rw [low, setReg_reg, if_neg other, low]

/-! Code that leaves a register, or memory, as it is. -/

section
variable {data : String → Word} {code : List Instr}

theorem run_reg {r : Reg} (spared : ∀ i ∈ code, r ∉ i.sets) :
    ∀ {c c' : Cpu}, c.run data code = .ok c' → c'.reg r = c.reg r := by
  induction code with
  | nil =>
    intro c c' ran
    cases pure_eq_ok.mp ran
    rfl
  | cons i rest ih =>
    intro c c' ran
    obtain ⟨mid, first, later⟩ := run_cons_ok.mp ran
    rw [ih (fun j member => spared j (List.mem_cons_of_mem i member)) later]
    exact (exec_effect first).1 r (spared i List.mem_cons_self)

theorem run_mem (pure : ∀ i ∈ code, ∀ c, i.written c = none) :
    ∀ {c c' : Cpu}, c.run data code = .ok c' → c'.mem = c.mem := by
  induction code with
  | nil =>
    intro c c' ran
    cases pure_eq_ok.mp ran
    rfl
  | cons i rest ih =>
    intro c c' ran
    obtain ⟨mid, first, later⟩ := run_cons_ok.mp ran
    rw [ih (fun j member => pure j (List.mem_cons_of_mem i member)) later]
    have effect := (exec_effect first).2
    rw [pure i List.mem_cons_self c] at effect
    exact effect

end

/-! One operator after the other. -/

section
variable (data : String → Word) (c : Cpu)

theorem exec_arith {op : ArithOp} {w : Width} {src : Operand} {r : Reg} (other : r ≠ .sp) :
    c.exec data (.arith op w src (.reg r)) =
      .ok ((c.setReg r (blend (c.reg r) w (op.apply (c.value data w src) (c.low w r)))).setFlags
        (op.flags (c.value data w src) (c.low w r))) := by
  cases op <;> cases w <;> cases r <;> first | rfl | exact absurd rfl other

theorem run_arith (op : ArithOp) (w : Width) :
    ∃ c', c.run data [.arith op w .other .acc] = .ok c' ∧
      c'.low w .ax = op.apply (c.low w .dx) (c.low w .ax) := by
  refine ⟨_, by rw [run, exec_arith data c (by decide)]; rfl, ?_⟩
  rw [low_setFlags, low_setReg_blend]
  rfl

theorem run_multiply (w : Width) :
    ∃ c', c.run data [multiplyCode w] = .ok c' ∧ c'.low w .ax = c.low w .ax * c.low w .dx := by
  cases w with
  | byte =>
    have product : ∀ (high : BitVec 16) (a b : BitVec 8),
        (high ++ a.signExtend 16 * b.signExtend 16).setWidth 8 = a * b := by
      intro high a b
      rw [BitVec.setWidth_append, dif_pos (by decide), BitVec.setWidth_mul _ _ (by decide)]
      rw [Value.setWidth_signExtend a (by decide), Value.setWidth_signExtend b (by decide)]
    exact ⟨_, rfl, product _ _ _⟩
  | long => exact run_arith data c .imul .long

theorem toInt_extended (x : Word) : ((if x.msb then -1 else 0 : Word) ++ x).toInt = x.toInt := by
  have ones : (-1 : Word).toInt = -1 := by decide
  rw [BitVec.toInt_append, if_neg (by decide), BitVec.toInt_eq_msb_cond (x := x)]
  cases x.msb with
  | false => simp
  | true =>
    rw [if_pos rfl, if_pos rfl, ones]
    omega

/-- The dividend of a division, in the accumulator and, of a long one, the other register. -/
def dividend (c : Cpu) : Width → Int
  | .long => (c.reg .dx ++ c.reg .ax).toInt
  | .byte => ((c.reg .ax).setWidth 16).toInt

theorem divide_eq {w : Width} {a : BitVec w.bits} (b : BitVec w.bits)
    (extended : c.dividend w = a.toInt) :
    match BinaryOp.divide.apply a b with
    | some q => ∃ c', c.divide w b = .ok c' ∧ c'.low w .ax = q
    | none => c.divide w b = .error .divide := by
  have found := quotient?_eq a b
  rw [← extended] at found
  rw [BinaryOp.apply]
  by_cases faults : b = 0 ∨ (a = BitVec.intMin w.bits ∧ b = -1)
  · rw [if_pos faults] at found ⊢
    cases w with
    | byte =>
      simp only [dividend] at found
      simp only [divide]
      rw [found]
    | long =>
      simp only [dividend] at found
      simp only [divide]
      rw [found]
  · rw [if_neg faults] at found ⊢
    cases w with
    | byte =>
      simp only [dividend] at found
      refine ⟨_, by simp only [divide]; rw [found], ?_⟩
      exact BitVec.setWidth_append_eq_right
    | long =>
      simp only [dividend] at found
      refine ⟨_, by simp only [divide]; rw [found], ?_⟩
      exact BitVec.setWidth_eq _

theorem run_divide (w : Width) :
    match BinaryOp.divide.apply (c.low w .ax) (c.low w .dx) with
    | some q => ∃ c', c.run data (divideCode w) = .ok c' ∧ c'.low w .ax = q
    | none => c.run data (divideCode w) = .error .divide := by
  suffices extended : ∃ mid : Cpu, mid.dividend w = (c.low w .ax).toInt ∧
      mid.low w .cx = c.low w .dx ∧
      c.run data (divideCode w) = mid.divide w (mid.low w .cx) >>= pure by
    obtain ⟨mid, dividend, divisor, ran⟩ := extended
    have divided := divide_eq mid (c.low w .dx) dividend
    rw [ran, divisor]
    revert divided
    cases BinaryOp.divide.apply (c.low w .ax) (c.low w .dx) with
    | none =>
      intro faults
      rw [faults]
      rfl
    | some q =>
      rintro ⟨c', ok, result⟩
      exact ⟨c', by rw [ok]; rfl, result⟩
  cases w with
  | byte =>
    refine ⟨(c.setReg .cx (blend (c.reg .cx) .byte (c.low .byte .dx))).setReg .ax
      ((c.reg .ax).extractLsb' 16 16 ++ (c.low .byte .ax).signExtend 16), ?_, ?_, rfl⟩
    · rw [dividend, setReg_reg, if_pos rfl, BitVec.setWidth_append_eq_right,
        BitVec.toInt_signExtend_of_le (by decide)]
    · rw [low_setReg_of_ne _ (by decide), low_setReg_blend]
  | long =>
    refine ⟨(c.setReg .cx (blend (c.reg .cx) .long (c.low .long .dx))).setReg .dx
      (if (c.reg .ax).msb then -1 else 0), ?_, ?_, rfl⟩
    · rw [low_long, ← toInt_extended]
      rfl
    · rw [low_setReg_of_ne _ (by decide), low_setReg_blend]

/-- A condition on known flags, as a number of the accumulator's whole width. -/
theorem run_set (cond : Cond) {f : Flags} (flags : c.flags = some f) :
    ∃ c', c.run data [.set cond .acc, .movZero .acc .acc] = .ok c' ∧
      c'.reg .ax = truth 32 (cond.holds f) := by
  have set : c.exec data (.set cond .acc) = .ok (c.setReg .ax
      (blend (c.reg .ax) .byte (if cond.holds f then 1#8 else 0#8))) := by
    rw [exec, flags]
    rfl
  refine ⟨_, by rw [run, set]; rfl, ?_⟩
  have zeroed : ∀ (old : Word) (v : BitVec 8), ((blend old .byte v).setWidth 8).setWidth 32 =
      v.setWidth 32 := fun old v => congrArg _ (setWidth_blend old .byte v)
  refine (zeroed (c.reg .ax) _).trans ?_
  cases cond.holds f <;> rfl

theorem run_compare {cond : Cond} {w : Width} {b : Bool}
    (holds : cond.holds (.ofSub (c.low w .ax) (c.low w .dx)) = b) :
    ∃ c', c.run data (compareCode cond w) = .ok c' ∧ c'.low w .ax = truth w.bits b := by
  rw [← holds]
  cases w with
  | byte => exact ⟨_, rfl, setWidth_blend _ _ _⟩
  | long =>
    obtain ⟨c', ran, result⟩ := run_set data (c.setFlags (some (.ofSub (c.low .long .ax)
      (c.low .long .dx)))) cond rfl
    exact ⟨c', ran, by rw [low_long, result]⟩

/-- The code of an operator, with the left operand in the accumulator. -/
theorem run_operation (op : BinaryOp) (w : Width) :
    match op.apply (c.low w .ax) (c.low w .dx) with
    | some r => ∃ c', c.run data (op.code w) = .ok c' ∧ c'.low w .ax = r
    | none => c.run data (op.code w) = .error .divide := by
  obtain ⟨e, ne, l, le, g, ge⟩ := Cond.holds_ofSub (c.low w .ax) (c.low w .dx)
  cases op with
  | plus => exact run_arith data c .add w
  | minus => exact run_arith data c .sub w
  | multiply => exact run_multiply data c w
  | divide => exact run_divide data c w
  | and => exact run_arith data c .and w
  | or => exact run_arith data c .or w
  | equal => exact run_compare data c e
  | notEqual => exact run_compare data c ne
  | lessThan => exact run_compare data c l
  | lessEqual => exact run_compare data c le
  | greaterThan => exact run_compare data c g
  | greaterEqual => exact run_compare data c ge

theorem run_extendTo (w wanted : Width) :
    ∃ c', c.run data (w.extendTo wanted) = .ok c' ∧
      c'.low wanted .ax = (c.low w .ax).signExtend wanted.bits := by
  cases w with
  | byte =>
    cases wanted with
    | byte => exact ⟨c, rfl, (BitVec.signExtend_eq _).symm⟩
    | long => exact ⟨_, rfl, BitVec.setWidth_eq _⟩
  | long =>
    cases wanted with
    | byte =>
      refine ⟨c, rfl, ?_⟩
      rw [low_long, BitVec.signExtend_eq_setWidth_of_le _ (by decide)]
      rfl
    | long => exact ⟨c, rfl, (BitVec.signExtend_eq _).symm⟩

theorem value_zero (w : Width) : c.value data w (.imm 0) = 0 := by
  cases w <;> rfl

theorem run_not (w : Width) :
    ∃ c', c.run data [.cmp w (.imm 0) .acc, .set .e .acc, .movZero .acc .acc] = .ok c' ∧
      c'.reg .ax = truth 32 (c.low w .ax == 0) := by
  obtain ⟨c', ran, result⟩ := run_set data (f := .ofSub (c.low w .ax) 0)
    (c.setFlags (some (.ofSub (c.low w .ax) (c.value data w (.imm 0))))) .e
    (by rw [value_zero]; rfl)
  exact ⟨c', ran, by rw [result, (Cond.holds_ofSub _ _).1]⟩

theorem run_negate (w : Width) :
    ∃ c', c.run data [.neg w .acc] = .ok c' ∧ c'.low w .ax = -c.low w .ax := by
  refine ⟨_, rfl, ?_⟩
  rw [low_setFlags, low_setReg_blend]
  rfl

/-- The mask of a loop's test: the loop is left where the number tested is zero. -/
theorem run_mask (w : Width) :
    ∃ c' f, c.run data [.cmp w (.imm 0) .acc, .set .ne .acc, .movZero .acc .acc,
      .neg .long .acc] = .ok c' ∧ c'.flags = some f ∧
      Cond.ge.holds f = (c.low w .ax == 0) := by
  obtain ⟨mid, ran, result⟩ := run_set data (f := .ofSub (c.low w .ax) 0)
    (c.setFlags (some (.ofSub (c.low w .ax) (c.value data w (.imm 0))))) .ne
    (by rw [value_zero]; rfl)
  rw [(Cond.holds_ofSub _ _).2.1] at result
  have negated : mid.run data [.neg .long .acc] = .ok ((mid.setReg .ax
      (-mid.low .long .ax)).setFlags (some (.ofNeg (mid.low .long .ax)))) := rfl
  refine ⟨_, .ofNeg (mid.low .long .ax), run_append_ok.mpr ⟨mid, ran, negated⟩, rfl, ?_⟩
  rw [low_long, result, bne]
  cases c.low w .ax == 0 <;> decide

end

end Cpu

end Ia32Backend
