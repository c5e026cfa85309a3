import Ia32Backend.Proofs.FrameInvariant
import Ia32Backend.Proofs.FunctionLabels
import Ia32Backend.Proofs.UnitFunctions

/-!
Frame safety of functions. Whatever a function computes and however long it runs, it keeps to its
own frame, balances its stack, and leaves the caller's registers and memory alone.
-/
namespace Ia32Backend

/-! The prologue. -/

section
variable {data : String → Word} {start c : Cpu}

theorem within_opening {label : String}
    (ok : start.run data [.label label, .push (.reg .bp), .mov .long (.reg .sp) (.reg .bp),
      .arith .and .long (.imm (-16)) (.reg .sp)] = .ok c) :
    4 ≤ (start.reg .sp).toNat ∧ c.reg .sp = (start.reg .sp - 4) &&& -16 ∧
      c.reg .bp = start.reg .sp - 4 ∧ (∀ r ∈ [Reg.bx, .si, .di], c.reg r = start.reg r) ∧
      c.mem = start.mem.write (start.reg .sp - 4) .long (start.reg .bp) := by
  simp only [Cpu.run_cons_ok] at ok
  obtain ⟨_, labelled, pushed, push, moved, mov, masked, mask, rest⟩ := ok
  cases labelled
  obtain ⟨enough, rfl⟩ := Cpu.push_ok push
  cases mov
  cases mask
  cases pure_eq_ok.mp rest
  refine ⟨enough, ?_, ?_, ?_, ?_⟩
  · simp [Cpu.value, Cpu.blend, ArithOp.apply]
  · simp [Cpu.value, Cpu.blend]
  · intro r member
    revert member
    cases r <;> simp
  · simp [Cpu.value]

theorem within_prologue {label : String} {reserved : Nat} (small : reserved < 2 ^ 32)
    (ok : start.run data (prologue label reserved) = .ok c) :
    Roomy reserved start ∧ Within reserved start c (.pushed 0) := by
  obtain ⟨mid, opening, reserve⟩ := Cpu.run_append_ok.mp ok
  obtain ⟨enough, stack, frame, saved, mem⟩ := within_opening opening
  have link : (start.reg .sp - 4).toNat = (start.reg .sp).toNat - 4 :=
    toNat_sub_ofNat (d := 4) enough
  have masked : ((start.reg .sp - 4) &&& -16).toNat ≤ (start.reg .sp - 4).toNat := by
    rw [BitVec.toNat_and]
    exact Nat.and_le_left
  -- Both ways of reserving leave everything but the stack pointer as it is.
  have lowered : reserved ≤ ((start.reg .sp - 4) &&& -16).toNat ∧
      c.reg .sp = stackBase start reserved ∧ c.mem = mid.mem ∧
      ∀ r, r ≠ .sp → c.reg r = mid.reg r := by
    split at reserve
    · rename_i none
      subst none
      cases pure_eq_ok.mp reserve
      exact ⟨Nat.zero_le _, by simp [stack, stackBase], rfl, fun _ _ => rfl⟩
    · obtain ⟨last, sub, rest⟩ := Cpu.run_cons_ok.mp reserve
      cases pure_eq_ok.mp rest
      simp only [Cpu.exec, bind_eq_ok, pure_eq_ok] at sub
      obtain ⟨less, room, rfl⟩ := sub
      obtain ⟨fits, rfl⟩ := Cpu.lower_ok room
      have amount : Cpu.value data mid .long (.imm (Int32.ofNat reserved)) =
          BitVec.ofNat 32 reserved := BitVec.setWidth_eq _
      rw [amount, stack, BitVec.toNat_ofNat, Nat.mod_eq_of_lt small] at fits
      refine ⟨fits, by simp [amount, stack, stackBase], rfl, ?_⟩
      intro r other
      simp [other]
  obtain ⟨fits, base, sameMem, sameRegs⟩ := lowered
  have bottom : (stackBase start reserved).toNat =
      ((start.reg .sp - 4) &&& -16).toNat - reserved := toNat_sub_ofNat fits
  have bound := (start.reg .sp).isLt
  refine ⟨⟨enough, by omega⟩, ⟨?_, ?_, ?_, ?_, ?_⟩⟩
  · intro r member
    rw [sameRegs r (by rintro rfl; simp at member), saved r member]
  · intro x high
    rw [sameMem, mem]
    refine Memory.write_outside _ _ (by simp only [Width.bytes]; omega) ?_
    intro inside
    have top := inside.2
    simp only [Width.bytes] at top
    omega
  · rw [sameMem, mem, Memory.read_write_same]
  · rw [sameRegs .bp (by decide), frame]
  · rw [base, Nat.add_zero]

end

/-! The code behind the prologue. -/

/-- Variables with slots of four bytes inside the reserved ones. -/
def Slotted (env : Env) (reserved : Nat) (names : List VarId) : Prop :=
  ∀ v ∈ names, ∀ p, env.place v = .ok p → ∃ d : Nat, 4 ≤ d ∧ d ≤ reserved ∧
    p.operand = .frame (Int32.ofInt (-(d : Int)))

/-- An instruction that copies the argument with a given number to the accumulator. -/
def Instr.LoadsArgument (count : Nat) (i : Instr) : Prop :=
  ∃ k < count, ∃ w, i = .mov w (.frame (Int32.ofNat (8 + 4 * k))) .acc

/-- What a function's code consists of behind the prologue. -/
inductive Instr.Functional (env : Env) (names : List VarId) (count : Nat) : Instr → Prop where
  | start : Functional env names count (.call env.config.startRoutine)
  | argument {i : Instr} (loads : i.LoadsArgument count) : Functional env names count i
  | bodily {i : Instr} (bodily : i.Bodily env names) : Functional env names count i

section
variable {env : Env} {names : List VarId} {reserved count : Nat} {i : Instr}

theorem Instr.Functional.writesSlots (functional : i.Functional env names count)
    (slotted : Slotted env reserved names) : i.WritesSlots reserved := by
  cases functional with
  | start => exact Or.inr fun _ _ cell => nomatch cell
  | argument loads =>
    obtain ⟨k, _, w, rfl⟩ := loads
    exact Or.inr fun _ _ cell => nomatch cell
  | bodily bodily =>
    cases bodily with
    | inline inline =>
      cases inline with
      | store known place =>
        right
        intro c cell written
        obtain ⟨d, low, high, operand⟩ := slotted _ known _ place
        rw [operand] at written
        cases written
        exact ⟨d, low, high, add_neg_disp _ d⟩
      | save => exact Or.inl ⟨_, rfl⟩
      | argument => exact Or.inl ⟨_, rfl⟩
      | _ => exact Or.inr fun _ _ cell => nomatch cell
    | pauseText pooled => exact Or.inl ⟨_, rfl⟩
    | _ => exact Or.inr fun _ _ cell => nomatch cell

/-- A memory operand is a slot, or the argument that is being copied. -/
theorem Instr.Functional.accesses (functional : i.Functional env names count)
    (slotted : Slotted env reserved names) {base : Reg} {disp : Int32}
    (operand : .mem base disp ∈ i.operands) :
    i.LoadsArgument count ∨ base = .bp ∧ ∃ d : Nat, 4 ≤ d ∧ d ≤ reserved ∧
      disp = Int32.ofInt (-(d : Int)) := by
  have slot : ∀ {v p}, v ∈ names → env.place v = .ok p → .mem base disp = p.operand →
      base = .bp ∧ ∃ d : Nat, 4 ≤ d ∧ d ≤ reserved ∧ disp = Int32.ofInt (-(d : Int)) := by
    intro v p known place same
    obtain ⟨d, low, high, own⟩ := slotted v known p place
    rw [own] at same
    cases same
    exact ⟨rfl, d, low, high, rfl⟩
  cases functional with
  | start => simp [operands] at operand
  | argument loads => exact Or.inl loads
  | bodily bodily =>
    right
    cases bodily with
    | inline inline =>
      cases inline with
      | load known place => exact slot known place (by simpa [operands] using operand)
      | store known place => exact slot known place (by simpa [operands] using operand)
      | address known place => exact slot known place (by simpa [operands] using operand)
      | _ => simp [operands] at operand
    | _ => simp [operands] at operand

/-- Registers that belong to the caller are never set. -/
theorem Instr.Functional.spares (functional : i.Functional env names count) :
    ∀ r ∈ [Reg.bx, .si, .di], r ∉ i.sets := by
  cases functional with
  | start => simp [sets]
  | argument loads =>
    obtain ⟨k, _, w, rfl⟩ := loads
    simp [sets, Operand.regs]
  | bodily bodily =>
    cases bodily with
    | inline inline =>
      cases inline with
      | store known place =>
        obtain ⟨_, _, _, _, rfl⟩ := Env.place_ok place
        simp [sets, Operand.regs]
      | _ => simp [sets, Operand.regs]
    | _ => simp [sets, Operand.regs]

end

theorem copyParams_functional {env : Env} {names : List VarId} {count : Nat}
    {params : List VarId} (known : params ⊆ names) :
    ∀ {index code}, index + params.length ≤ count → copyParams env index params = .ok code →
      Level code ∧ ∀ i ∈ code, i.Functional env names count := by
  induction params with
  | nil =>
    intro index code _ ok
    cases pure_eq_ok.mp ok
    exact ⟨level_nil, by simp⟩
  | cons v rest ih =>
    intro index code few ok
    obtain ⟨p, later, place, ahead, rfl⟩ := copyParams_cons_ok ok
    rw [List.length_cons] at few
    obtain ⟨level, functional⟩ :=
      ih (fun w member => known (List.mem_cons_of_mem v member)) (by omega) ahead
    constructor
    · have load : Level [.mov p.width (.frame (Int32.ofNat (8 + 4 * index))) .acc] :=
        level_of_computes rfl
      exact level_append (level_append load (level_store place)) level
    · intro i member
      simp only [List.cons_append, List.nil_append, List.mem_cons] at member
      rcases member with rfl | rfl | deeper
      · exact .argument ⟨index, by omega, p.width, rfl⟩
      · exact .bodily (.inline (.store (known List.mem_cons_self) place))
      · exact functional i deeper

/-! Runs. -/

/-- What a run has come to: some way through the prologue, or behind it and within the frame. -/
def Reached (data : String → Word) (label : String) (reserved : Nat) (depths : List Depth)
    (start : Cpu) (s : Nat × Cpu) : Prop :=
  (s.1 < (prologue label reserved).length ∧
    start.run data ((prologue label reserved).take s.1) = .ok s.2) ∨
  ∃ k d, s.1 = (prologue label reserved).length + k ∧ (depths ++ [.pushed 0])[k]? = some d ∧
    Roomy reserved start ∧ Within reserved start s.2 d

theorem prologue_plain {label : String} {reserved : Nat} :
    ∀ i ∈ prologue label reserved, i.target = none ∧ ∀ name, i ≠ .call name := by
  intro i member
  unfold prologue at member
  split at member <;>
  · simp only [List.append_nil, List.cons_append, List.nil_append, List.mem_cons,
      List.not_mem_nil, or_false] at member
    rcases member with rfl | rfl | rfl | rfl | rfl <;> simp

section
variable {data : String → Word} {label : String} {reserved : Nat} {rest : List Instr}
  {depths : List Depth} {start : Cpu} {s t : Nat × Cpu}

theorem reached_early (small : reserved < 2 ^ 32)
    (paced : Paced (.pushed 0) rest depths (.pushed 0))
    (step : Alone.Step data (prologue label reserved ++ rest) s t)
    (early : s.1 < (prologue label reserved).length)
    (ran : start.run data ((prologue label reserved).take s.1) = .ok s.2) :
    Reached data label reserved depths start t := by
  have inside : ∀ {i}, (prologue label reserved ++ rest)[s.1]? = some i →
      (prologue label reserved)[s.1]? = some i := by
    intro i found
    rwa [List.getElem?_append_left early] at found
  cases step with
  | @plain pos i c c' found done =>
    have next : start.run data ((prologue label reserved).take (pos + 1)) = .ok c' := by
      rw [List.take_add_one, inside found]
      exact Cpu.run_append_ok.mpr ⟨c, ran, Cpu.run_cons_ok.mpr ⟨c', done, rfl⟩⟩
    by_cases last : pos + 1 < (prologue label reserved).length
    · exact Or.inl ⟨last, next⟩
    · have all : pos + 1 = (prologue label reserved).length := by
        simp only at early
        omega
      rw [all, List.take_length] at next
      obtain ⟨room, within⟩ := within_prologue small next
      exact Or.inr ⟨0, .pushed 0, by rw [all, Nat.add_zero], paced_start paced, room, within⟩
  | call found room returned =>
    exact absurd rfl ((prologue_plain _ (List.mem_of_getElem? (inside found))).2 _)
  | jmp found only => cases (prologue_plain _ (List.mem_of_getElem? (inside found))).1
  | taken found flags holds only =>
    cases (prologue_plain _ (List.mem_of_getElem? (inside found))).1
  | passed found flags fails => cases (prologue_plain _ (List.mem_of_getElem? (inside found))).1

/-- A jump arrives with the stack pointer at its place. -/
theorem reached_jump {pos k : Nat} {i : Instr} {name : String} {c : Cpu} {d e : Depth}
    (paced : Paced (.pushed 0) rest depths (.pushed 0))
    (closed : ∀ name ∈ targetsOf rest, name ∈ labelsOf rest) (found : rest[k]? = some i)
    (target : i.target = some name) (moves : i.Moves d e)
    (only : OnlyAt (prologue label reserved ++ rest) name pos) (room : Roomy reserved start)
    (within : Within reserved start c d) : Reached data label reserved depths start (pos, c) := by
  have jumps := closed name (List.mem_filterMap.mpr ⟨i, List.mem_of_getElem? found, target⟩)
  obtain ⟨there, defined⟩ := List.mem_iff_getElem?.mp (mem_labelsOf.mp jumps)
  have same := only.2 ((prologue label reserved).length + there) (by
    rw [List.getElem?_append_right (Nat.le_add_right _ _), Nat.add_sub_cancel_left, defined])
  obtain ⟨here, _, mark, move, _⟩ := paced_at paced defined
  have atLabel : here = .pushed 0 := by
    cases move with
    | label => rfl
    | still _ _ plain => cases plain.1
  have atJump : d = .pushed 0 := by
    cases moves with
    | jmp => rfl
    | jump => rfl
    | still _ _ plain => exact absurd (target.symm.trans plain.2.1) (by simp)
    | _ => cases target
  subst atLabel atJump
  exact Or.inr ⟨there, .pushed 0, same.symm, mark, room, within⟩

theorem reached_step (small : reserved < 2 ^ 32)
    (paced : Paced (.pushed 0) rest depths (.pushed 0))
    (slots : ∀ i ∈ rest, i.WritesSlots reserved)
    (closed : ∀ name ∈ targetsOf rest, name ∈ labelsOf rest)
    (reached : Reached data label reserved depths start s)
    (step : Alone.Step data (prologue label reserved ++ rest) s t) :
    Reached data label reserved depths start t := by
  rcases reached with ⟨early, ran⟩ | ⟨k, d, position, mark, room, within⟩
  · exact reached_early small paced step early ran
  have inside : ∀ {i}, (prologue label reserved ++ rest)[s.1]? = some i → rest[k]? = some i := by
    intro i found
    rwa [position, List.getElem?_append_right (Nat.le_add_right _ _), Nat.add_sub_cancel_left]
      at found
  cases step with
  | @plain pos i c c' found done =>
    obtain ⟨e, moves, next⟩ := paced_from paced mark (inside found)
    have member := List.mem_of_getElem? (inside found)
    exact Or.inr ⟨k + 1, e, by simp only at position; simp only; omega, next, room,
      within_exec room within moves (slots i member) done⟩
  | @call pos name c c' found _ returned =>
    obtain ⟨e, moves, next⟩ := paced_from paced mark (inside found)
    have level : e = d ∧ ∃ n, d = .pushed n := by
      cases moves with
      | call n => exact ⟨rfl, n, rfl⟩
      | still n => exact ⟨rfl, n, rfl⟩
    obtain ⟨rfl, n, rfl⟩ := level
    exact Or.inr ⟨k + 1, .pushed n, by simp only at position; simp only; omega, next, room,
      within_call room within returned⟩
  | jmp found only =>
    obtain ⟨e, moves, _⟩ := paced_from paced mark (inside found)
    exact reached_jump paced closed (inside found) rfl moves only room within
  | taken found flags holds only =>
    obtain ⟨e, moves, _⟩ := paced_from paced mark (inside found)
    exact reached_jump paced closed (inside found) rfl moves only room within
  | @passed pos cond name c f found flags fails =>
    obtain ⟨e, moves, next⟩ := paced_from paced mark (inside found)
    have level : e = d := by
      cases moves with
      | jump => rfl
      | still => rfl
    subst level
    exact Or.inr ⟨k + 1, e, by simp only at position; simp only; omega, next, room, within⟩

theorem reached_run (small : reserved < 2 ^ 32)
    (paced : Paced (.pushed 0) rest depths (.pushed 0))
    (slots : ∀ i ∈ rest, i.WritesSlots reserved)
    (closed : ∀ name ∈ targetsOf rest, name ∈ labelsOf rest)
    (run : Alone.Run data (prologue label reserved ++ rest) (0, start) t) :
    Reached data label reserved depths start t := by
  induction run with
  | refl => exact Or.inl ⟨by simp [prologue], rfl⟩
  | tail _ step ih => exact reached_step small paced slots closed ih step

end

/-- What holds behind the prologue, against the state in which the function was entered. -/
structure FrameSafe (data : String → Word) (reserved count : Nat) (code : List Instr) (start : Cpu)
    (pos : Nat) (c : Cpu) : Prop where
  /-- Until it leaves, the stack pointer stays below the reserved bytes. -/
  frame : code[pos]? ≠ some .ret →
    c.reg .bp = start.reg .sp - 4 ∧ (c.reg .sp).toNat + reserved ≤ (c.reg .bp).toNat
  /-- It returns with the stack and the frame pointer as they were. -/
  back : code[pos]? = some .ret → c.reg .sp = start.reg .sp ∧ c.reg .bp = start.reg .bp
  saved : ∀ r ∈ [Reg.bx, .si, .di], c.reg r = start.reg r
  /-- Return address, arguments and the caller's memory. -/
  above : ∀ x : Word, (start.reg .sp).toNat ≤ x.toNat → c.mem x = start.mem x
  link : c.mem.read (start.reg .sp - 4) .long = start.reg .bp
  /-- Memory operands are slots, but for arguments while they are copied. -/
  accesses : ∀ i, code[pos]? = some i → ∀ base disp, .mem base disp ∈ i.operands →
    i.LoadsArgument count ∨ base = .bp ∧
      (c.reg .bp).toNat ≤ (c.reg .bp + disp.toBitVec).toNat + reserved ∧
      (c.reg .bp + disp.toBitVec).toNat + 4 ≤ (c.reg .bp).toNat
  writes : ∀ i c', code[pos]? = some i → c.exec data i = .ok c' → ∀ a w,
    i.written c = some (a, w) → a.toNat + w.bytes ≤ (c.reg .bp).toNat
  branches : ∀ i, code[pos]? = some i → i.defines ≠ none ∨ i.target ≠ none →
    c.reg .sp = stackBase start reserved

theorem sp_of_pushed_zero {reserved : Nat} {start c : Cpu}
    (within : Within reserved start c (.pushed 0)) : c.reg .sp = stackBase start reserved :=
  BitVec.eq_of_toNat_eq within.located.2

section
variable {env : Env} {names : List VarId} {reserved count : Nat} {rest : List Instr}
  {depths : List Depth} {start c : Cpu} {k : Nat} {d : Depth} {i : Instr}

/-- Only a return stands where the stack is back. -/
theorem frame_of_within (paced : Paced (.pushed 0) rest depths (.pushed 0))
    (mark : (depths ++ [.pushed 0])[k]? = some d) (room : Roomy reserved start)
    (within : Within reserved start c d) (other : rest[k]? ≠ some .ret) :
    c.reg .bp = start.reg .sp - 4 ∧ (c.reg .sp).toNat + reserved ≤ (c.reg .bp).toNat := by
  have link := room.linkAddress
  have fits := room.frame
  cases d with
  | pushed n =>
    obtain ⟨bp, sp⟩ := within.located
    exact ⟨bp, by rw [bp]; omega⟩
  | back =>
    cases found : rest[k]? with
    | none =>
      rw [List.getElem?_eq_none_iff, ← paced_length paced] at found
      rw [List.getElem?_append_right found] at mark
      cases tail : k - depths.length with
      | zero => rw [tail] at mark; cases mark
      | succ n => rw [tail] at mark; cases mark
    | some i =>
      obtain ⟨e, moves, _⟩ := paced_from paced mark found
      cases moves
      exact absurd found other

theorem Instr.Functional.accesses_inside (functional : i.Functional env names count)
    (slotted : Slotted env reserved names) (below : reserved ≤ (c.reg .bp).toNat) {base : Reg}
    {disp : Int32} (operand : .mem base disp ∈ i.operands) :
    i.LoadsArgument count ∨ base = .bp ∧
      (c.reg .bp).toNat ≤ (c.reg .bp + disp.toBitVec).toNat + reserved ∧
      (c.reg .bp + disp.toBitVec).toNat + 4 ≤ (c.reg .bp).toNat := by
  rcases functional.accesses slotted operand with loads | ⟨rfl, e, low, high, rfl⟩
  · exact Or.inl loads
  · right
    rw [add_neg_disp, toNat_sub_ofNat (by omega)]
    exact ⟨rfl, by omega, by omega⟩

theorem Instr.WritesSlots.below {data : String → Word} {c' : Cpu} {a : Word} {w : Width}
    (slots : i.WritesSlots reserved)
    (below : (c.reg .sp).toNat + reserved ≤ (c.reg .bp).toNat)
    (done : c.exec data i = .ok c') (written : i.written c = some (a, w)) :
    a.toNat + w.bytes ≤ (c.reg .bp).toNat := by
  rcases slots with ⟨src, rfl⟩ | slots
  · obtain ⟨enough, _⟩ := Cpu.push_ok done
    cases written
    rw [show (4 : Word) = BitVec.ofNat 32 4 from rfl, toNat_sub_ofNat enough]
    simp only [Width.bytes]
    omega
  · obtain ⟨e, low, high, same⟩ := slots c (a, w) written
    have small : w.bytes ≤ 4 := by cases w <;> decide
    simp only at same
    rw [same, toNat_sub_ofNat (by omega)]
    omega

theorem sp_of_branch (within : Within reserved start c d) {e : Depth} (moves : i.Moves d e)
    (branch : i.defines ≠ none ∨ i.target ≠ none) : c.reg .sp = stackBase start reserved := by
  cases moves with
  | label => exact sp_of_pushed_zero within
  | jmp => exact sp_of_pushed_zero within
  | jump => exact sp_of_pushed_zero within
  | still _ _ plain => exact False.elim (branch.elim (absurd plain.1) (absurd plain.2.1))
  | _ => simp at branch

theorem frameSafe_of_within {data : String → Word} {opening : List Instr}
    (paced : Paced (.pushed 0) rest depths (.pushed 0))
    (functional : ∀ i ∈ rest, i.Functional env names count) (slotted : Slotted env reserved names)
    (mark : (depths ++ [.pushed 0])[k]? = some d) (room : Roomy reserved start)
    (within : Within reserved start c d) :
    FrameSafe data reserved count (opening ++ rest) start (opening.length + k) c := by
  have here : (opening ++ rest)[opening.length + k]? = rest[k]? := by
    rw [List.getElem?_append_right (Nat.le_add_right _ _), Nat.add_sub_cancel_left]
  have frame := frame_of_within paced mark room within
  have staying : ∀ i, rest[k]? = some i → i ≠ .ret →
      (c.reg .sp).toNat + reserved ≤ (c.reg .bp).toNat := fun i found different =>
    (frame (by rw [found]; simpa using different)).2
  refine ⟨by rwa [here], ?_, within.saved, within.above, within.link, ?_, ?_, ?_⟩ <;> rw [here]
  · intro found
    obtain ⟨e, moves, _⟩ := paced_from paced mark found
    cases moves with
    | still _ _ plain => exact absurd rfl plain.2.2
    | ret => exact within.located
  · intro i found base disp operand
    have different : i ≠ .ret := by
      rintro rfl
      simp [Instr.operands] at operand
    have below := staying i found different
    exact (functional i (List.mem_of_getElem? found)).accesses_inside slotted (by omega) operand
  · intro i c' found done a w written
    have different : i ≠ .ret := by
      rintro rfl
      cases written
    exact ((functional i (List.mem_of_getElem? found)).writesSlots slotted).below
      (staying i found different) done written
  · intro i found branch
    obtain ⟨e, moves, _⟩ := paced_from paced mark found
    exact sp_of_branch within moves branch

end

/-! Functions of a unit. -/

section
variable {symbols : SymbolTable} {config : Config} {u : UnitCode} {index : Nat}
  {f : FunctionDecl} {symbol : FunctionSymbol} {layout : Layout} {strings : StringPool}
  {labels last : Labels} {copies body : List Instr}

/-- The code of a function behind the prologue, at rest at the boundaries of the body. -/
theorem Compiled.behind (compiled : Compiled symbols config u index f symbol layout strings labels
    last copies body) (own : usedNames f.uses ⊆ f.vars) :
    ∃ rest depths,
      u.functions[index]? = some (prologue symbol.label layout.reserved ++ rest) ∧
      Paced (.pushed 0) rest depths (.pushed 0) ∧
      (∀ i ∈ rest, i.Functional ⟨symbols, config, strings, layout.frames⟩ f.vars
        f.params.length) ∧
      (∀ name ∈ targetsOf rest, name ∈ labelsOf rest) ∧
      ∀ k, Boundary ⟨symbols, config, strings, layout.frames⟩ (symbol.name = config.entryName)
        labels f.body.body k →
          RestsAt depths ((symbol.startCall config ++ copies).length + k) := by
  have startLevel : Level (symbol.startCall config) ∧ (∀ i ∈ symbol.startCall config,
      i.Functional ⟨symbols, config, strings, layout.frames⟩ f.vars f.params.length) ∧
      Straight (symbol.startCall config) := by
    unfold FunctionSymbol.startCall
    split
    · refine ⟨fun d => ⟨_, .cons (.call d _) (.nil _)⟩, ?_, ⟨rfl, rfl⟩⟩
      intro i member
      rw [List.mem_singleton.mp member]
      exact .start
    · exact ⟨level_nil, by simp, ⟨rfl, rfl⟩⟩
  have closes : (∃ depths, Paced (.pushed 0) (closing f.body.body) depths (.pushed 0)) ∧
      (∀ i ∈ closing f.body.body,
        i.Functional ⟨symbols, config, strings, layout.frames⟩ f.vars f.params.length) ∧
      Straight (closing f.body.body) := by
    unfold closing
    split
    · exact ⟨⟨[], .nil _⟩, by simp, ⟨rfl, rfl⟩⟩
    · exact ⟨⟨_, paced_epilogue⟩, fun i member => .bodily (bodyCode_epilogue i member),
        ⟨rfl, rfl⟩⟩
  have known : f.params ⊆ f.vars := List.subset_append_left _ _
  obtain ⟨copyLevel, copyFunctional⟩ :=
    copyParams_functional known (Nat.le_of_eq (Nat.zero_add _)) compiled.copied
  obtain ⟨copyStraight, _⟩ := copyParams_straight compiled.copied
  obtain ⟨bodyDepths, bodyPaced, rests⟩ := Stmt.calm_codeAll _ _ _ _ _ _ compiled.inside
  have bodyFunctional := Stmt.bodyCode_codeAll _ _ _ _ _ _ _ _ own compiled.inside
  have branches := Stmt.branches_codeAll _ _ _ _ _ _ compiled.inside
  obtain ⟨openDepths, opened⟩ := level_append startLevel.1 copyLevel 0
  obtain ⟨⟨closeDepths, closed⟩, closeFunctional, closeStraight⟩ := closes
  refine ⟨symbol.startCall config ++ copies ++ (body ++ closing f.body.body),
    openDepths ++ (bodyDepths ++ closeDepths), ?_,
    paced_append opened (paced_append bodyPaced closed), ?_, ?_, ?_⟩
  · rw [compiled.code]
    simp only [List.append_assoc]
  · intro i member
    simp only [List.mem_append] at member
    rcases member with (first | copy) | (inner | close)
    · exact startLevel.2.1 i first
    · exact copyFunctional i copy
    · exact .bodily (bodyFunctional i inner)
    · exact closeFunctional i close
  · have targets : targetsOf (symbol.startCall config ++ copies ++
        (body ++ closing f.body.body)) = targetsOf body := by
      simp [startLevel.2.2.targets, copyStraight.targets, closeStraight.targets]
    intro name member
    rw [targets] at member
    simp [branches.closed name member]
  · intro k boundary
    rw [← paced_length opened]
    exact restsAt_right openDepths (restsAt_left (rests k boundary) closed)

end

/-- Frame safety of every function of a tidy unit, over every run of its code behind the prologue:
the frame is kept to, the caller's part is left alone, and between statements and at branches the
stack pointer is back where the prologue put it. -/
theorem frame_safety {symbols : SymbolTable} {config : Config} {p : Program} {u : UnitCode}
    (accepted : p.code symbols config = .ok u) (tidy : p.Tidy symbols)
    (own : ∀ f ∈ p.functions, usedNames f.uses ⊆ f.vars)
    (few : ∀ f ∈ p.functions, f.vars.length < 2 ^ 30) {before after : List FunctionDecl}
    {f : FunctionDecl} (split : p.functions = before ++ f :: after) :
    ∃ frames symbol layout strings labels last copies body code,
      Layout.afterAll symbols {} before = .ok frames ∧
      Layout.ofFunction symbols frames f = .ok layout ∧
      Compiled symbols config u before.length f symbol layout strings labels last copies body ∧
      u.functions[before.length]? = some code ∧
      (∀ i ∈ code, ∀ r ∈ [Reg.bx, .si, .di], r ∉ i.sets) ∧
      ∀ data start pos c, Alone.Run data code (0, start) (pos, c) →
        (prologue symbol.label layout.reserved).length ≤ pos →
        FrameSafe data layout.reserved f.params.length code start pos c ∧
        ∀ k, Boundary ⟨symbols, config, strings, layout.frames⟩
          (symbol.name = config.entryName) labels f.body.body k →
          pos = (prologue symbol.label layout.reserved ++ symbol.startCall config ++
            copies).length + k → c.reg .sp = stackBase start layout.reserved := by
  obtain ⟨frames, symbol, layout, strings, labels, last, copies, body, frame, laid, compiled⟩ :=
    Program.compiled accepted split
  have member : f ∈ p.functions := by simp [split]
  obtain ⟨scopes, bytes⟩ := Program.laid tidy split frame laid
  have small : layout.reserved < 2 ^ 32 := by
    have bound := few f member
    omega
  have slotted : Slotted ⟨symbols, config, strings, layout.frames⟩ layout.reserved
      f.vars := by
    intro v known p place
    obtain ⟨scope, point, inside⟩ := variable_in_scope known
    obtain ⟨d, _, low, high, operand⟩ := place_of_laid (scopes scope point) inside place
    exact ⟨d, low, high, operand⟩
  obtain ⟨rest, depths, code, paced, functional, closed, rests⟩ :=
    compiled.behind (own f member)
  refine ⟨frames, symbol, layout, strings, labels, last, copies, body, _, frame, laid, compiled,
    code, ?_, ?_⟩
  · intro i inside r caller
    rcases List.mem_append.mp inside with opening | later
    · unfold prologue at opening
      split at opening <;>
      · simp only [List.append_nil, List.cons_append, List.nil_append, List.mem_cons,
          List.not_mem_nil, or_false] at opening
        revert caller
        rcases opening with rfl | rfl | rfl | rfl | rfl <;>
          cases r <;> simp [Instr.sets, Operand.regs]
    · exact (functional i later).spares r caller
  · intro data start pos c run behind
    have slots : ∀ i ∈ rest, i.WritesSlots layout.reserved := fun i inside =>
      (functional i inside).writesSlots slotted
    rcases reached_run small paced slots closed run with ⟨early, _⟩ | ⟨k, d, position, mark, room,
      within⟩
    · exact absurd early (Nat.not_lt.mpr behind)
    · simp only at position within
      subst pos
      refine ⟨frameSafe_of_within paced functional slotted mark room within, ?_⟩
      intro j boundary same
      have rested := rests j boundary
      have equal : k = (symbol.startCall config ++ copies).length + j := by
        simp only [List.length_append] at same ⊢
        omega
      rw [← equal, RestsAt, mark] at rested
      cases rested
      exact sp_of_pushed_zero within

/-- Code that runs straight through makes a run. -/
theorem Alone.run_of_straight {data : String → Word} {code : List Instr} (after : List Instr)
    {start c : Cpu} :
    ∀ before : List Instr, start.run data code = .ok c →
      Alone.Run data (before ++ code ++ after) (before.length, start)
        ((before ++ code).length, c) := by
  induction code generalizing start with
  | nil =>
    intro before ran
    cases pure_eq_ok.mp ran
    rw [List.append_nil]
    exact .refl
  | cons i rest ih =>
    intro before ran
    obtain ⟨mid, first, later⟩ := Cpu.run_cons_ok.mp ran
    have step : Alone.Step data (before ++ i :: rest ++ after) (before.length, start)
        (before.length + 1, mid) := .plain (by simp) first
    have tail := ih (before ++ [i]) later
    simp only [List.append_assoc, List.cons_append, List.nil_append, List.length_append,
      List.length_cons, List.length_nil] at tail step ⊢
    exact .head step tail

def halvingSymbols : SymbolTable where
  functions := [⟨"main", "_main", []⟩, ⟨"half", "_half", [⟨0⟩]⟩]
  vars := [⟨"n", .int, ⟨5⟩⟩, ⟨"c", .char, ⟨1⟩⟩]

/-- A parameter in a block apart, a local, a division, and a call in a loop. -/
def halving : Program where
  body := [
    .function ⟨⟨1⟩, [⟨0⟩], ⟨⟨1⟩, [.declare [⟨1⟩],
      .eval (.assign .char ⟨1⟩ (.ident .int ⟨0⟩)),
      .ret (some (.binary .int .divide (.ident .int ⟨0⟩) (.ident .char ⟨1⟩)))]⟩⟩,
    .function ⟨⟨0⟩, [], ⟨⟨2⟩, [.whileLoop (.lit .bool ⟨0⟩ (.bool true)) ⟨⟨3⟩, [
      .eval (.call .int ⟨1⟩ [.lit .int ⟨1⟩ (.int 7)])]⟩]⟩⟩]

theorem halving_tidy : halving.Tidy halvingSymbols := by
  intro before f after split
  have functions : halving.functions = [halving.functions[0], halving.functions[1]] := rfl
  rw [functions] at split
  match before, split with
  | [], split =>
    cases split
    exact ⟨by decide, by decide, by decide, ⟨5⟩, by decide, by decide⟩
  | [_], split =>
    cases split
    exact ⟨by decide, by decide, by decide, ⟨9⟩, by decide, by decide⟩
  | _ :: _ :: rest, split => simp at split

/-- Entered with an argument of seven, right above the return address. -/
def halvingStart : Cpu where
  reg := fun r => if r = .sp then 4096 else 0
  flags := none
  mem := fun a => if a = 4100 then 7 else 0

theorem frame_safety_halving :
    ∃ u code c, halving.code halvingSymbols {} = .ok u ∧ u.functions[0]? = some code ∧
      Alone.Run (fun _ => 0) code (0, halvingStart) (17, c) ∧ code[17]? = some .leave ∧
      FrameSafe (fun _ => 0) 8 1 code halvingStart 17 c := by
  obtain ⟨u, accepted⟩ : ∃ u, halving.code halvingSymbols {} = .ok u := ⟨_, rfl⟩
  obtain ⟨frames, symbol, layout, strings, labels, last, copies, body, code, frame, laid, compiled,
    position, _, safe⟩ := frame_safety accepted halving_tidy (by decide) (by decide)
      (show halving.functions = [] ++ _ :: _ from rfl)
  cases accepted
  cases frame
  cases laid
  cases compiled.found
  obtain ⟨c, ran⟩ : ∃ c, halvingStart.run (fun _ => 0) (code.take 17) = .ok c := by
    cases position
    exact ⟨_, rfl⟩
  have run := Alone.run_of_straight (code.drop 17) [] ran
  cases position
  exact ⟨_, _, c, rfl, rfl, run, rfl, (safe _ _ _ _ run (by decide)).1⟩

end Ia32Backend
