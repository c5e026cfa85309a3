import Ia32Backend.Proofs.FrameSafety
import Ia32Backend.Proofs.Simulation.Stmt

/-!
Entry and exit of a function: the prologue makes the frame, the arguments are copied into their
slots, and a return leaves the caller what the calling convention promises.
-/
namespace Ia32Backend

/-- A function is entered: the return address is on top of the stack, the arguments above it. -/
structure Cpu.Entered (c : Cpu) (args : List Word) : Prop where
  room : (c.reg .sp).toNat + 4 + 4 * args.length ≤ 2 ^ 32
  args : ∀ k x, args[k]? = some x →
    c.mem.read (c.reg .sp + BitVec.ofNat 32 (4 + 4 * k)) .long = x

/-- A function that was entered has returned a word. -/
structure Image.Exited (m : Image) (c : Cpu) (x : Word) (t : State) : Prop where
  pos : t.pos = m.locate c.top
  result : t.cpu.reg .ax = x
  sp : t.cpu.reg .sp = c.reg .sp + 4
  saved : ∀ r ∈ [Reg.bp, .bx, .si, .di], t.cpu.reg r = c.reg r
  above : ∀ y : Word, (c.reg .sp).toNat ≤ y.toNat → t.cpu.mem y = c.mem y

/-- The arguments of a call lie above the return address that it pushes. -/
theorem entered_pushed {c c' : Cpu} {args : List Word} {x : Word} (pushed : c.push x = .ok c')
    (passes : c.Passes args) (fits : (c.reg .sp).toNat + 4 * args.length ≤ 2 ^ 32) :
    c'.Entered args := by
  obtain ⟨sp, _, _, above⟩ := Cpu.push_effect pushed
  refine ⟨by omega, fun k y found => ?_⟩
  have inside := (List.getElem?_eq_some_iff.mp found).1
  have address : (c.reg .sp + BitVec.ofNat 32 (4 * k)).toNat = (c.reg .sp).toNat + 4 * k :=
    toNat_add_ofNat (by omega)
  rw [add_ofNat_of_lower sp, ← passes k y found]
  refine Memory.read_congr (by simp only [Width.bytes]; omega) fun z cell => ?_
  exact above z (by have low := cell.1; omega)

/-- What a function returns to is what its caller expects. -/
theorem returned_exited {m : Image} {c c' : Cpu} {x y : Word} {t : State}
    (pushed : c.push x = .ok c') (exited : m.Exited c' y t) : c.Returned t.cpu := by
  obtain ⟨sp, _, regs, above⟩ := Cpu.push_effect pushed
  refine ⟨fun r member => ?_, fun z high => ?_⟩
  · rcases List.mem_cons.mp member with rfl | other
    · rw [exited.sp, ← BitVec.add_zero (c.reg .sp)]
      exact add_ofNat_of_lower sp 0
    · rw [exited.saved r other, regs r (by rintro rfl; simp at other)]
  · rw [exited.above z (by omega), above z high]

theorem run_stack {data : String → Word} {code : List Instr}
    (each : ∀ i ∈ code, ∀ (c : Cpu) trap, c.exec data i = .error trap → trap = .stack) :
    ∀ {c : Cpu} {trap}, c.run data code = .error trap → trap = .stack := by
  induction code with
  | nil => exact fun failed => by cases failed
  | cons i rest ih =>
    intro c trap failed
    rw [Cpu.run] at failed
    cases first : c.exec data i with
    | error cause =>
      rw [first] at failed
      cases failed
      exact each i List.mem_cons_self c _ first
    | ok mid =>
      rw [first] at failed
      exact ih (fun j member => each j (List.mem_cons_of_mem i member)) failed

/-- The prologue can fail for want of stack alone. -/
theorem prologue_stack {data : String → Word} {label : String} {reserved : Nat} {c : Cpu}
    {trap : Trap} (failed : c.run data (prologue label reserved) = .error trap) :
    trap = .stack := by
  have lowers : ∀ (c : Cpu) src trap, c.exec data (.arith .sub .long src (.reg .sp)) =
      .error trap → trap = .stack := by
    intro c src trap failed
    simp only [Cpu.exec] at failed
    cases lowered : c.lower (c.value data .long src) with
    | ok mid => rw [lowered] at failed; cases failed
    | error cause =>
      rw [lowered] at failed
      cases failed
      exact Cpu.lower_stack lowered
  refine run_stack ?_ failed
  intro i member c trap failed
  rcases List.mem_append.mp member with opening | reserve
  · simp only [List.mem_cons, List.not_mem_nil, or_false] at opening
    rcases opening with rfl | rfl | rfl | rfl
    · cases failed
    · exact Cpu.push_stack failed
    · cases failed
    · cases failed
  · split at reserve
    · cases reserve
    · rw [List.mem_singleton.mp reserve] at failed
      exact lowers c _ trap failed

/-- The frame of a function that was entered at `c`. -/
def Activation.of (env : Env) (reserved : Nat) (c : Cpu) : Activation :=
  ⟨env, reserved, c.reg .sp - 4⟩

section
variable {env : Env} {reserved : Nat} {c c₁ : Cpu}

theorem holds_entered {store : VarId → Word} (room : Roomy reserved c)
    (within : Within reserved c c₁ (.pushed 0)) :
    (Activation.of env reserved c).Holds [] store c₁ := by
  obtain ⟨base, sp⟩ := within.located
  have frame := room.frame
  have link := room.linkAddress
  refine ⟨base, ?_, fun _ member => (List.not_mem_nil member).elim⟩
  simp only [Activation.of]
  omega

theorem exited_of_left {site : Site} {args : List Word} {x : Word} {t : State}
    (frame : site.frame = Activation.of env reserved c) (room : Roomy reserved c)
    (within : Within reserved c c₁ (.pushed 0)) (entered : c.Entered args)
    (left : site.Left c₁ t) (result : t.cpu.reg .ax = x) : site.image.Exited c x t := by
  have base : site.frame.base = c.reg .sp - 4 := by rw [frame]; rfl
  have link := room.linkAddress
  have fits := entered.room
  have back : site.frame.base + 4 = c.reg .sp := by rw [base, BitVec.sub_add_cancel]
  refine ⟨?_, result, ?_, ?_, ?_⟩
  · rw [left.pos, back, Cpu.top]
    congr 1
    refine Memory.read_congr (by simp only [Width.bytes]; omega) fun y inside => ?_
    exact within.above y inside.1
  · rw [left.sp, ← back, BitVec.add_assoc]
    rfl
  · intro r member
    rcases List.mem_cons.mp member with rfl | general
    · rw [left.bp, base, within.link]
    · rw [left.saved r general, within.saved r general]
  · intro y high
    rw [left.above y (by rw [base]; omega), within.above y high]

end

theorem read_low (m : Memory) (a : Word) (w : Width) :
    (m.read a .long).setWidth w.bits = m.read a w := by
  cases w with
  | byte => exact BitVec.setWidth_append_eq_right
  | long => exact BitVec.setWidth_eq _

namespace Site

section
variable {site : Site} {s : Setting}

/-- Each argument lies above the return address, from the one with a given number on. -/
def Arrived (site : Site) (index : Nat) (args : List Word) (c : Cpu) : Prop :=
  ∀ k x, args[k]? = some x →
    c.mem.read (site.frame.base + BitVec.ofNat 32 (8 + 4 * (index + k))) .long = x

theorem arrived_entered {env : Env} {reserved : Nat} {args : List Word} {c c₁ c₂ : Cpu}
    (frame : site.frame = Activation.of env reserved c) (room : Roomy reserved c)
    (within : Within reserved c c₁ (.pushed 0)) (entered : c.Entered args)
    (kept : site.frame.Kept 0 c₁ c₂)
    (below : (c₁.reg .sp).toNat + site.frame.reserved ≤ site.frame.base.toNat) :
    site.Arrived 0 args c₂ := by
  intro k x found
  have base : site.frame.base = c.reg .sp - 4 := by rw [frame]; rfl
  have link := room.linkAddress
  have fits := entered.room
  have inside := (List.getElem?_eq_some_iff.mp found).1
  have address : (c.reg .sp + BitVec.ofNat 32 (4 + 4 * k)).toNat =
      (c.reg .sp).toNat + (4 + 4 * k) := toNat_add_ofNat (by omega)
  have same : site.frame.base + BitVec.ofNat 32 (8 + 4 * (0 + k)) =
      c.reg .sp + BitVec.ofNat 32 (4 + 4 * k) := by
    rw [base, Nat.zero_add, show 8 + 4 * k = 4 + (4 + 4 * k) by omega, add_ofNat_of_lower link]
  rw [base] at below
  rw [← entered.args k x found, same,
    Activation.kept_mem kept (by omega) (by omega) (Or.inr (by rw [base] at *; omega))]
  refine Memory.read_congr (by simp only [Width.bytes]; omega) fun y cell => ?_
  exact within.above y (by have low := cell.1; omega)

/-- A move of the next argument takes it cut off to the width of the move. -/
theorem value_arrived {scope : List VarId} {store : VarId → Word} {index : Nat} {x : Word}
    {args : List Word} {c : Cpu} (arrived : site.Arrived index (x :: args) c)
    (holds : site.frame.Holds scope store c) (w : Width) :
    c.value site.image.data w (.frame (Int32.ofNat (8 + 4 * index))) =
      ((x.setWidth w.bits).signExtend 32).setWidth w.bits := by
  rw [Value.setWidth_signExtend _ (by cases w <;> decide), ← arrived 0 x rfl, read_low,
    Nat.add_zero, ← holds.base]
  rfl

/-- The other arguments are still there after code that leaves alone what is not in a slot. -/
theorem arrived_later {index : Nat} {x : Word} {args : List Word} {c c' : Cpu}
    (arrived : site.Arrived index (x :: args) c) (kept : site.frame.Kept 0 c c')
    (below : (c.reg .sp).toNat + site.frame.reserved ≤ site.frame.base.toNat)
    (room : site.frame.base.toNat + 8 + 4 * (index + (args.length + 1)) ≤ 2 ^ 32) :
    site.Arrived (index + 1) args c' := by
  intro k y found
  have inside := (List.getElem?_eq_some_iff.mp found).1
  have address : (site.frame.base + BitVec.ofNat 32 (8 + 4 * (index + (k + 1)))).toNat =
      site.frame.base.toNat + (8 + 4 * (index + (k + 1))) := toNat_add_ofNat (by omega)
  rw [Nat.add_right_comm index 1 k, Nat.add_assoc index k 1, ← arrived (k + 1) y found]
  exact Activation.kept_mem kept (by omega) (by omega) (Or.inr (by omega))

theorem carries_copies (symbols : s.symbols = site.frame.env.symbols) {params : List VarId} :
    ∀ {index args code scope i c w log},
      copyParams site.frame.env index params = .ok code → args.length = params.length →
      site.Arrived index args c →
      site.frame.base.toNat + 8 + 4 * (index + args.length) ≤ 2 ^ 32 →
      Layout.Laid site.frame.env.symbols site.frame.env.frames site.frame.reserved
        (scope ++ params) →
      site.image.Has i code → site.frame.Holds scope w.store c →
      Shown site.shows w.events log →
      Simulates site.image site.shows site.bound (s.bind params args) w ⟨.inside i, c, log⟩
        (site.Ends (scope ++ params) c (i + code.length) fun _ _ => True) := by
  induction params with
  | nil =>
    intro index args code scope i c w log ok count _ _ _ _ holds shown
    cases pure_eq_ok.mp ok
    rw [List.append_nil]
    exact .of_outcome (fun _ => by cases args <;> rfl) shown
      ⟨⟨rfl, Activation.kept_refl _ c, holds⟩, trivial⟩
  | cons v rest ih =>
    intro index args code scope i c w log ok count arrived room laid here holds shown
    obtain ⟨p, later, place, ahead, rfl⟩ := copyParams_cons_ok ok
    obtain ⟨hereCopy, hereLater⟩ := Image.has_append.mp here
    obtain ⟨d, slot, operand⟩ := Activation.at_of_place place
    cases args with
    | nil => cases count
    | cons x args =>
      rw [List.length_cons] at count room
      have known : v ∈ scope ++ v :: rest := by simp
      -- The word is cut off to the variable's width on the way through the accumulator.
      generalize moved : c.setReg .ax (Cpu.blend (c.reg .ax) p.width
        (c.value site.image.data p.width (.frame (Int32.ofNat (8 + 4 * index))))) = c₁
      have accumulated : c₁.low p.width .ax =
          ((x.setWidth p.width.bits).signExtend 32).setWidth p.width.bits := by
        rw [← moved, Cpu.low_setReg_blend, value_arrived arrived holds]
      have first : c.run site.image.data
          [.mov p.width (.frame (Int32.ofNat (8 + 4 * index))) .acc] = .ok c₁ := by
        rw [← moved]
        rfl
      obtain ⟨kept₁, still₁⟩ := Activation.after_computing (A := site.frame)
        (computing_of_computes rfl) first
      have holds₁ := still₁ holds
      obtain ⟨kept₂, holds₂⟩ := Activation.after_store laid (List.subset_append_left _ _) known slot
        holds₁ ((x.setWidth p.width.bits).signExtend 32)
      rw [← accumulated] at kept₂ holds₂
      have second : c₁.run site.image.data [.mov p.width .acc p.operand] = .ok (c₁.setMem
          (c₁.mem.write (site.frame.base - BitVec.ofNat 32 d) p.width (c₁.low p.width .ax))) := by
        rw [← holds₁.base, ← add_neg_disp, operand]
        rfl
      have kept := Activation.kept_trans kept₁ kept₂
      refine .after_steps (Image.steps_run hereCopy (Cpu.run_append_ok.mpr ⟨c₁, first, second⟩))
        (Nat.le_add_right _ _) ?_
      rw [Setting.bind, widthOf_at symbols slot, pure_bind]
      refine .bind (.of_modify shown) ?_
      rintro _ _ _ shown' ⟨rfl, rfl⟩
      have rest := ih ahead (Nat.succ.inj count) (arrived_later arrived kept holds.room room)
        (by omega) (by rwa [List.append_assoc]) hereLater holds₂ shown'
      rw [List.append_assoc] at rest
      exact ends_later kept (by rw [List.length_append, Nat.add_assoc]) rest

end

end Site

end Ia32Backend
