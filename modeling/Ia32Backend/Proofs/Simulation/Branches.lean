import Ia32Backend.Proofs.Meaning.Unit
import Ia32Backend.Proofs.Simulation.Expr

/-!
Conditionals and loops: their code carries out their meaning, given that of the parts. A turn of a
loop takes a step at least, so where the source runs out of fuel in a loop, the machine has gone on
for as many steps.
-/
namespace Ia32Backend

namespace Site

/-- Where a return leaves the machine: with the caller, the frame taken down. -/
structure Left (site : Site) (start : Cpu) (t : State) : Prop where
  pos : t.pos = site.image.locate (start.mem.read (site.frame.base + 4) .long)
  sp : t.cpu.reg .sp = site.frame.base + 8
  bp : t.cpu.reg .bp = start.mem.read site.frame.base .long
  saved : ∀ r ∈ [Reg.bx, .si, .di], t.cpu.reg r = start.reg r
  above : ∀ x : Word, site.frame.base.toNat ≤ x.toNat → t.cpu.mem x = start.mem x

/-- Where a statement leaves the machine. One that always returns does not come to its end. -/
def Flows (site : Site) (scope : List VarId) (start : Cpu) (pos : Nat) (returns : Bool) :
    Flow → World → State → Prop
  | .next, w, t => site.Settled scope start 0 pos w t ∧ returns = false
  | .returned r, _, t => site.Left start t ∧ ∀ x, r = some x → t.cpu.reg .ax = x

/-- Code carries out a statement that stands in a scope and leaves another one. -/
def Runs (site : Site) (scope after : List VarId) (code : List Instr) (run : Run Flow)
    (returns : Bool) : Prop :=
  ∀ i c w log, site.image.Has i code → site.frame.Holds scope w.store c →
    Shown site.shows w.events log →
    Simulates site.image site.shows site.bound run w ⟨.inside i, c, log⟩
      (site.Flows after c (i + code.length) returns)

section
variable {site : Site} {scope after : List VarId}

theorem left_later {c c' : Cpu} {n : Nat} {t : State} (tall : site.frame.base.toNat + 8 ≤ 2 ^ 32)
    (room : (c.reg .sp).toNat ≤ site.frame.base.toNat) (kept : site.frame.Kept n c c')
    (left : site.Left c' t) : site.Left c t := by
  have next : (site.frame.base + 4).toNat = site.frame.base.toNat + 4 :=
    toNat_add_ofNat (d := 4) (by omega)
  have link := Activation.kept_mem kept (a := site.frame.base) room (by omega)
    (Or.inr (Nat.le_refl _))
  have back := Activation.kept_mem kept (a := site.frame.base + 4) (by omega) (by omega)
    (Or.inr (by omega))
  refine ⟨by rw [left.pos, back], left.sp, by rw [left.bp, link], ?_, ?_⟩
  · intro r member
    rw [left.saved r member, kept.saved r (List.mem_cons_of_mem _ member)]
  · intro x high
    rw [left.above x high, kept.outside x (by omega) (fun inside => by have := inside.2; omega)]

/-- What follows on a part of a statement that leaves alone what is to be left alone. -/
theorem flows_later {run : Run Flow} {w : World} {s : State} {c c' : Cpu} {pos there bound : Nat}
    {returns : Bool} (tall : site.frame.base.toNat + 8 ≤ 2 ^ 32)
    (room : (c.reg .sp).toNat ≤ site.frame.base.toNat) (kept : site.frame.Kept 0 c c')
    (same : there = pos)
    (simulates : Simulates site.image site.shows bound run w s
      (site.Flows scope c' there returns)) :
    Simulates site.image site.shows bound run w s (site.Flows scope c pos returns) := by
  subst same
  refine .mono (Nat.le_refl _) ?_ simulates
  intro flow w' t flows
  cases flow with
  | next =>
    obtain ⟨⟨position, more, holds⟩, goesOn⟩ := flows
    exact ⟨⟨position, Activation.kept_trans kept more, holds⟩, goesOn⟩
  | returned r => exact ⟨left_later tall room kept flows.1, flows.2⟩

/-- A test and the comparison behind it: the condition holds where the test fails. -/
def Decides (cond : Cond) (b : Bool) (c : Cpu) : Prop :=
  ∃ f, c.flags = some f ∧ cond.holds f = !b

/-- The mask of a loop's test, without the jump. -/
def maskCode (w : Width) : List Instr :=
  [.cmp w (.imm 0) .acc, .set .ne .acc, .movZero .acc .acc, .neg .long .acc]

theorem decides_compared (data : String → Word) {w : Width} {x : Value} {c : Cpu}
    (gives : Gives w x c) :
    ∃ c', c.run data [.cmp w (.imm 0) .acc] = .ok c' ∧ Decides .e x.isTrue c' := by
  subst gives
  refine ⟨_, rfl, _, rfl, ?_⟩
  rw [Cpu.value_zero, (Cond.holds_ofSub _ _).1, Value.isTrue, bne, Bool.not_not]
  rfl

theorem decides_masked (data : String → Word) {w : Width} {x : Value} {c : Cpu}
    (gives : Gives w x c) :
    ∃ c', c.run data (maskCode w) = .ok c' ∧ Decides .ge x.isTrue c' := by
  subst gives
  obtain ⟨c', f, done, flags, holds⟩ := Cpu.run_mask data c w
  refine ⟨c', done, f, flags, ?_⟩
  rw [holds, Value.isTrue, bne, Bool.not_not]

theorem does_compared {v : ValueCode} {ev : Expr → Run Value} {e : Expr} {spares : Bool}
    (does : site.Does scope v.code (ev e) spares (Gives v.width)) :
    site.Does scope (v.code ++ [.cmp v.width (.imm 0) .acc]) (Stmt.test ev e) spares
      (Decides .e) :=
  does_then does (computing_of_computes rfl) (by simp [Instr.sets]) fun _ _ gives =>
    decides_compared site.image.data gives

theorem does_masked {v : ValueCode} {ev : Expr → Run Value} {e : Expr} {spares : Bool}
    (does : site.Does scope v.code (ev e) spares (Gives v.width)) :
    site.Does scope (v.code ++ maskCode v.width) (Stmt.test ev e) spares (Decides .ge) :=
  does_then does (computing_of_computes rfl) (by simp [maskCode, Instr.sets, Operand.regs])
    fun _ _ gives => decides_masked site.image.data gives

/-- What follows on a statement that does not return. -/
theorem then_next {run rest : Run Flow} {w : World} {s : State} {c : Cpu} {pos there bound : Nat}
    {returns later : Bool}
    (first : Simulates site.image site.shows bound run w s (site.Flows scope c pos returns))
    (second : ∀ w' t, Shown site.shows w'.events t.log → site.Settled scope c 0 pos w' t →
      returns = false →
      Simulates site.image site.shows bound rest w' t (site.Flows after c there later)) :
    Simulates site.image site.shows bound (run >>= fun flow => match flow with
      | .returned value => pure (.returned value)
      | .next => rest) w s (site.Flows after c there later) := by
  refine .bind first ?_
  intro flow w' t shown flows
  cases flow with
  | next => exact second w' t shown flows.1 flows.2
  | returned r => exact .of_outcome (fun _ => rfl) shown flows

theorem bind_flow (run : Run Flow) :
    (run >>= fun flow => match flow with
      | .returned value => pure (.returned value)
      | .next => pure .next) = run := by
  refine (bind_congr fun flow => ?_).trans (bind_pure run)
  cases flow <;> rfl

/-- The label behind a conditional or a loop. -/
theorem carries_done {w : World} {c : Cpu} {t : State} {pos there bound : Nat} {done : String}
    (here : site.image.Has pos [.label done]) (shown : Shown site.shows w.events t.log)
    (settled : site.Settled scope c 0 pos w t) (same : pos + 1 = there) :
    Simulates site.image site.shows bound (pure .next) w t (site.Flows scope c there false) := by
  subst same
  obtain ⟨position, cpu, log⟩ := t
  obtain ⟨rfl, kept, holds⟩ := settled
  have passed : cpu.run site.image.data [.label done] = .ok cpu := rfl
  refine .after_steps (Image.steps_run here passed) (Nat.le_add_right _ _) ?_
  exact .of_outcome (fun _ => rfl) shown ⟨⟨rfl, kept, holds⟩, rfl⟩

theorem runs_ifThen {done : String} {test : ValueCode} {inner : List Instr} {tested : Run Bool}
    {body : Run Flow} {spares returns : Bool} (tall : site.frame.base.toNat + 8 ≤ 2 ^ 32)
    (distinct : (labelsOf site.image.code).Nodup)
    (decides : site.Does scope (test.code ++ [.cmp test.width (.imm 0) .acc]) tested spares
      (Decides .e))
    (inside : site.Runs scope scope inner body returns) :
    site.Runs scope scope (ifCode done test inner)
      (tested >>= fun b => if b then body else pure .next) false := by
  intro i c w log here holds shown
  have split : ifCode done test inner = (test.code ++ [.cmp test.width (.imm 0) .acc]) ++
      ([.jump .e done] ++ (inner ++ [.label done])) := by
    simp [ifCode]
  rw [split] at here ⊢
  obtain ⟨hereTest, here⟩ := Image.has_append.mp here
  obtain ⟨hereJump, here⟩ := Image.has_append.mp here
  obtain ⟨hereInner, hereDone⟩ := Image.has_append.mp here
  refine .bind (decides i c w log hereTest holds shown) ?_
  rintro b w₁ ⟨_, c₁, log₁⟩ shown₁ ⟨⟨rfl, kept₁, holds₁⟩, ⟨f, flags, fails⟩, _⟩
  have there := Image.find_eq distinct (Image.has_cons.mp hereDone).1
  refine .after_steps (Image.steps_jump (Image.has_cons.mp hereJump).1 there flags)
    (Nat.le_add_right _ _) ?_
  rw [fails]
  have room : (c.reg .sp).toNat ≤ site.frame.base.toNat :=
    Nat.le_trans (Nat.le_add_right _ _) holds.room
  cases b with
  | false =>
    refine carries_done hereDone shown₁ ⟨rfl, kept₁, holds₁⟩ ?_
    simp only [List.length_append, List.length_cons, List.length_nil]
    omega
  | true =>
    have ran := flows_later tall room kept₁ rfl (inside _ c₁ w₁ log₁ hereInner holds₁ shown₁)
    rw [if_pos rfl, ← bind_flow body]
    refine then_next ran fun w' t shown' settled _ => carries_done hereDone shown' settled ?_
    simp only [List.length_append, List.length_cons, List.length_nil]
    omega

theorem loopCode_eq (head done : String) (test : ValueCode) (inner step : List Instr) :
    loopCode head done test inner step = [.label head] ++ ((test.code ++ maskCode test.width) ++
      ([.jump .ge done] ++ (inner ++ (step ++ ([.jmp head] ++ [.label done]))))) := by
  simp [loopCode, leaveUnless, maskCode]

theorem carries_loop {head done : String} {test : ValueCode} {inner step : List Instr}
    {tested : Run Bool} {body : Run Flow} {stepped : Run Unit} {spares returns : Bool} {i : Nat}
    (tall : site.frame.base.toNat + 8 ≤ 2 ^ 32) (distinct : (labelsOf site.image.code).Nodup)
    (decides : site.Does scope (test.code ++ maskCode test.width) tested spares (Decides .ge))
    (inside : site.Runs scope scope inner body returns)
    (advances : site.Does scope step stepped false fun _ _ => True)
    (here : site.image.Has i (loopCode head done test inner step)) :
    ∀ k c w log, site.frame.Holds scope w.store c → Shown site.shows w.events log →
      Simulates site.image site.shows (min k site.bound) (loop tested body stepped k) w
        ⟨.inside i, c, log⟩
        (site.Flows scope c (i + (loopCode head done test inner step).length) false) := by
  rw [loopCode_eq] at here ⊢
  obtain ⟨hereHead, here⟩ := Image.has_append.mp here
  obtain ⟨hereTest, here⟩ := Image.has_append.mp here
  obtain ⟨hereJump, here⟩ := Image.has_append.mp here
  obtain ⟨hereInner, here⟩ := Image.has_append.mp here
  obtain ⟨hereStep, here⟩ := Image.has_append.mp here
  obtain ⟨hereBack, hereDone⟩ := Image.has_append.mp here
  have headFound := Image.find_eq distinct (Image.has_cons.mp hereHead).1
  have doneFound := Image.find_eq distinct (Image.has_cons.mp hereDone).1
  intro k
  induction k with
  | zero =>
    intro c w log _ shown
    exact .mono (Nat.min_le_left _ _) (fun _ _ _ right => right) (.of_outOfFuel shown)
  | succ k ih =>
    intro c w log holds shown
    have room : (c.reg .sp).toNat ≤ site.frame.base.toNat :=
      Nat.le_trans (Nat.le_add_right _ _) holds.room
    have less : min k site.bound ≤ site.bound := Nat.min_le_right _ _
    -- The head's label is the step that pays for this turn.
    have passed : c.run site.image.data [.label head] = .ok c := rfl
    have enough : min (k + 1) site.bound ≤ min k site.bound + [Instr.label head].length := by
      simp only [List.length_cons, List.length_nil]
      omega
    refine .after_steps (Image.steps_run hereHead passed) enough ?_
    refine .bind (.mono less (fun _ _ _ right => right)
      (decides _ c w log hereTest holds shown)) ?_
    rintro b w₁ ⟨_, c₁, log₁⟩ shown₁ ⟨⟨rfl, kept₁, holds₁⟩, ⟨f, flags, fails⟩, _⟩
    refine .after_steps (Image.steps_jump (Image.has_cons.mp hereJump).1 doneFound flags)
      (Nat.le_add_right _ _) ?_
    rw [fails]
    cases b with
    | false =>
      refine carries_done hereDone shown₁ ⟨rfl, kept₁, holds₁⟩ ?_
      simp only [List.length_append, List.length_cons, List.length_nil]
      omega
    | true =>
      have ran := flows_later tall room kept₁ rfl (.mono less (fun _ _ _ right => right)
        (inside _ c₁ w₁ log₁ hereInner holds₁ shown₁))
      refine then_next ran ?_
      rintro w₂ ⟨_, c₂, log₂⟩ shown₂ ⟨rfl, kept₂, holds₂⟩ _
      refine .bind (.mono less (fun _ _ _ right => right)
        (advances _ c₂ w₂ log₂ hereStep holds₂ shown₂)) ?_
      rintro _ w₃ ⟨_, c₃, log₃⟩ shown₃ ⟨⟨rfl, kept₃, holds₃⟩, _⟩
      refine .after_steps (Image.steps_goto (Image.has_cons.mp hereBack).1 headFound)
        (Nat.le_add_right _ _) ?_
      exact flows_later tall room (Activation.kept_trans kept₂ kept₃) rfl
        (ih c₃ w₃ log₃ holds₃ shown₃)

end

end Site

end Ia32Backend
