import Ia32Backend.Proofs.Simulation.Frame
import Ia32Backend.Proofs.Simulation.Logic
import Ia32Backend.Proofs.Uses

/-!
Code that carries out a run inside a function: it leaves the machine behind itself, with the stack
pointer where it was, the variables in their slots, and whatever waits on the stack still there.
-/
namespace Ia32Backend

/-- The arguments of a call, the first one on top of the stack. -/
def Cpu.Passes (c : Cpu) (args : List Word) : Prop :=
  ∀ k x, args[k]? = some x → c.mem.read (c.reg .sp + BitVec.ofNat 32 (4 * k)) .long = x

theorem Cpu.passes_nil (c : Cpu) : c.Passes [] := by
  intro k x found
  cases found

/-- One more argument lies on top of those that were pushed before, which read as they did. -/
theorem Cpu.passes_push {c c' : Cpu} {words : List Word} {x : Word} (passes : c.Passes words)
    (lower : (c'.reg .sp).toNat + 4 = (c.reg .sp).toNat) (top : c'.top = x)
    (fits : (c.reg .sp).toNat + 4 * words.length ≤ 2 ^ 32)
    (same : ∀ a : Word, (c.reg .sp).toNat ≤ a.toNat →
      a.toNat + 4 ≤ (c.reg .sp).toNat + 4 * words.length →
      c'.mem.read a .long = c.mem.read a .long) : c'.Passes (x :: words) := by
  intro k y found
  cases k with
  | zero =>
    cases found
    rw [Nat.mul_zero, BitVec.add_zero]
    exact top
  | succ k =>
    have below : k < words.length := by
      simpa using (List.getElem?_eq_some_iff.mp found).1
    have address : (c.reg .sp + BitVec.ofNat 32 (4 * k)).toNat = (c.reg .sp).toNat + 4 * k :=
      toNat_add_ofNat (by omega)
    rw [Nat.mul_succ, Nat.add_comm, add_ofNat_of_lower lower, ← passes k y found]
    exact same _ (by omega) (by omega)

/-- Nothing is claimed of a register that is not said to be spared. -/
theorem unspared {claim : Prop} (spared : false = true) : claim := absurd spared Bool.false_ne_true

/-- Where code is carried out: by which machine and in which frame, with at least so many steps
where the source runs out of fuel. -/
structure Site where
  image : Image
  shows : Event → RuntimeCall → Prop
  frame : Activation
  bound : Nat

namespace Site

/-- Where code that pushes so many bytes leaves the machine. -/
structure Settled (site : Site) (scope : List VarId) (start : Cpu) (n pos : Nat) (w : World)
    (t : State) : Prop where
  pos : t.pos = .inside pos
  kept : site.frame.Kept n start t.cpu
  holds : site.frame.Holds scope w.store t.cpu

/-- What code comes to that pushes nothing for good: a place, and what is right for the result. -/
def Ends (site : Site) (scope : List VarId) (start : Cpu) (pos : Nat) {α : Type}
    (right : α → Cpu → Prop) (x : α) (w : World) (t : State) : Prop :=
  site.Settled scope start 0 pos w t ∧ right x t.cpu

/-- Code carries out a run, wherever it stands, and ends behind itself. The other register is spared
where this is claimed. -/
def Does (site : Site) (scope : List VarId) (code : List Instr) {α : Type} (run : Run α)
    (spares : Bool) (right : α → Cpu → Prop) : Prop :=
  ∀ i c w log, site.image.Has i code → site.frame.Holds scope w.store c →
    Shown site.shows w.events log →
    Simulates site.image site.shows site.bound run w ⟨.inside i, c, log⟩
      (site.Ends scope c (i + code.length)
        fun x c' => right x c' ∧ (spares = true → c'.reg .dx = c.reg .dx))

/-- Calls in the code carry out what is called. -/
def Calls (site : Site) (p : Program) (call : FunctionId → List Word → Run Word) : Prop :=
  ∀ i callee symbol g args c w log, site.image.code[i]? = some (.call symbol.label) →
    site.frame.env.symbols.functionAt callee = .ok symbol → g ∈ p.functions → g.symbol = callee →
    g.params.length = args.length → c.Passes args →
    (c.reg .sp).toNat + 4 * args.length ≤ 2 ^ 32 → Shown site.shows w.events log →
    Simulates site.image site.shows site.bound (call callee args) w ⟨.inside i, c, log⟩
      fun x w' t => w'.store = w.store ∧ t.pos = .inside (i + 1) ∧ c.Returned t.cpu ∧
        t.cpu.reg .ax = x

section
variable {site : Site} {scope : List VarId} {α β : Type}

/-- What follows on a part that leaves alone what is to be left alone. -/
theorem ends_later {run : Run α} {w : World} {s : State} {c c' : Cpu} {pos there : Nat}
    {right : α → Cpu → Prop} (kept : site.frame.Kept 0 c c') (same : there = pos)
    (simulates : Simulates site.image site.shows site.bound run w s
      (site.Ends scope c' there right)) :
    Simulates site.image site.shows site.bound run w s (site.Ends scope c pos right) := by
  subst same
  refine .mono (Nat.le_refl _) ?_ simulates
  rintro x w' t ⟨⟨position, more, holds⟩, result⟩
  exact ⟨⟨position, Activation.kept_trans kept more, holds⟩, result⟩

theorem ends_weaken {run : Run α} {w : World} {s : State} {c : Cpu} {pos : Nat}
    {right wider : α → Cpu → Prop} (weaker : ∀ x c', right x c' → wider x c')
    (simulates : Simulates site.image site.shows site.bound run w s
      (site.Ends scope c pos right)) :
    Simulates site.image site.shows site.bound run w s (site.Ends scope c pos wider) :=
  .mono (Nat.le_refl _) (fun x _ t ends => ⟨ends.1, weaker x t.cpu ends.2⟩) simulates

/-- Code that computes a result without anything being run. -/
theorem does_computing {code : List Instr} {run : Run α} {right : α → Cpu → Prop}
    (computing : Computing code) (spares : ∀ i ∈ code, .dx ∉ i.sets)
    (ran : ∀ c w, site.frame.Holds scope w.store c → ∃ a c',
      c.run site.image.data code = .ok c' ∧
      (∀ later, run.outcome w later = ((.ok a, w), later)) ∧ right a c') :
    site.Does scope code run true right := by
  intro i c w log here holds shown
  obtain ⟨a, c', done, ends, result⟩ := ran c w holds
  obtain ⟨kept, still⟩ := Activation.after_computing (A := site.frame) computing done
  refine .after_steps (Image.steps_run here done) (Nat.le_add_right _ _) ?_
  exact .of_outcome ends shown ⟨⟨rfl, kept, still holds⟩, result,
    fun _ => Cpu.run_reg spares done⟩

/-- Code that goes on to compute with the result. -/
theorem does_then {a b : List Instr} {run : Run α} {spares : Bool} {right : α → Cpu → Prop}
    {wider : β → Cpu → Prop} {f : α → β} (first : site.Does scope a run spares right)
    (computing : Computing b) (spared : ∀ i ∈ b, .dx ∉ i.sets)
    (ran : ∀ x c, right x c → ∃ c', c.run site.image.data b = .ok c' ∧ wider (f x) c') :
    site.Does scope (a ++ b) (run >>= fun x => pure (f x)) spares wider := by
  intro i c w log here holds shown
  obtain ⟨hereA, hereB⟩ := Image.has_append.mp here
  refine .bind (first i c w log hereA holds shown) ?_
  rintro x w' ⟨pos, mid, log'⟩ shown' ⟨⟨rfl, kept, held⟩, result, same⟩
  obtain ⟨c', done, result'⟩ := ran x mid result
  obtain ⟨more, still⟩ := Activation.after_computing (A := site.frame) computing done
  refine .after_steps (Image.steps_run hereB done) (Nat.le_add_right _ _) ?_
  refine .of_outcome (fun _ => rfl) shown' ⟨⟨?_, Activation.kept_trans kept more, still held⟩,
    result', fun claimed => (Cpu.run_reg spared done).trans (same claimed)⟩
  rw [List.length_append, Nat.add_assoc]

/-- A result may be made something else of without any code. -/
theorem does_map {code : List Instr} {run : Run α} {spares : Bool} {right : α → Cpu → Prop}
    {wider : β → Cpu → Prop} {f : α → β} (does : site.Does scope code run spares right)
    (weaker : ∀ x c, right x c → wider (f x) c) :
    site.Does scope code (run >>= fun x => pure (f x)) spares wider := by
  have whole := does_then (b := []) does (fun _ member => (List.not_mem_nil member).elim)
    (fun _ member => (List.not_mem_nil member).elim) fun x c result => ⟨c, rfl, weaker x c result⟩
  rwa [List.append_nil] at whole

theorem does_unspared {code : List Instr} {run : Run α} {spares : Bool} {right : α → Cpu → Prop}
    (does : site.Does scope code run spares right) : site.Does scope code run false right :=
  fun i c w log here holds shown =>
    ends_weaken (fun _ _ result => ⟨result.1, unspared⟩) (does i c w log here holds shown)

end

end Site

end Ia32Backend
