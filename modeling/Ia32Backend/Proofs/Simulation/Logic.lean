import Ia32Backend.Proofs.Machine.Image
import Ia32Backend.Proofs.Meaning.Run

/-!
Runs of a source program carried out by the machine. The machine may run out of stack, which the
source knows nothing of. Otherwise it does what the run does for some choice of open words: it comes
to a state that is right for the result, or faults on the same division, or, where the run is out of
fuel, has taken at least a given number of steps. Its log shows the same events in each case.
-/
namespace Ia32Backend

section
variable (m : Image) (shows : Event → RuntimeCall → Prop)

/-- The log of runtime calls shows the events of a run. -/
def Shown (events : List Event) (log : List RuntimeCall) : Prop := List.Forall₂ shows events log

/-- What the machine does from a state, for each way in which a run can end. -/
def Carries {α : Type} (bound : Nat) (s : State) (post : α → World → State → Prop) :
    Outcome α → Prop
  | (.ok a, w) => ∃ n t, m.Steps n s t ∧ Shown shows w.events t.log ∧ post a w t
  | (.error .divide, w) => ∃ log, m.Traps s .divide log ∧ Shown shows w.events log
  | (.error .outOfFuel, w) => ∃ n t, bound ≤ n ∧ m.Steps n s t ∧ Shown shows w.events t.log
  | (.error .undefined, _) => False

/-- The machine, started in a state, carries out a run in a world. -/
def Simulates {α : Type} (bound : Nat) (run : Run α) (w : World) (s : State)
    (post : α → World → State → Prop) : Prop :=
  (∃ log, m.Traps s .stack log) ∨ ∃ used outcome,
    (∀ later, run.outcome w (used ++ later) = (outcome, later)) ∧
      Carries m shows bound s post outcome

end

namespace Simulates

section
variable {m : Image} {shows : Event → RuntimeCall → Prop} {α β : Type} {bound more n : Nat}
  {run : Run α} {w w' : World} {s t : State} {post wider : α → World → State → Prop}
  {log : List RuntimeCall}

theorem of_stack (ends : m.Traps s .stack log) : Simulates m shows bound run w s post :=
  Or.inl ⟨log, ends⟩

/-- A run that ends well without the machine having to move. -/
theorem of_outcome {a : α} (ends : ∀ later, run.outcome w later = ((.ok a, w'), later))
    (shown : Shown shows w'.events s.log) (right : post a w' s) :
    Simulates m shows bound run w s post :=
  Or.inr ⟨[], (.ok a, w'), ends, 0, s, .refl s, shown, right⟩

theorem of_modify {f : World → World} (shown : Shown shows (f w).events s.log) :
    Simulates m shows bound (modify f) w s fun _ w' t => w' = f w ∧ t = s :=
  of_outcome (fun _ => rfl) shown ⟨rfl, rfl⟩

theorem of_choose {post : Word → World → State → Prop} {x : Word}
    (shown : Shown shows w.events s.log) (right : post x w s) :
    Simulates m shows bound Run.choose w s post :=
  Or.inr ⟨[x], (.ok x, w), fun _ => rfl, 0, s, .refl s, shown, right⟩

theorem of_divide (faults : m.Traps s .divide log) (shown : Shown shows w.events log) :
    Simulates m shows bound (throw .divide) w s post :=
  Or.inr ⟨[], (.error .divide, w), fun _ => rfl, log, faults, shown⟩

theorem of_outOfFuel (shown : Shown shows w.events s.log) :
    Simulates m shows 0 (throw .outOfFuel) w s post :=
  Or.inr ⟨[], (.error .outOfFuel, w), fun _ => rfl, 0, s, Nat.le_refl 0, .refl s, shown⟩

theorem mono (less : bound ≤ more) (right : ∀ a w t, post a w t → wider a w t)
    (simulates : Simulates m shows more run w s post) : Simulates m shows bound run w s wider := by
  rcases simulates with stack | ⟨used, ⟨result, w'⟩, ends, carries⟩
  · exact Or.inl stack
  · refine Or.inr ⟨used, (result, w'), ends, ?_⟩
    cases result with
    | ok a =>
      obtain ⟨n, t, steps, shown, holds⟩ := carries
      exact ⟨n, t, steps, shown, right a w' t holds⟩
    | error stop =>
      cases stop with
      | divide => exact carries
      | outOfFuel =>
        obtain ⟨n, t, enough, rest⟩ := carries
        exact ⟨n, t, Nat.le_trans less enough, rest⟩
      | undefined => exact carries

/-- The machine may first take steps of its own. -/
theorem after_steps (first : m.Steps n s t) (enough : bound ≤ more + n)
    (simulates : Simulates m shows more run w t post) : Simulates m shows bound run w s post := by
  refine mono enough (fun _ _ _ right => right) ?_
  rcases simulates with ⟨log, stack⟩ | ⟨used, ⟨result, w'⟩, ends, carries⟩
  · exact Or.inl ⟨log, Image.traps_steps first stack⟩
  · refine Or.inr ⟨used, (result, w'), ends, ?_⟩
    cases result with
    | ok a =>
      obtain ⟨k, last, steps, rest⟩ := carries
      exact ⟨k + n, last, Image.steps_trans first steps, rest⟩
    | error stop =>
      cases stop with
      | divide =>
        obtain ⟨log, faults, shown⟩ := carries
        exact ⟨log, Image.traps_steps first faults, shown⟩
      | outOfFuel =>
        obtain ⟨k, last, enough, steps, shown⟩ := carries
        exact ⟨k + n, last, Nat.add_le_add_right enough n, Image.steps_trans first steps, shown⟩
      | undefined => exact carries

/-- One run after the other. -/
theorem bind {next : α → Run β} {last : β → World → State → Prop}
    (first : Simulates m shows bound run w s post)
    (second : ∀ a w t, Shown shows w.events t.log → post a w t →
      Simulates m shows bound (next a) w t last) :
    Simulates m shows bound (run >>= next) w s last := by
  rcases first with stack | ⟨used, ⟨result, w'⟩, ends, carries⟩
  · exact Or.inl stack
  · cases result with
    | ok a =>
      obtain ⟨n, t, steps, shown, holds⟩ := carries
      rcases after_steps steps (Nat.le_add_right bound n) (second a w' t shown holds) with
        stack | ⟨usedLater, outcome, endsLater, carriesLater⟩
      · exact Or.inl stack
      · refine Or.inr ⟨used ++ usedLater, outcome, ?_, carriesLater⟩
        intro later
        rw [Run.outcome_bind, List.append_assoc, ends]
        exact endsLater later
    | error stop =>
      refine Or.inr ⟨used, (.error stop, w'), ?_, ?_⟩
      · intro later
        rw [Run.outcome_bind, ends]
      · cases stop <;> exact carries

/-- Code that runs straight through, or out of stack. -/
theorem after_code (more : Nat) {code : List Instr} {i : Nat} {c : Cpu} (here : m.Has i code)
    (stackOnly : ∀ trap, c.run m.data code = .error trap → trap = .stack)
    (enough : bound ≤ more + code.length) (rest : ∀ c', c.run m.data code = .ok c' →
      Simulates m shows more run w ⟨.inside (i + code.length), c', log⟩ post) :
    Simulates m shows bound run w ⟨.inside i, c, log⟩ post := by
  cases ran : c.run m.data code with
  | ok c' => exact after_steps (Image.steps_run here ran) enough (rest c' ran)
  | error trap =>
    cases stackOnly trap ran
    exact of_stack (Image.traps_run here ran (by decide))

/-- A push, which may run out of stack. -/
theorem after_push {src : Operand} {i : Nat} {c : Cpu} (here : m.Has i [.push src])
    (rest : ∀ c', c.push (c.value m.data .long src) = .ok c' →
      Simulates m shows bound run w ⟨.inside (i + 1), c', log⟩ post) :
    Simulates m shows bound run w ⟨.inside i, c, log⟩ post := by
  refine after_code bound here ?_ (Nat.le_add_right _ _) ?_
  · intro trap failed
    cases pushed : c.push (c.value m.data .long src) with
    | ok c' =>
      simp only [Cpu.run, Cpu.exec, pushed] at failed
      cases failed
    | error cause =>
      simp only [Cpu.run, Cpu.exec, pushed] at failed
      cases failed
      exact Cpu.push_stack pushed
  · intro c' ran
    obtain ⟨mid, pushed, done⟩ := Cpu.run_cons_ok.mp ran
    cases pure_eq_ok.mp done
    exact rest _ pushed

/-- A call of the runtime, which may run out of stack. -/
theorem after_routine {name : String} {i : Nat} {c : Cpu}
    (found : m.code[i]? = some (.call name)) (external : m.find name = none)
    (rest : Simulates m shows bound run w
      ⟨.inside (i + 1), m.runtime log name c, log ++ [⟨name, c.top⟩]⟩ post) :
    Simulates m shows bound run w ⟨.inside i, c, log⟩ post := by
  by_cases room : 4 ≤ (c.reg .sp).toNat
  · refine after_steps (Image.steps_one found ?_) (Nat.le_add_right _ _) rest
    simp only [Image.perform, Image.call, external, if_pos room]
  · refine of_stack ⟨0, _, .refl _, (Image.step_inside found).trans ?_, rfl⟩
    simp only [Image.perform, Image.call, external, if_neg room]

end

end Simulates

end Ia32Backend
