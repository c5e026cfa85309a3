import Ia32Backend.Proofs.StatementCode

/-!
Expressions without calls. What one comes to does not depend on anything behind the variables, a
division alone can end it early, and its code needs no more of a machine than slots for its
variables and a stack that lasts.
-/
namespace Ia32Backend

namespace Expr

variable {env : Env} {t : Terrain} {e : Expr} {v : ValueCode} {s : Store Unit}

/-- What has code and no calls has a value, unless a division faults. -/
theorem evaluate_settles (free : e.callFree = true) (ok : e.code env = .ok v)
    (faultless : e.evaluate t noCallees s ≠ .error .divide) :
    ∃ x after, e.evaluate t noCallees s = .ok (x, after) := by
  -- Callees that answer whatever they are asked end no evaluation.
  let answering : Callees Unit := fun _ _ _ => .ok (0, ())
  cases result : e.evaluate t noCallees s with
  | ok r => exact ⟨r.1, r.2, rfl⟩
  | error stop =>
    rw [evaluate_of_callFree free noCallees answering] at result faultless
    rcases Expr.proceeds_evaluate e v ok s stop result with rfl | ⟨_, _, _, silent⟩
    · exact (faultless result).elim
    · cases silent

end Expr

theorem Env.width_of_typeOf {env : Env} {v : VarId} {ty : ValueType}
    (declared : env.symbols.typeOf? v = some ty) (data : String → Word) (base : Word) :
    (env.terrain data base).width v = ty.width := by
  obtain ⟨s, entry, rfl⟩ := Option.map_eq_some_iff.mp declared
  simp [Env.terrain, entry]

theorem Image.fulfils_noCallees (m : Image) (env : Env) (base : Word) (names : List VarId)
    (shows : Unit → List RuntimeCall → Prop) : m.Fulfils env base names shows noCallees := by
  intro i c log s callee symbol args x rest _ _ _ _ _ _ _ _ answer
  cases answer

/-- A machine with the words of some variables in slots of their own between its stack pointer and
its frame pointer, and stack enough. -/
structure Stage (m : Image) (env : Env) (names : List VarId) (vars : VarId → Word) (t : State) :
    Prop where
  spread : (env.terrain m.data (t.cpu.reg .bp)).Spread names (t.cpu.reg .sp).toNat
    (t.cpu.reg .bp).toNat
  held : (env.terrain m.data (t.cpu.reg .bp)).Held names vars t.cpu.mem
  lasts : m.StackLasts t

namespace Stage

variable {m : Image} {env : Env} {names : List VarId} {vars : VarId → Word} {start : State}

/-- Evaluation on a stage, by code that calls nothing. -/
def evaluator (stage : Stage m env names vars start) : Evaluator m env (Store Unit) :=
  Ground.evaluator ⟨m, fun _ log => log = start.log, env, names, names,
    (start.cpu.reg .sp).toNat, start.cpu.reg .bp⟩ noCallees
    ⟨stage.spread, List.Subset.refl _⟩ (Image.fulfils_noCallees _ _ _ _ _)

theorem shown (stage : Stage m env names vars start) : stage.evaluator.shows ⟨vars, ()⟩ start :=
  ⟨⟨rfl, Nat.le_refl _, stage.held⟩, rfl, stage.lasts⟩

theorem eval_eq (stage : Stage m env names vars start) {e : Expr} {s after : Store Unit} {x : Value}
    (inside : e.names ⊆ names)
    (done : e.evaluate (env.terrain m.data (start.cpu.reg .bp)) noCallees s = .ok (x, after)) :
    stage.evaluator.eval e s = some (x, after) := by
  have both : e.names ⊆ names ∧ e.assigned ⊆ names :=
    ⟨inside, List.Subset.trans e.assigned_subset inside⟩
  change (if e.names ⊆ names ∧ e.assigned ⊆ names then
    (e.evaluate (env.terrain m.data (start.cpu.reg .bp)) noCallees s).toOption else none) = _
  rw [if_pos both, done]
  rfl

theorem held_at (stage : Stage m env names vars start) {base : Word}
    (frame : start.cpu.reg .bp = base) :
    (env.terrain m.data base).Held names vars start.cpu.mem := by
  subst frame
  exact stage.held

/-- The machine comes to a place, with other words in the variables and all else as the stage needs
it. -/
def Reaches (m : Image) (env : Env) (names : List VarId) (start : State) (pos : Nat)
    (vars : VarId → Word) (right : Cpu → Prop) : Prop :=
  ∃ n c, m.Steps n start ⟨.inside pos, c, start.log⟩ ∧
    Stage m env names vars ⟨.inside pos, c, start.log⟩ ∧ c.reg .sp = start.cpu.reg .sp ∧
    c.reg .bp = start.cpu.reg .bp ∧ right c

theorem reaches_of_evaluator (stage : Stage m env names vars start) {pos : Nat} {s : Store Unit}
    {right : Cpu → Prop} (reaches : stage.evaluator.Reaches start pos s right) :
    Reaches m env names start pos s.vars right := by
  obtain ⟨n, c, log, steps, ⟨holds, rfl, lasts⟩, sp, bp, result⟩ := reaches
  refine ⟨n, c, steps, ⟨?_, ?_, lasts⟩, sp, bp, result⟩
  · rw [sp, bp]
    exact stage.spread
  · rw [bp]
    exact holds.slots

variable {i : Nat} {c : Cpu} {log : List RuntimeCall} {e : Expr} {v : ValueCode}
  {s after : Store Unit} {x : Value}

/-- The code of an expression without calls leaves its value. -/
theorem reaches_value (stage : Stage m env names s.vars ⟨.inside i, c, log⟩)
    (inside : e.names ⊆ names) (lowered : e.code env = .ok v) (here : m.Has i v.code)
    (done : e.evaluate (env.terrain m.data (c.reg .bp)) noCallees s = .ok (x, after)) :
    Reaches m env names ⟨.inside i, c, log⟩ (i + v.code.length) after.vars (Gives v.width x) :=
  stage.reaches_of_evaluator
    (stage.evaluator.reaches_value lowered here stage.shown (stage.eval_eq inside done))

theorem reaches_at (stage : Stage m env names s.vars ⟨.inside i, c, log⟩)
    (inside : e.names ⊆ names) (lowered : e.code env = .ok v) (w : Width) (here : m.Has i (v.at w))
    (done : e.evaluate (env.terrain m.data (c.reg .bp)) noCallees s = .ok (x, after)) :
    Reaches m env names ⟨.inside i, c, log⟩ (i + (v.at w).length) after.vars
      fun c' => c'.low w .ax = x.at w :=
  stage.reaches_of_evaluator
    (stage.evaluator.reaches_at lowered w here stage.shown (stage.eval_eq inside done))

end Stage

end Ia32Backend
