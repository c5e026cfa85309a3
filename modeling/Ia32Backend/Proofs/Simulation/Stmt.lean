import Ia32Backend.Proofs.Simulation.Branches
import Mathlib.Data.List.Forall2

/-!
Statements and bodies: their code carries out their meaning. A declaration has no code: its
variables hold whatever lies in their slots. A return hands over its value, asks for the pause where
it stands directly in the entry function, and takes the frame down.
-/
namespace Ia32Backend

theorem shown_report {shows : Event → RuntimeCall → Prop} {events : List Event}
    {log : List RuntimeCall} {e : Event} {r : RuntimeCall} (shown : Shown shows events log)
    (now : shows e r) : Shown shows (events ++ [e]) (log ++ [r]) :=
  List.rel_append shown (.cons now .nil)

namespace Site

/-- The runtime's routines stand outside the unit, and a call of one shows what was asked for. -/
structure Runtime (site : Site) : Prop where
  external : ∀ name ∈ [site.frame.env.config.startRoutine, site.frame.env.config.pauseRoutine],
    site.image.find name = none
  started : ∀ x, site.shows .started ⟨site.frame.env.config.startRoutine, x⟩
  paused : ∀ label, site.frame.env.strings.pauseLabel = .ok label →
    site.shows .paused ⟨site.frame.env.config.pauseRoutine, site.image.data label⟩

section
variable {site : Site} {scope : List VarId}

theorem carries_pause {i : Nat} {c : Cpu} {w : World} {log : List RuntimeCall} {code : List Instr}
    (laid : Layout.Laid site.frame.env.symbols site.frame.env.frames site.frame.reserved scope)
    (runtime : site.Runtime) (ok : site.frame.env.pause = .ok code)
    (here : site.image.Has i code) (holds : site.frame.Holds scope w.store c)
    (shown : Shown site.shows w.events log) :
    Simulates site.image site.shows site.bound (Run.report .paused) w ⟨.inside i, c, log⟩
      (site.Ends scope c (i + code.length) fun _ c' => c'.reg .ax = c.reg .ax) := by
  obtain ⟨label, pooled, rfl⟩ := Env.pause_ok ok
  obtain ⟨herePush, here⟩ := Image.has_append (a := [.push .acc]).mp here
  obtain ⟨hereText, here⟩ := Image.has_append (a := [.push (.addr label)]).mp here
  obtain ⟨hereCall, here⟩ := Image.has_cons.mp here
  obtain ⟨hereDrop, herePop⟩ := Image.has_append
    (a := [.arith .add .long (.imm 4) (.reg .sp)]).mp here
  refine .after_push herePush ?_
  intro c₁ pushed
  obtain ⟨kept₁, holds₁, top₁, _⟩ := Activation.after_push pushed laid holds
  refine .after_push hereText ?_
  intro c₂ text
  obtain ⟨kept₂, holds₂, top₂, _⟩ := Activation.after_push text laid holds₁
  refine .after_routine hereCall (runtime.external _ (by simp)) ?_
  have returned := site.image.returns log site.frame.env.config.pauseRoutine c₂
  obtain ⟨kept₃, holds₃⟩ := Activation.after_call returned laid holds₂
  generalize site.image.runtime log site.frame.env.config.pauseRoutine c₂ = c₃ at *
  obtain ⟨c₄, dropped, sp₄, regs₄, mem₄⟩ := run_drop site.image.data c₃ 4
  have deeper := Activation.kept_trans kept₂ kept₃
  obtain ⟨kept₄, holds₄⟩ := Activation.after_raise (n := 0) deeper holds₃ holds₁.room sp₄
    (fun r member => regs₄ r (by rintro rfl; simp at member)) mem₄
  obtain ⟨c₅, popped, acc, sp₅, regs₅, mem₅⟩ := run_pop site.image.data c₄ (r := .ax) (by decide)
  have saved := Activation.kept_trans kept₁ kept₄
  obtain ⟨kept₅, holds₅⟩ := Activation.after_raise (n := 0) saved holds₄ holds.room sp₅
    (fun r member =>
      regs₅ r (by rintro rfl; simp at member) (by rintro rfl; simp at member)) mem₅
  refine .after_steps (Image.steps_run hereDrop dropped) (Nat.le_add_right _ _) ?_
  refine .after_steps (Image.steps_run herePop popped) (Nat.le_add_right _ _) ?_
  have below := kept₁.sp
  have room := holds.room
  have shown' := shown_report shown (runtime.paused label pooled)
  have argument : c₂.top = site.image.data label := top₂.trans (BitVec.setWidth_eq _)
  have result : c₅.reg .ax = c.reg .ax := by
    rw [acc, top_kept kept₄ (by omega), top₁]
    exact BitVec.setWidth_eq _
  exact .of_outcome (fun _ => rfl) (by rw [argument]; exact shown')
    ⟨⟨rfl, kept₅, holds₅⟩, result⟩

theorem carries_pauseWhen {direct : Bool} {i : Nat} {c : Cpu} {w : World} {log : List RuntimeCall}
    {code : List Instr}
    (laid : Layout.Laid site.frame.env.symbols site.frame.env.frames site.frame.reserved scope)
    (runtime : site.Runtime) (ok : site.frame.env.pauseWhen direct = .ok code)
    (here : site.image.Has i code) (holds : site.frame.Holds scope w.store c)
    (shown : Shown site.shows w.events log) :
    Simulates site.image site.shows site.bound (pauseWhen direct) w ⟨.inside i, c, log⟩
      (site.Ends scope c (i + code.length) fun _ c' => c'.reg .ax = c.reg .ax) := by
  cases direct with
  | true => exact carries_pause laid runtime ok here holds shown
  | false =>
    cases pure_eq_ok.mp ok
    exact .of_outcome (fun _ => rfl) shown ⟨⟨rfl, Activation.kept_refl _ c, holds⟩, rfl⟩

/-- The frame is taken down and control goes back to the caller. -/
theorem steps_epilogue {i : Nat} {c : Cpu} (log : List RuntimeCall)
    (here : site.image.Has i epilogue) (base : c.reg .bp = site.frame.base) :
    ∃ t, site.image.Steps 2 ⟨.inside i, c, log⟩ t ∧ site.Left c t ∧ t.cpu.reg .ax = c.reg .ax ∧
      t.log = log := by
  obtain ⟨t, steps, pos, sp, bp, regs, mem, same⟩ := Image.steps_epilogue log here
  rw [base] at pos sp bp
  refine ⟨t, steps, ⟨pos, sp, bp, ?_, fun _ _ => by rw [mem]⟩, ?_, same⟩
  · exact fun r member => regs r (by rintro rfl; simp at member) (by rintro rfl; simp at member)
  · exact regs .ax (by decide) (by decide)

/-- The value of a return, extended to a long. -/
theorem carries_result {ev : Expr → Run Value} {value : Option Expr} {i : Nat} {c : Cpu}
    {w : World} {log : List RuntimeCall} {code : List Instr}
    (does : ∀ e ∈ value, ∀ v, e.code site.frame.env = .ok v →
      site.Does scope v.code (ev e) false (Gives v.width))
    (ok : returnValue site.frame.env value = .ok code) (here : site.image.Has i code)
    (holds : site.frame.Holds scope w.store c) (shown : Shown site.shows w.events log) :
    Simulates site.image site.shows site.bound (Stmt.result ev value) w ⟨.inside i, c, log⟩
      (site.Ends scope c (i + code.length) fun r c' => ∀ x, r = some x → c'.reg .ax = x) := by
  cases value with
  | none =>
    cases pure_eq_ok.mp ok
    exact .of_outcome (a := none) (fun _ => rfl) shown
      ⟨⟨rfl, Activation.kept_refl _ c, holds⟩, fun _ some => by cases some⟩
  | some e =>
    obtain ⟨v, inner, rfl⟩ := returnValue_some_ok ok
    refine .bind (does_at (does e rfl v inner) .long i c w log here holds shown) ?_
    rintro x w' ⟨pos, c', log'⟩ shown' ⟨settled, value, _⟩
    refine .of_outcome (a := some (x.at .long)) (fun _ => rfl) shown' ⟨settled, ?_⟩
    rintro _ ⟨⟩
    exact (Cpu.low_long c' .ax).symm.trans value.symm

theorem runs_ret {ev : Expr → Run Value} {value : Option Expr} {direct : Bool}
    {result pause : List Instr} (tall : site.frame.base.toNat + 8 ≤ 2 ^ 32)
    (laid : Layout.Laid site.frame.env.symbols site.frame.env.frames site.frame.reserved scope)
    (runtime : site.Runtime)
    (does : ∀ e ∈ value, ∀ v, e.code site.frame.env = .ok v →
      site.Does scope v.code (ev e) false (Gives v.width))
    (ok : returnValue site.frame.env value = .ok result)
    (paused : site.frame.env.pauseWhen direct = .ok pause) :
    site.Runs scope scope (result ++ pause ++ epilogue)
      (do let r ← Stmt.result ev value
          pauseWhen direct
          pure (.returned r)) true := by
  intro i c w log here holds shown
  obtain ⟨here, hereEnd⟩ := Image.has_append.mp here
  obtain ⟨hereResult, herePause⟩ := Image.has_append.mp here
  refine .bind (carries_result does ok hereResult holds shown) ?_
  rintro r w₁ ⟨_, c₁, log₁⟩ shown₁ ⟨⟨rfl, kept₁, holds₁⟩, value⟩
  refine .bind (carries_pauseWhen laid runtime paused herePause holds₁ shown₁) ?_
  rintro _ w₂ ⟨_, c₂, log₂⟩ shown₂ ⟨⟨rfl, kept₂, holds₂⟩, acc⟩
  rw [List.length_append, ← Nat.add_assoc] at hereEnd
  obtain ⟨t, steps, left, same, log⟩ := steps_epilogue log₂ hereEnd holds₂.base
  refine .after_steps steps (Nat.le_add_right _ _) (.of_outcome (fun _ => rfl) ?_ ⟨?_, ?_⟩)
  · rw [log]
    exact shown₂
  · exact left_later tall (Nat.le_trans (Nat.le_add_right _ _) holds.room)
      (Activation.kept_trans kept₁ kept₂) left
  · intro x returned
    rw [same, acc, value x returned]

/-! Declarations. -/

/-- A variable that has a slot holds some word, whatever lies there. -/
theorem holds_declared {v : VarId} {store : VarId → Word} {c : Cpu}
    (holds : site.frame.Holds scope store c) :
    ∃ x, site.frame.Holds (scope ++ [v]) (fun u => if u = v then x else store u) c := by
  have word : ∃ x : Word, ∀ d w, site.frame.At v d w →
      c.mem.read (site.frame.base - BitVec.ofNat 32 d) w = x.setWidth w.bits := by
    by_cases placed : ∃ d w, site.frame.At v d w
    · obtain ⟨d, w, here⟩ := placed
      refine ⟨(c.mem.read (site.frame.base - BitVec.ofNat 32 d) w).signExtend 32, ?_⟩
      intro e u there
      obtain ⟨rfl, rfl⟩ := Activation.at_unique here there
      exact (Value.setWidth_signExtend _ (by cases w <;> decide)).symm
    · exact ⟨0, fun d w here => absurd ⟨d, w, here⟩ placed⟩
  obtain ⟨x, reads⟩ := word
  refine ⟨x, ⟨holds.base, holds.room, ?_⟩⟩
  intro u known d w here
  by_cases same : u = v
  · subst u
    rw [if_pos rfl]
    exact reads d w here
  · rw [if_neg same]
    refine holds.slots u ?_ d w here
    simpa [same] using known

theorem carries_declare {v : VarId} {w : World} {t : State} (x : Word)
    (shown : Shown site.shows w.events t.log) :
    Simulates site.image site.shows site.bound (Run.choose >>= Run.setVariable v) w t
      fun _ w' t' => w'.store = (fun u => if u = v then x else w.store u) ∧ t' = t :=
  Or.inr ⟨[x], (.ok (), _), fun _ => rfl, 0, t, .refl t, shown, rfl, rfl⟩

theorem carries_declareAll {vars : List VarId} {pos : Nat} {c : Cpu} :
    ∀ {scope w log}, site.frame.Holds scope w.store c → Shown site.shows w.events log →
      Simulates site.image site.shows site.bound (declareAll vars) w ⟨.inside pos, c, log⟩
        (site.Ends (scope ++ vars) c pos fun _ _ => True) := by
  induction vars with
  | nil =>
    intro scope w log holds shown
    rw [List.append_nil]
    exact .of_outcome (fun _ => rfl) shown ⟨⟨rfl, Activation.kept_refl _ c, holds⟩, trivial⟩
  | cons v rest ih =>
    intro scope w log holds shown
    obtain ⟨x, declared⟩ := holds_declared (v := v) holds
    rw [declareAll, ← bind_assoc]
    refine .bind (carries_declare x shown) ?_
    rintro _ w' _ shown' ⟨store, rfl⟩
    have later := ih (store ▸ declared) shown'
    rwa [List.append_assoc, List.singleton_append] at later

theorem runs_declare (vars : List VarId) :
    site.Runs scope (scope ++ vars) [] (do
      declareAll vars
      pure .next) false := by
  intro i c w log _ holds shown
  refine .bind (carries_declareAll holds shown) ?_
  rintro _ w' t shown' ⟨settled, _⟩
  exact .of_outcome (fun _ => rfl) shown' ⟨settled, rfl⟩

/-! Bodies. -/

theorem runs_of_does {α : Type} {code : List Instr} {run : Run α} {spares : Bool}
    {right : α → Cpu → Prop} (does : site.Does scope code run spares right) :
    site.Runs scope scope code (run >>= fun _ => pure .next) false := by
  intro i c w log here holds shown
  refine .bind (does i c w log here holds shown) ?_
  rintro x w' t shown' ⟨settled, _⟩
  exact .of_outcome (fun _ => rfl) shown' ⟨settled, rfl⟩

theorem runs_forget {code : List Instr} {run : Run Flow} {returns : Bool}
    (runs : site.Runs scope scope code run returns) : site.Runs scope scope code run false := by
  intro i c w log here holds shown
  refine .mono (Nat.le_refl _) ?_ (runs i c w log here holds shown)
  rintro (_ | r) w' t flows
  · exact ⟨flows.1, rfl⟩
  · exact flows

/-- Code that runs first and leaves the flow to the code behind it. -/
theorem runs_after {α : Type} {after : List VarId} {a b : List Instr} {first : Run α}
    {second : Run Flow} {spares returns : Bool} {right : α → Cpu → Prop}
    (tall : site.frame.base.toNat + 8 ≤ 2 ^ 32) (does : site.Does scope a first spares right)
    (runs : site.Runs scope after b second returns) :
    site.Runs scope after (a ++ b) (first >>= fun _ => second) returns := by
  intro i c w log here holds shown
  obtain ⟨hereA, hereB⟩ := Image.has_append.mp here
  refine .bind (does i c w log hereA holds shown) ?_
  rintro x w₁ ⟨_, c₁, log₁⟩ shown₁ ⟨⟨rfl, kept₁, holds₁⟩, _⟩
  refine flows_later tall (Nat.le_trans (Nat.le_add_right _ _) holds.room) kept₁ ?_
    (runs _ c₁ w₁ log₁ hereB holds₁ shown₁)
  rw [List.length_append, Nat.add_assoc]

theorem runs_then {mid : List VarId} {a b : List Instr} {first second : Run Flow}
    {returns later whole : Bool} (tall : site.frame.base.toNat + 8 ≤ 2 ^ 32)
    (before : site.Runs scope mid a first returns) (behind : site.Runs mid mid b second later)
    (subset : scope ⊆ mid) (goesOn : returns = false → later = false → whole = false) :
    site.Runs scope scope (a ++ b) (first >>= fun flow => match flow with
      | .returned value => pure (.returned value)
      | .next => second) whole := by
  intro i c w log here holds shown
  obtain ⟨hereA, hereB⟩ := Image.has_append.mp here
  have room := Nat.le_trans (Nat.le_add_right _ _) holds.room
  refine .bind (before i c w log hereA holds shown) ?_
  rintro flow w₁ ⟨pos, c₁, log₁⟩ shown₁ flows
  cases flow with
  | returned r => exact .of_outcome (fun _ => rfl) shown₁ flows
  | next =>
    obtain ⟨⟨rfl, kept₁, holds₁⟩, first⟩ := flows
    have whole : i + a.length + b.length = i + (a ++ b).length := by
      rw [List.length_append, Nat.add_assoc]
    refine .mono (Nat.le_refl _) ?_ (flows_later tall room kept₁ whole
      (behind _ c₁ w₁ log₁ hereB holds₁ shown₁))
    rintro (_ | r) w₂ t flows
    · obtain ⟨⟨position, kept, held⟩, second⟩ := flows
      exact ⟨⟨position, kept, Activation.holds_subset held subset⟩, goesOn first second⟩
    · exact flows

theorem runs_loop {head done : String} {test : ValueCode} {inner step : List Instr}
    {tested : Run Bool} {body : Run Flow} {stepped : Run Unit} {spares returns : Bool} {fuel : Nat}
    (tall : site.frame.base.toNat + 8 ≤ 2 ^ 32) (distinct : (labelsOf site.image.code).Nodup)
    (enough : site.bound ≤ fuel)
    (decides : site.Does scope (test.code ++ maskCode test.width) tested spares (Decides .ge))
    (inside : site.Runs scope scope inner body returns)
    (advances : site.Does scope step stepped false fun _ _ => True) :
    site.Runs scope scope (loopCode head done test inner step) (loop tested body stepped fuel)
      false := by
  intro i c w log here holds shown
  have carried := carries_loop tall distinct decides inside advances here fuel c w log holds shown
  rwa [Nat.min_eq_right enough] at carried

theorem does_nothing (scope : List VarId) :
    site.Does scope [] (pure ()) false fun _ _ => True := by
  intro i c w log _ holds shown
  exact .of_outcome (fun _ => rfl) shown
    ⟨⟨rfl, Activation.kept_refl _ c, holds⟩, trivial, unspared⟩

theorem does_step {ev : Expr → Run Value} {step : Option Expr} {code : List Instr}
    (does : ∀ e ∈ step, ∀ v, e.code site.frame.env = .ok v →
      site.Does scope v.code (ev e) false (Gives v.width))
    (ok : stepCode site.frame.env step = .ok code) :
    site.Does scope code (Stmt.advance ev step) false fun _ _ => True := by
  cases step with
  | none =>
    cases pure_eq_ok.mp ok
    exact does_nothing scope
  | some e =>
    obtain ⟨v, inner, rfl⟩ := stepCode_some_ok ok
    exact does_map (f := fun _ => ()) (does e rfl v inner) fun _ _ _ => trivial

theorem endsInReturn_cons {s : Stmt} {rest : List Stmt} (here : s.isReturn = false)
    (later : endsInReturn rest = false) : endsInReturn (s :: rest) = false := by
  cases rest with
  | nil => simpa [endsInReturn] using here
  | cons next more => simpa [endsInReturn] using later

/-- An evaluator that the code of expressions carries out. -/
def Evaluates (site : Site) (p : Program) (ev : Expr → Run Value) : Prop :=
  ∀ {scope} {e : Expr} {v},
    Layout.Laid site.frame.env.symbols site.frame.env.frames site.frame.reserved scope →
    e.names ⊆ scope ∧ e.Resolved p → e.code site.frame.env = .ok v →
    site.Does scope v.code (ev e) false (Gives v.width)

/-- The code of a body carries out its meaning. -/
theorem runs_body {p : Program} {ev : Expr → Run Value} {fuel : Nat}
    (tall : site.frame.base.toNat + 8 ≤ 2 ^ 32) (distinct : (labelsOf site.image.code).Nodup)
    (runtime : site.Runtime) (enough : site.bound ≤ fuel) (evaluates : site.Evaluates p ev)
    (body : List Stmt) : ∀ direct l code last scope,
      Stmt.codeAll site.frame.env direct l body = .ok (code, last) →
      (∀ inside ∈ Stmt.scopesOf scope body, Layout.Laid site.frame.env.symbols
        site.frame.env.frames site.frame.reserved inside) →
      (∀ use ∈ Stmt.usesOf scope body, use.2.names ⊆ use.1 ∧ use.2.Resolved p) →
      site.Runs scope scope code (Stmt.execAll ev fuel direct body) (endsInReturn body) := by
  induction body using Stmt.body_induction with
  | nil =>
    intro direct l code last scope ok _ _ i c w log _ holds shown
    cases pure_eq_ok.mp ok
    exact .of_outcome (fun _ => rfl) shown ⟨⟨rfl, Activation.kept_refl _ c, holds⟩, rfl⟩
  | cons s rest nested ih =>
    intro direct l code last scope ok laid uses
    obtain ⟨first, mid, later, here, ahead, rfl⟩ := Stmt.codeAll_cons_ok ok
    simp only [Stmt.scopesOf, List.mem_cons, List.mem_append] at laid
    simp only [Stmt.usesOf, List.mem_append] at uses
    have now := laid scope (Or.inl rfl)
    have behind := ih direct mid later last _ ahead (fun inside member =>
      laid inside (Or.inr (Or.inr member))) fun use member => uses use (Or.inr member)
    rw [Stmt.execAll]
    refine runs_then tall ?_ behind (List.subset_append_left _ _)
      endsInReturn_cons
    have used : ∀ use ∈ s.uses scope, use.2.names ⊆ use.1 ∧ use.2.Resolved p :=
      fun use member => uses use (Or.inl member)
    have scopes : ∀ inside ∈ s.scopes scope, Layout.Laid site.frame.env.symbols
        site.frame.env.frames site.frame.reserved inside :=
      fun inside member => laid inside (Or.inr (Or.inl member))
    have does : ∀ {e : Expr}, (scope, e) ∈ s.uses scope → ∀ v, e.code site.frame.env = .ok v →
        site.Does scope v.code (ev e) false (Gives v.width) :=
      fun member v ok => evaluates now (used _ member) ok
    cases s with
    | function decl => exact (throw_ne_ok here).elim
    | declare vars =>
      cases pure_eq_ok.mp here
      exact runs_declare vars
    | block b =>
      obtain ⟨id, body⟩ := b
      change site.Runs scope (scope ++ []) _ _ _
      rw [List.append_nil, Stmt.exec]
      exact runs_forget (nested id body (.block id body) false l first mid scope here scopes used)
    | ifThen test b =>
      obtain ⟨id, body⟩ := b
      obtain ⟨t, inner, tested, inside, rfl⟩ := Stmt.code_ifThen_ok here
      change site.Runs scope (scope ++ []) _ _ _
      rw [List.append_nil, Stmt.exec]
      exact runs_ifThen tall distinct (does_compared (does List.mem_cons_self t tested))
        (nested id body (.ifThen test id body) false _ inner mid scope inside scopes
          fun use member => used use (List.mem_cons_of_mem _ member))
    | whileLoop test b =>
      obtain ⟨id, body⟩ := b
      obtain ⟨t, inner, tested, inside, rfl⟩ := Stmt.code_whileLoop_ok here
      change site.Runs scope (scope ++ []) _ _ _
      rw [List.append_nil, Stmt.exec]
      exact runs_loop tall distinct enough (does_masked (does List.mem_cons_self t tested))
        (nested id body (.whileLoop test id body) false _ inner mid scope inside scopes
          fun use member => used use (List.mem_cons_of_mem _ member)) (does_nothing scope)
    | forLoop init test step b =>
      obtain ⟨id, body⟩ := b
      obtain ⟨i, t, inner, stepped, initial, tested, inside, next, rfl⟩ := Stmt.code_forLoop_ok here
      change site.Runs scope (scope ++ []) _ _ _
      rw [List.append_nil, Stmt.exec]
      refine runs_after tall (does List.mem_cons_self i initial) (runs_loop tall distinct enough
        (does_masked (does (List.mem_cons_of_mem _ List.mem_cons_self) t tested))
        (nested id body (.forLoop init test step id body) false _ inner mid scope inside scopes
          fun use member => used use ?_) (does_step (fun e member => does ?_) next))
      · exact List.mem_cons_of_mem _ (List.mem_cons_of_mem _ (List.mem_append_right _ member))
      · refine List.mem_cons_of_mem _ (List.mem_cons_of_mem _ (List.mem_append_left _ ?_))
        exact List.mem_map_of_mem (Option.mem_toList.mpr member)
    | ret value =>
      obtain ⟨v, pause, returned, paused, rfl, rfl⟩ := Stmt.code_ret_ok here
      change site.Runs scope (scope ++ []) _ _ _
      rw [List.append_nil, Stmt.exec]
      exact runs_ret tall now runtime (fun e member => does
        (List.mem_map_of_mem (Option.mem_toList.mpr member))) returned paused
    | eval e =>
      obtain ⟨c, evaluated, rfl, rfl⟩ := Stmt.code_eval_ok here
      change site.Runs scope (scope ++ []) _ _ _
      rw [List.append_nil, Stmt.exec]
      exact runs_of_does (does List.mem_cons_self c evaluated)

end

end Site

end Ia32Backend
