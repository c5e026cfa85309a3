import Ia32Backend.Proofs.Meaning.BigStep
import Ia32Backend.Proofs.Simulation.Branches

/-!
Statements on the machine, for any meaning of expressions that the code of expressions carries out.
A body that comes to its end leaves the machine behind its code; one that returns leaves it at a
`leave` inside, with the value in the accumulator. The induction is on the big step: one rule for
each construct, and for a loop one turn.
-/
namespace Ia32Backend

/-- A meaning of expressions that their code carries out in an image, and how the machine shows a
store. -/
structure Evaluator (m : Image) (env : Env) (σ : Type) where
  eval : Expr → σ → Option (Value × σ)
  shows : σ → State → Prop
  /-- A store is shown until registers other than the accumulator or memory change. -/
  steady : ∀ {s t u n}, shows s t → m.Steps n t u → (∀ r, r ≠ .ax → u.cpu.reg r = t.cpu.reg r) →
    u.cpu.mem = t.cpu.mem → u.log = t.log → shows s u
  implements : ∀ {e v i c log s x after}, e.code env = .ok v → m.Has i v.code →
    shows s ⟨.inside i, c, log⟩ → eval e s = some (x, after) →
    ∃ n c' log', m.Steps n ⟨.inside i, c, log⟩ ⟨.inside (i + v.code.length), c', log'⟩ ∧
      shows after ⟨.inside (i + v.code.length), c', log'⟩ ∧ Gives v.width x c' ∧
      c'.reg .sp = c.reg .sp ∧ c'.reg .bp = c.reg .bp

namespace Evaluator

section
variable {m : Image} {env : Env} {σ : Type}

/-- The machine comes to a place with a store shown and the frame as it was. -/
def Reaches (E : Evaluator m env σ) (start : State) (pos : Nat) (s : σ) (right : Cpu → Prop) :
    Prop :=
  ∃ n c log, m.Steps n start ⟨.inside pos, c, log⟩ ∧ E.shows s ⟨.inside pos, c, log⟩ ∧
    c.reg .sp = start.cpu.reg .sp ∧ c.reg .bp = start.cpu.reg .bp ∧ right c

/-- The machine does what code between two positions is run for: it comes behind the code, or to an
epilogue inside it. -/
def Follows (E : Evaluator m env σ) (start : State) (low high : Nat) : Flow → σ → Prop
  | .next, s => E.Reaches start high s fun _ => True
  | .returned word, s => ∃ pos, low ≤ pos ∧ pos + 2 ≤ high ∧ m.Has pos epilogue ∧
      E.Reaches start pos s fun c => ∀ x ∈ word, c.reg .ax = x

/-- Code of a phrase, wherever it stands, follows its big step. -/
def Carries (E : Evaluator m env σ) : Phrase → σ → Flow → σ → Prop
  | .stmt stmt, s, flow, after => ∀ {l code last i c log},
      stmt.code env false l = .ok (code, last) → m.Has i code →
      E.shows s ⟨.inside i, c, log⟩ →
      E.Follows ⟨.inside i, c, log⟩ i (i + code.length) flow after
  | .body stmts, s, flow, after => ∀ {l code last i c log},
      Stmt.codeAll env false l stmts = .ok (code, last) → m.Has i code →
      E.shows s ⟨.inside i, c, log⟩ →
      E.Follows ⟨.inside i, c, log⟩ i (i + code.length) flow after
  | .loop test stmts step, s, flow, after => ∀ {head done t l inner last stepped i c log},
      test.code env = .ok t → Stmt.codeAll env false l stmts = .ok (inner, last) →
      stepCode env step = .ok stepped → m.Has i (loopCode head done t inner stepped) →
      E.shows s ⟨.inside i, c, log⟩ →
      E.Follows ⟨.inside i, c, log⟩ i (i + (loopCode head done t inner stepped).length) flow after

variable {E : Evaluator m env σ} {start : State} {pos there low high i n : Nat} {s mid after : σ}
  {right wider : Cpu → Prop} {flow : Flow} {c c' : Cpu} {log : List RuntimeCall}
  {code : List Instr} {e : Expr} {v : ValueCode} {x : Value} {name : String}

theorem reaches_refl (shown : E.shows s ⟨.inside i, c, log⟩) (result : right c) :
    E.Reaches ⟨.inside i, c, log⟩ i s right :=
  ⟨0, c, log, .refl _, shown, rfl, rfl, result⟩

theorem reaches_later (steps : m.Steps n start ⟨.inside pos, c, log⟩)
    (sp : c.reg .sp = start.cpu.reg .sp) (bp : c.reg .bp = start.cpu.reg .bp)
    (rest : E.Reaches ⟨.inside pos, c, log⟩ there after wider) :
    E.Reaches start there after wider := by
  obtain ⟨k, c', log', more, shown, sp', bp', result⟩ := rest
  exact ⟨k + n, c', log', Image.steps_trans steps more, shown, sp'.trans sp, bp'.trans bp, result⟩

theorem reaches_trans (first : E.Reaches start pos mid right)
    (next : ∀ c log, E.shows mid ⟨.inside pos, c, log⟩ → right c →
      E.Reaches ⟨.inside pos, c, log⟩ there after wider) :
    E.Reaches start there after wider := by
  obtain ⟨n, c, log, steps, shown, sp, bp, result⟩ := first
  exact reaches_later steps sp bp (next c log shown result)

theorem follows_trans (first : E.Reaches start pos mid right)
    (next : ∀ c log, E.shows mid ⟨.inside pos, c, log⟩ → right c →
      E.Follows ⟨.inside pos, c, log⟩ low high flow after) :
    E.Follows start low high flow after := by
  obtain ⟨n, c, log, steps, shown, sp, bp, result⟩ := first
  have rest := next c log shown result
  cases flow with
  | next => exact reaches_later steps sp bp rest
  | returned word =>
    obtain ⟨last, above, below, here, rest⟩ := rest
    exact ⟨last, above, below, here, reaches_later steps sp bp rest⟩

/-- A return inside a piece of code is one inside the code around it. -/
theorem follows_around {word : Option Word} {least most : Nat}
    (follows : E.Follows start low high (.returned word) after) (above : least ≤ low)
    (below : high ≤ most) : E.Follows start least most (.returned word) after := by
  obtain ⟨pos, first, last, here, rest⟩ := follows
  exact ⟨pos, by omega, by omega, here, rest⟩

/-- Code that works in the accumulator and on the flags alone. -/
theorem reaches_run (here : m.Has i code) (shown : E.shows s ⟨.inside i, c, log⟩)
    (ran : c.run m.data code = .ok c') (sets : ∀ instr ∈ code, instr.sets ⊆ [.ax])
    (pure : ∀ instr ∈ code, ∀ c, instr.written c = none) (result : right c') :
    E.Reaches ⟨.inside i, c, log⟩ (i + code.length) s right := by
  have regs : ∀ r, r ≠ .ax → c'.reg r = c.reg r := by
    intro r other
    refine Cpu.run_reg (fun instr member set => ?_) ran
    exact other (List.mem_singleton.mp (sets instr member set))
  have steps : m.Steps code.length ⟨.inside i, c, log⟩ ⟨.inside (i + code.length), c', log⟩ :=
    Image.steps_run here ran
  exact ⟨_, c', log, steps, E.steady shown steps regs (Cpu.run_mem pure ran) rfl,
    regs .sp (by decide), regs .bp (by decide), result⟩

theorem reaches_label (here : m.Has i [.label name]) (shown : E.shows s ⟨.inside i, c, log⟩) :
    E.Reaches ⟨.inside i, c, log⟩ (i + 1) s fun _ => True :=
  reaches_run here shown rfl (by simp [Instr.sets]) (by simp [Instr.written]) trivial

/-- A jump goes to its label or goes on, with everything as it was. -/
theorem reaches_step (step : m.Steps 1 ⟨.inside i, c, log⟩ ⟨.inside pos, c, log⟩)
    (shown : E.shows s ⟨.inside i, c, log⟩) :
    E.Reaches ⟨.inside i, c, log⟩ pos s fun _ => True :=
  ⟨1, c, log, step, E.steady shown step (fun _ _ => rfl) rfl rfl, rfl, rfl, trivial⟩

/-! The parts of a statement. -/

theorem reaches_value (ok : e.code env = .ok v) (here : m.Has i v.code)
    (shown : E.shows s ⟨.inside i, c, log⟩) (value : E.eval e s = some (x, after)) :
    E.Reaches ⟨.inside i, c, log⟩ (i + v.code.length) after (Gives v.width x) := by
  obtain ⟨n, c', log', steps, shown', gives, sp, bp⟩ := E.implements ok here shown value
  exact ⟨n, c', log', steps, shown', sp, bp, gives⟩

/-- A comparison with zero behind a test, and a jump on it: the jump is taken where the test
fails. -/
theorem reaches_unless {cond : Cond} {compare : List Instr} (ok : e.code env = .ok v)
    (here : m.Has i (v.code ++ (compare ++ [.jump cond name])))
    (shown : E.shows s ⟨.inside i, c, log⟩) (value : E.eval e s = some (x, after))
    (sets : ∀ instr ∈ compare, instr.sets ⊆ [.ax])
    (pure : ∀ instr ∈ compare, ∀ c, instr.written c = none)
    (decides : ∀ c, Gives v.width x c → ∃ c', c.run m.data compare = .ok c' ∧
      Site.Decides cond x.isTrue c')
    (there : m.find name = some pos) :
    E.Reaches ⟨.inside i, c, log⟩
      (if x.isTrue then i + (v.code ++ (compare ++ [Instr.jump cond name])).length else pos) after
      fun _ => True := by
  obtain ⟨hereTest, here⟩ := Image.has_append.mp here
  obtain ⟨hereCompare, hereJump⟩ := Image.has_append.mp here
  refine reaches_trans (reaches_value ok hereTest shown value) ?_
  intro c₁ log₁ shown₁ gives
  obtain ⟨c₂, ran, f, flags, holds⟩ := decides c₁ gives
  have compared : E.Reaches ⟨.inside (i + v.code.length), c₁, log₁⟩
      (i + v.code.length + compare.length) after (· = c₂) :=
    reaches_run hereCompare shown₁ ran sets pure rfl
  refine reaches_trans compared ?_
  rintro c₂ log₂ shown₂ rfl
  have jump : m.Steps 1 ⟨_, c₂, log₂⟩ _ :=
    Image.steps_jump (Image.has_cons.mp hereJump).1 there flags
  rw [holds] at jump
  refine reaches_step ?_ shown₂
  simp only [List.length_append, List.length_singleton, ← Nat.add_assoc]
  revert jump
  cases x.isTrue <;> exact id

/-- Code that comes to its end, and code behind it. -/
theorem follows_append {a b : List Instr} (first : E.Reaches start (i + a.length) mid right)
    (next : ∀ c log, E.shows mid ⟨.inside (i + a.length), c, log⟩ → right c →
      E.Follows ⟨.inside (i + a.length), c, log⟩ (i + a.length) (i + a.length + b.length) flow
        after) :
    E.Follows start i (i + (a ++ b).length) flow after := by
  rw [List.length_append, ← Nat.add_assoc]
  have rest := follows_trans first next
  cases flow with
  | next => exact rest
  | returned word => exact follows_around rest (Nat.le_add_right _ _) (Nat.le_refl _)

/-- The label behind a conditional. -/
theorem follows_label {inner : List Instr}
    (follows : E.Follows start i (i + inner.length) flow after)
    (here : m.Has (i + inner.length) [.label name]) :
    E.Follows start i (i + (inner ++ [Instr.label name]).length) flow after := by
  rw [List.length_append, ← Nat.add_assoc]
  cases flow with
  | next => exact reaches_trans follows fun c log shown _ => reaches_label here shown
  | returned word => exact follows_around follows (Nat.le_refl _) (Nat.le_succ _)

theorem follows_from {least : Nat} (follows : E.Follows start low high flow after)
    (above : least ≤ low) : E.Follows start least high flow after := by
  cases flow with
  | next => exact follows
  | returned word => exact follows_around follows above (Nat.le_refl _)

/-- What code that branches on a test offers: the test leads to the code of the body or behind the
statement. -/
structure Branches (E : Evaluator m env σ) (test : Expr) (inner : List Instr)
    (first body stop : Nat) : Prop where
  above : first ≤ body
  below : body + inner.length < stop
  inside : m.Has body inner
  tests : ∀ {s c log x after}, E.shows s ⟨.inside first, c, log⟩ →
    E.eval test s = some (x, after) →
    E.Reaches ⟨.inside first, c, log⟩ (if x.isTrue then body else stop) after fun _ => True

theorem Branches.enters {inner : List Instr} {first body stop : Nat}
    (branches : E.Branches e inner first body stop) (shown : E.shows s ⟨.inside first, c, log⟩)
    (value : E.eval e s = some (x, after)) (holds : x.isTrue = true) :
    E.Reaches ⟨.inside first, c, log⟩ body after fun _ => True := by
  have tested := branches.tests shown value
  rwa [holds, if_pos rfl] at tested

theorem Branches.leaves {inner : List Instr} {first body stop : Nat}
    (branches : E.Branches e inner first body stop) (shown : E.shows s ⟨.inside first, c, log⟩)
    (value : E.eval e s = some (x, after)) (fails : x.isTrue = false) :
    E.Reaches ⟨.inside first, c, log⟩ stop after fun _ => True := by
  have tested := branches.tests shown value
  rwa [fails, if_neg Bool.false_ne_true] at tested

theorem branches_ifThen (distinct : (labelsOf m.code).Nodup) {inner : List Instr}
    (ok : e.code env = .ok v) (here : m.Has i (ifCode name v inner)) :
    ∃ body, E.Branches e inner i body (i + (ifCode name v inner).length) ∧
      m.Has (body + inner.length) [.label name] ∧
      body + (inner ++ [Instr.label name]).length = i + (ifCode name v inner).length := by
  have split : ifCode name v inner =
      (v.code ++ ([.cmp v.width (.imm 0) .acc] ++ [.jump .e name])) ++
        (inner ++ [.label name]) := by
    simp [ifCode]
  rw [split] at here ⊢
  obtain ⟨hereTest, here⟩ := Image.has_append.mp here
  obtain ⟨hereInner, hereDone⟩ := Image.has_append.mp here
  have there := Image.find_eq distinct (Image.has_cons.mp hereDone).1
  rw [List.length_append, ← Nat.add_assoc]
  refine ⟨_, ⟨Nat.le_add_right _ _, ?_, hereInner, ?_⟩, hereDone, rfl⟩
  · rw [@List.length_append _ inner]
    exact Nat.lt_succ_self _
  · intro s c log x after shown value
    have tested := reaches_unless ok hereTest shown value (by simp [Instr.sets])
      (by simp [Instr.written]) (fun _ => Site.decides_compared m.data) there
    cases decided : x.isTrue with
    | true =>
      rw [decided, if_pos rfl] at tested
      exact tested
    | false =>
      rw [decided, if_neg Bool.false_ne_true] at tested
      rw [if_neg Bool.false_ne_true, @List.length_append _ inner, ← Nat.add_assoc]
      exact reaches_trans tested fun c₁ log₁ shown₁ _ => reaches_label hereDone shown₁

theorem follows_ifThen (distinct : (labelsOf m.code).Nodup) {inner : List Instr}
    (ok : e.code env = .ok v) (here : m.Has i (ifCode name v inner))
    (shown : E.shows s ⟨.inside i, c, log⟩) (value : E.eval e s = some (x, mid))
    (inside : x.isTrue = true → ∀ {pos c log}, m.Has pos inner →
      E.shows mid ⟨.inside pos, c, log⟩ →
      E.Follows ⟨.inside pos, c, log⟩ pos (pos + inner.length) flow after)
    (outside : x.isTrue = false → flow = .next ∧ after = mid) :
    E.Follows ⟨.inside i, c, log⟩ i (i + (ifCode name v inner).length) flow after := by
  obtain ⟨body, branches, hereDone, stop⟩ := branches_ifThen (E := E) distinct ok here
  cases decided : x.isTrue with
  | true =>
    rw [← stop]
    exact follows_trans (branches.enters shown value decided) fun c₁ log₁ shown₁ _ =>
      follows_from (follows_label (inside decided branches.inside shown₁) hereDone) branches.above
  | false =>
    obtain ⟨rfl, rfl⟩ := outside decided
    exact branches.leaves shown value decided

/-! Loops. -/

/-- What the code of a loop offers besides: a way back from behind the step. -/
structure Loops (E : Evaluator m env σ) (test : Expr) (inner step : List Instr)
    (head body stop : Nat) : Prop extends E.Branches test inner head body stop where
  behind : m.Has (body + inner.length) step
  back : ∀ {s c log}, E.shows s ⟨.inside (body + inner.length + step.length), c, log⟩ →
    E.Reaches ⟨.inside (body + inner.length + step.length), c, log⟩ head s fun _ => True

theorem loops_of_has (distinct : (labelsOf m.code).Nodup) {head done : String} {test : Expr}
    {t : ValueCode} {inner step : List Instr} (ok : test.code env = .ok t)
    (here : m.Has i (loopCode head done t inner step)) :
    ∃ body, E.Loops test inner step i body (i + (loopCode head done t inner step).length) := by
  rw [Site.loopCode_eq, List.append_assoc, ← List.append_assoc (Site.maskCode t.width),
    ← List.append_assoc t.code] at here ⊢
  obtain ⟨hereHead, here⟩ := Image.has_append.mp here
  obtain ⟨hereTest, here⟩ := Image.has_append.mp here
  obtain ⟨hereInner, here⟩ := Image.has_append.mp here
  obtain ⟨hereStep, here⟩ := Image.has_append.mp here
  obtain ⟨hereBack, hereDone⟩ := Image.has_append.mp here
  have headFound := Image.find_eq distinct (Image.has_cons.mp hereHead).1
  have doneFound := Image.find_eq distinct (Image.has_cons.mp hereDone).1
  refine ⟨_, ⟨?_, ?_, hereInner, ?_⟩, hereStep, ?_⟩
  · exact Nat.le_trans (Nat.le_add_right _ _) (Nat.le_add_right _ _)
  · simp only [List.length_append, List.length_cons]
    omega
  · intro s c log x after shown value
    refine reaches_trans (reaches_label hereHead shown) fun c₁ log₁ shown₁ _ => ?_
    have tested := reaches_unless ok hereTest shown₁ value
      (by simp [Site.maskCode, Instr.sets, Operand.regs])
      (by simp [Site.maskCode, Instr.written, Operand.cell])
      (fun _ => Site.decides_masked m.data) doneFound
    cases decided : x.isTrue with
    | true =>
      rw [decided, if_pos rfl] at tested
      exact tested
    | false =>
      rw [decided, if_neg Bool.false_ne_true] at tested
      rw [if_neg Bool.false_ne_true]
      refine reaches_trans tested fun c₂ log₂ shown₂ _ => ?_
      have behind := reaches_label hereDone shown₂
      simpa only [List.length_append, List.length_singleton, ← Nat.add_assoc] using behind
  · intro s c log shown
    exact reaches_step (Image.steps_goto (Image.has_cons.mp hereBack).1 headFound) shown

/-- The step of a loop, for which there is no code where there is no step. -/
theorem reaches_advance {step : Option Expr} (ok : stepCode env step = .ok code)
    (here : m.Has i code) (shown : E.shows s ⟨.inside i, c, log⟩)
    (advances : Advances E.eval step s after) :
    E.Reaches ⟨.inside i, c, log⟩ (i + code.length) after fun _ => True := by
  cases step with
  | none =>
    cases pure_eq_ok.mp ok
    subst advances
    exact reaches_refl shown trivial
  | some e =>
    obtain ⟨v, inner, rfl⟩ := stepCode_some_ok ok
    obtain ⟨x, value⟩ := advances
    exact reaches_trans (reaches_value inner here shown value) fun _ _ shown _ =>
      reaches_refl shown trivial

/-! Returns. -/

/-- A value taken at a width. -/
theorem reaches_at (ok : e.code env = .ok v) (w : Width) (here : m.Has i (v.at w))
    (shown : E.shows s ⟨.inside i, c, log⟩) (value : E.eval e s = some (x, after)) :
    E.Reaches ⟨.inside i, c, log⟩ (i + (v.at w).length) after
      fun c' => c'.low w .ax = x.at w := by
  obtain ⟨hereValue, hereExtend⟩ := Image.has_append.mp here
  rw [ValueCode.at, List.length_append, ← Nat.add_assoc]
  refine reaches_trans (reaches_value ok hereValue shown value) ?_
  rintro c₁ log₁ shown₁ rfl
  obtain ⟨c₂, ran, low⟩ := Cpu.run_extendTo m.data c₁ v.width w
  refine reaches_run hereExtend shown₁ ran ?_ ?_ low
  · cases v.width <;> cases w <;> simp [Width.extendTo, Instr.sets, Operand.regs]
  · cases v.width <;> cases w <;> simp [Width.extendTo, Instr.written, Operand.cell]

/-- The value of a return, extended to a long. -/
theorem reaches_result (ok : e.code env = .ok v) (here : m.Has i (v.at .long))
    (shown : E.shows s ⟨.inside i, c, log⟩) (value : E.eval e s = some (x, after)) :
    E.Reaches ⟨.inside i, c, log⟩ (i + (v.at .long).length) after
      fun c' => c'.reg .ax = x.at .long :=
  reaches_trans (reaches_at ok .long here shown value) fun _ _ shown low =>
    reaches_refl shown ((Cpu.low_long _ .ax).symm.trans low)

theorem follows_epilogue {word : Option Word} {result : List Instr}
    (here : m.Has i (result ++ epilogue))
    (first : E.Reaches start (i + result.length) after fun c => ∀ x ∈ word, c.reg .ax = x) :
    E.Follows start i (i + (result ++ epilogue).length) (.returned word) after := by
  refine ⟨_, Nat.le_add_right _ _, ?_, (Image.has_append.mp here).2, first⟩
  rw [List.length_append, ← Nat.add_assoc]
  exact Nat.le_refl _

/-! The simulation. -/

/-- Whatever a phrase does in big steps, its code does on the machine. -/
theorem carries_of_bigStep (distinct : (labelsOf m.code).Nodup) {p : Phrase}
    (big : BigStep E.eval p s flow after) : E.Carries p s flow after := by
  induction big with
  | declare vars s =>
    intro l code last i c log ok here shown
    cases pure_eq_ok.mp ok
    exact reaches_refl shown trivial
  | eval value =>
    intro l code last i c log ok here shown
    obtain ⟨v, inner, rfl, _⟩ := Stmt.code_eval_ok ok
    exact reaches_trans (reaches_value inner here shown value) fun _ _ shown _ =>
      reaches_refl shown trivial
  | retNone s =>
    -- Nothing pauses here, since the code is not that of the entry function's own statements.
    intro l code last i c log ok here shown
    obtain ⟨_, _, returned, paused, rfl, _⟩ := Stmt.code_ret_ok ok
    cases pure_eq_ok.mp returned
    cases pure_eq_ok.mp paused
    exact follows_epilogue here (reaches_refl shown fun _ none => by cases none)
  | retSome value =>
    intro l code last i c log ok here shown
    obtain ⟨_, _, returned, paused, rfl, _⟩ := Stmt.code_ret_ok ok
    obtain ⟨v, inner, rfl⟩ := returnValue_some_ok returned
    cases pure_eq_ok.mp paused
    rw [List.append_nil] at here ⊢
    refine follows_epilogue here (reaches_trans
      (reaches_result inner (Image.has_append.mp here).1 shown value) fun _ _ shown result =>
      reaches_refl shown ?_)
    rintro _ ⟨⟩
    exact result
  | block inside ih =>
    intro l code last i c log ok here shown
    exact ih ok here shown
  | ifTrue value holds inside ih =>
    intro l code last i c log ok here shown
    obtain ⟨v, inner, tested, body, rfl⟩ := Stmt.code_ifThen_ok ok
    exact follows_ifThen distinct tested here shown value (fun _ => ih body) fun fails =>
      (Bool.false_ne_true (fails.symm.trans holds)).elim
  | ifFalse value fails =>
    intro l code last i c log ok here shown
    obtain ⟨v, inner, tested, body, rfl⟩ := Stmt.code_ifThen_ok ok
    exact follows_ifThen distinct tested here shown value
      (fun holds => (Bool.false_ne_true (fails.symm.trans holds)).elim) fun _ => ⟨rfl, rfl⟩
  | whileLoop turns ih =>
    intro l code last i c log ok here shown
    obtain ⟨v, inner, tested, body, rfl⟩ := Stmt.code_whileLoop_ok ok
    exact ih tested body rfl here shown
  | forLoop value turns ih =>
    intro l code last i c log ok here shown
    obtain ⟨first, v, inner, stepped, initial, tested, body, step, rfl⟩ := Stmt.code_forLoop_ok ok
    obtain ⟨hereFirst, hereLoop⟩ := Image.has_append.mp here
    exact follows_append (reaches_value initial hereFirst shown value) fun c₁ log₁ shown₁ _ =>
      ih tested body step hereLoop shown₁
  | done value fails =>
    intro head done t l inner last stepped i c log tested body step here shown
    obtain ⟨_, loops⟩ := loops_of_has distinct (E := E) tested here
    exact loops.leaves shown value fails
  | broken value holds inside ih =>
    intro head done t l inner last stepped i c log tested body step here shown
    obtain ⟨_, loops⟩ := loops_of_has distinct (E := E) tested here
    exact follows_around (follows_trans (loops.enters shown value holds) fun c₁ log₁ shown₁ _ =>
      ih body loops.inside shown₁) loops.above (Nat.le_of_lt loops.below)
  | turn value holds inside advances turns ih again =>
    intro head done t l inner last stepped i c log tested body step here shown
    obtain ⟨_, loops⟩ := loops_of_has distinct (E := E) tested here
    -- Body, step and jump lead back to the head, where the rest of the run starts over.
    refine follows_trans (loops.enters shown value holds) fun c₁ log₁ shown₁ _ => ?_
    refine follows_trans (ih body loops.inside shown₁) fun c₂ log₂ shown₂ _ => ?_
    refine follows_trans (reaches_advance step loops.behind shown₂ advances)
      fun c₃ log₃ shown₃ _ => ?_
    exact follows_trans (loops.back shown₃) fun c₄ log₄ shown₄ _ =>
      again tested body step here shown₄
  | nil s =>
    intro l code last i c log ok here shown
    cases pure_eq_ok.mp ok
    exact reaches_refl shown trivial
  | cons first rest ih later =>
    intro l code last i c log ok here shown
    obtain ⟨a, mid, b, firstCode, restCode, rfl⟩ := Stmt.codeAll_cons_ok ok
    obtain ⟨hereA, hereB⟩ := Image.has_append.mp here
    exact follows_append (ih firstCode hereA shown) fun c₁ log₁ shown₁ _ =>
      later restCode hereB shown₁
  | leaves first ih =>
    intro l code last i c log ok here shown
    obtain ⟨a, mid, b, firstCode, restCode, rfl⟩ := Stmt.codeAll_cons_ok ok
    obtain ⟨hereA, _⟩ := Image.has_append.mp here
    refine follows_around (ih firstCode hereA shown) (Nat.le_refl _) ?_
    rw [List.length_append, ← Nat.add_assoc]
    exact Nat.le_add_right _ _

end

end Evaluator

end Ia32Backend
