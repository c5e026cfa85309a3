import Ia32Backend.Proofs.ExpressionCode
import Ia32Backend.Proofs.Simulation.Evaluator

/-!
The code of statements does what the statements mean, and the evaluation of expressions on a store
is a meaning that it can be built on.
-/
namespace Ia32Backend

/-- The code of statements that do not stand directly in the entry function, for any evaluator that
the code of expressions carries out. What is run from a store ends in one way. If it comes to its
end, so does the code; if it returns, the code takes the frame down and goes back to the caller,
with the value as a long in the accumulator. -/
theorem statement_code_ends_as_bigStep {m : Image} {env : Env} {σ : Type} (E : Evaluator m env σ)
    {l last : Labels} {body : List Stmt} {code : List Instr} {i : Nat} {c : Cpu}
    {log : List RuntimeCall} {s after : σ} {flow : Flow}
    (lowered : Stmt.codeAll env false l body = .ok (code, last)) (here : m.Has i code)
    (distinct : (labelsOf m.code).Nodup) (shown : E.shows s ⟨.inside i, c, log⟩)
    (big : BigStep E.eval (.body body) s flow after) :
    (∀ other final, BigStep E.eval (.body body) s other final → other = flow ∧ final = after) ∧
    match flow with
    | .next => ∃ n c' log', m.Steps n ⟨.inside i, c, log⟩ ⟨.inside (i + code.length), c', log'⟩ ∧
        E.shows after ⟨.inside (i + code.length), c', log'⟩ ∧ c'.reg .sp = c.reg .sp ∧
        c'.reg .bp = c.reg .bp
    | .returned word => ∃ n j c' log' t, i ≤ j ∧ j + 2 ≤ i + code.length ∧
        m.Has j [.leave, .ret] ∧ m.Steps n ⟨.inside i, c, log⟩ ⟨.inside j, c', log'⟩ ∧
        E.shows after ⟨.inside j, c', log'⟩ ∧ c'.reg .sp = c.reg .sp ∧ c'.reg .bp = c.reg .bp ∧
        m.Steps 2 ⟨.inside j, c', log'⟩ t ∧
        t.pos = m.locate (c'.mem.read (c.reg .bp + 4) .long) ∧
        t.cpu.reg .sp = c.reg .bp + 8 ∧ t.cpu.reg .bp = c'.mem.read (c.reg .bp) .long ∧
        (∀ x ∈ word, t.cpu.reg .ax = x) ∧ t.cpu.mem = c'.mem ∧ t.log = log' := by
  refine ⟨fun other final again => bigStep_unique big again, ?_⟩
  have follows := Evaluator.carries_of_bigStep distinct big lowered here shown
  cases flow with
  | next =>
    obtain ⟨n, c', log', steps, shown', sp, bp, _⟩ := follows
    exact ⟨n, c', log', steps, shown', sp, bp⟩
  | returned word =>
    obtain ⟨j, low, high, leaves, n, c', log', steps, shown', sp, bp, value⟩ := follows
    obtain ⟨t, left, pos, sp', bp', regs, mem, log⟩ := Image.steps_epilogue log' leaves
    rw [bp] at pos sp' bp'
    refine ⟨n, j, c', log', t, low, high, leaves, steps, shown', sp, bp, left, pos, sp', bp', ?_,
      mem, log⟩
    intro x member
    rw [regs .ax (by decide) (by decide), value x member]

/-- Evaluation on a ground is an evaluator there, for expressions that keep to its variables. -/
def Ground.evaluator {Ω : Type} (g : Ground Ω) (callees : Callees Ω) (sound : g.Sound)
    (fulfils : g.image.Fulfils g.env g.base g.names g.shows callees) :
    Evaluator g.image g.env (Store Ω) where
  eval e s :=
    if e.names ⊆ g.names ∧ e.assigned ⊆ g.assigned then (e.evaluate g.terrain callees s).toOption
    else none
  shows s t := g.Holds s.vars t.cpu ∧ g.shows s.rest t.log ∧ g.image.StackLasts t
  steady := by
    rintro s t u n ⟨holds, shown, lasts⟩ steps regs mem log
    refine ⟨⟨(regs .bp (by decide)).trans holds.base, ?_, ?_⟩, log ▸ shown,
      Image.stackLasts_steps lasts steps⟩
    · rw [regs .sp (by decide)]
      exact holds.room
    · rw [mem]
      exact holds.slots
  implements := by
    rintro e v i c log s x after lowered here ⟨holds, shown, lasts⟩ value
    split at value
    · rename_i inside
      cases done : e.evaluate g.terrain callees s with
      | error stop => rw [done] at value; cases value
      | ok result =>
        rw [done] at value
        cases value
        obtain ⟨n, c', log', steps, keeps, holds', shown', gives, _⟩ := Ground.computes_expr sound
          fulfils e v lowered inside.1 inside.2 i c log s x after here holds shown lasts done
        exact ⟨n, c', log', steps, ⟨holds', shown', Image.stackLasts_steps lasts steps⟩, gives,
          BitVec.eq_of_toNat_eq keeps.sp, keeps.saved .bp (by decide)⟩
    · cases value

/-- `for (c = 258; c; c = c - 1) if (c == 1) return -c;` -/
def counting : List Stmt :=
  [.forLoop (.assign .char ⟨0⟩ (.lit .int ⟨0⟩ (.int 258))) (.ident .char ⟨0⟩)
    (some (.assign .char ⟨0⟩ (.binary .int .minus (.ident .char ⟨0⟩) (.lit .int ⟨0⟩ (.int 1)))))
    ⟨⟨0⟩, [.ifThen (.binary .int .equal (.ident .char ⟨0⟩) (.lit .int ⟨0⟩ (.int 1)))
      ⟨⟨0⟩, [.ret (some (.unary .char .negate (.ident .char ⟨0⟩)))]⟩]⟩]

def countingCode : List Instr :=
  ((Stmt.codeAll pointingEnv false {} counting).toOption.map Prod.fst).getD []

def countingImage : Image := Image.ofCode countingCode (by decide)

def countingCpu : Cpu where
  reg := fun r => match r with | .sp => 4096 | .bp => 4112 | _ => 0
  flags := none
  mem := fun _ => 0

theorem counting_lasts : countingImage.StackLasts ⟨.inside 0, countingCpu, []⟩ :=
  Image.stackLasts_of_advance 51 rfl

/-- The variable `c` alone, four bytes below the frame pointer. -/
def countingGround : Ground Unit :=
  ⟨countingImage, fun _ _ => True, pointingEnv, [⟨0⟩], [⟨0⟩], 4096, 4112⟩

theorem counting_sound : countingGround.Sound := ⟨⟨by decide, by decide, by decide⟩, by decide⟩

theorem counting_fulfils :
    countingImage.Fulfils pointingEnv 4112 [⟨0⟩] (fun _ _ => True) noCallees := by
  intro i c log s callee symbol args x rest _ _ _ _ _ _ _ _ answer
  cases answer

def countingEvaluator : Evaluator countingImage pointingEnv (Store Unit) :=
  countingGround.evaluator noCallees counting_sound counting_fulfils

/-- The store in which `c` is another number. -/
def counted (s : Store Unit) (x : Word) : Store Unit :=
  { s with vars := fun v => if v = ⟨0⟩ then x else s.vars v }

theorem counting_returns : BigStep countingEvaluator.eval (.body counting) ⟨fun _ => 0, ()⟩
    (.returned (some 0xFFFFFFFF)) (counted (counted ⟨fun _ => 0, ()⟩ 2) 1) := by
  refine .leaves (.forLoop (x := ⟨.byte, 2⟩) rfl (.turn (x := ⟨.byte, 2⟩) rfl rfl
    (.cons (.ifFalse (x := ⟨.long, 0⟩) rfl rfl) (.nil _)) ⟨⟨.byte, 1⟩, rfl⟩ ?_))
  exact .broken (x := ⟨.byte, 1⟩) rfl rfl (.leaves (.ifTrue (x := ⟨.long, 1⟩) rfl rfl
    (.leaves (.retSome (x := ⟨.byte, 255⟩) rfl))))

theorem statement_code_counting :
    ∃ n j c' log' t, countingImage.Steps n ⟨.inside 0, countingCpu, []⟩ ⟨.inside j, c', log'⟩ ∧
      countingImage.Has j [.leave, .ret] ∧ countingImage.Steps 2 ⟨.inside j, c', log'⟩ t ∧
      t.cpu.reg .ax = 0xFFFFFFFF ∧ t.cpu.reg .sp = 4120 ∧ t.cpu.mem.read 4108 .byte = 1 := by
  have lowered : Stmt.codeAll pointingEnv false {} counting = .ok (countingCode, ⟨1, 1, 0⟩) := rfl
  have here : countingImage.Has 0 countingCode :=
    @Image.has_middle _ _ [] [] (by simp [countingImage, Image.ofCode])
  have shown : countingEvaluator.shows ⟨fun _ => 0, ()⟩ ⟨.inside 0, countingCpu, []⟩ := by
    refine ⟨⟨rfl, by decide, ?_⟩, trivial, counting_lasts⟩
    unfold Terrain.Held
    decide
  obtain ⟨_, n, j, c', log', t, _, _, leaves, steps, shown', _, _, left, _, sp, _, value, mem, _⟩ :=
    statement_code_ends_as_bigStep countingEvaluator lowered here (by decide) shown counting_returns
  refine ⟨n, j, c', log', t, steps, leaves, left, value _ rfl, sp, ?_⟩
  rw [mem]
  exact shown'.1.slots ⟨0⟩ (by decide)

end Ia32Backend
