import Ia32Backend.Proofs.CallFree
import Ia32Backend.Proofs.Meaning.Truth

/-!
Truth on the machine. The code of a truth leaves zero or one of the two words for true, a Bool
variable that it assigns holds such a word again, and a conditional or a loop goes into its body
just where the test is true.
-/
namespace Ia32Backend

/-- The statement tests an expression, at the end of some code of its own. -/
inductive Stmt.Tests (env : Env) (e : Expr) : Stmt → List Instr → Prop where
  | ifThen (b : Block) : Tests env e (.ifThen e b) []
  | whileLoop (b : Block) : Tests env e (.whileLoop e b) []
  | forLoop {init : Expr} {first : ValueCode} (initial : init.code env = .ok first)
      (step : Option Expr) (b : Block) : Tests env e (.forLoop init e step b) first.code

namespace Evaluator

variable {m : Image} {env : Env} {σ : Type} {E : Evaluator m env σ}

theorem branches_of_tests (distinct : (labelsOf m.code).Nodup) {stmt : Stmt} {e : Expr}
    {before code : List Instr} {direct : Bool} {l last : Labels} {k : Nat}
    (tests : stmt.Tests env e before) (ok : stmt.code env direct l = .ok (code, last))
    (here : m.Has k code) :
    ∃ id body drawn inner there, stmt.Nests id body ∧
      Stmt.codeAll env false drawn body = .ok (inner, last) ∧
      E.Branches e inner (k + before.length) there (k + code.length) := by
  cases tests with
  | ifThen b =>
    obtain ⟨id, body⟩ := b
    obtain ⟨v, inner, tested, lowered, rfl⟩ := Stmt.code_ifThen_ok ok
    obtain ⟨there, branches, _⟩ := branches_ifThen distinct tested here
    exact ⟨id, body, _, inner, there, .ifThen e id body, lowered, branches⟩
  | whileLoop b =>
    obtain ⟨id, body⟩ := b
    obtain ⟨v, inner, tested, lowered, rfl⟩ := Stmt.code_whileLoop_ok ok
    obtain ⟨there, loops⟩ := loops_of_has distinct tested here
    exact ⟨id, body, _, inner, there, .whileLoop e id body, lowered, loops.toBranches⟩
  | forLoop initial step b =>
    obtain ⟨id, body⟩ := b
    obtain ⟨first, v, inner, stepped, again, tested, lowered, _, rfl⟩ := Stmt.code_forLoop_ok ok
    cases initial.symm.trans again
    obtain ⟨_, hereLoop⟩ := Image.has_append.mp here
    obtain ⟨there, loops⟩ := loops_of_has distinct tested hereLoop
    rw [List.length_append, ← Nat.add_assoc]
    exact ⟨id, body, _, inner, there, .forLoop _ e step id body, lowered, loops.toBranches⟩

end Evaluator

theorem Terrain.held_long {t : Terrain} {names : List VarId} {vars : VarId → Word} {mem : Memory}
    (held : t.Held names vars mem) {v : VarId} (member : v ∈ names) (wide : t.width v = .long) :
    mem.read (t.address v) .long = vars v := by
  have slot := held v member
  rw [wide] at slot
  exact slot.trans (BitVec.setWidth_eq _)

/-- From the test of a statement whose code stands at a position, the machine goes into the body or
behind the statement. -/
def Stage.Branches (m : Image) (env : Env) (names : List VarId) (start : State) (stmt : Stmt)
    (first behind : Nat) (taken : Bool) (vars : VarId → Word) : Prop :=
  ∃ id body drawn inner last there, stmt.Nests id body ∧
    Stmt.codeAll env false drawn body = .ok (inner, last) ∧ m.Has there inner ∧ first ≤ there ∧
    there + inner.length < behind ∧
    Stage.Reaches m env names start (if taken then there else behind) vars fun _ => True

/-- Where Bool variables hold truths and no division faults, the code of a truth leaves zero, one or
minus one, and zero just where the expression is false. Bool variables that it assigns hold such
words again, and a test of it leads into the body just where the expression is true, with nothing
done but its evaluation. -/
theorem truth_survives_encoding {m : Image} {env : Env} {e : Expr} {v : ValueCode}
    {known names : List VarId} {i : Nat} {c : Cpu} {log : List RuntimeCall} {s : Store Unit}
    (plays : e.Plays env.symbols .truth known) (lowered : e.code env = .ok v)
    (inside : e.names ⊆ names) (stage : Stage m env names s.vars ⟨.inside i, c, log⟩)
    (truthful : Truthful env.symbols known s.vars)
    (faultless : e.evaluate (env.terrain m.data (c.reg .bp)) noCallees s ≠ .error .divide) :
    let t := env.terrain m.data (c.reg .bp)
    (m.Has i v.code → Stage.Reaches m env names ⟨.inside i, c, log⟩ (i + v.code.length)
      (e.after t s).vars fun c' =>
        (c'.low v.width .ax).signExtend 32 ∈ truthWords ∧
        ((c'.low v.width .ax).signExtend 32 ≠ 0 ↔ e.holds t s = true) ∧
        ∀ u ∈ e.assigned, env.symbols.typeOf? u = some .bool →
          c'.mem.read (t.address u) .long ∈ truthWords) ∧
    ∀ (stmt : Stmt) (before : List Instr) (direct : Bool) (l last : Labels) (code : List Instr)
      (k : Nat), stmt.Tests env e before → stmt.code env direct l = .ok (code, last) →
      m.Has k code → (labelsOf m.code).Nodup → i = k + before.length →
      Stage.Branches m env names ⟨.inside i, c, log⟩ stmt i (k + code.length) (e.holds t s)
        (e.after t s).vars := by
  intro t
  obtain ⟨x, after, done⟩ := Expr.evaluate_settles (Expr.callFree_of_plays plays) lowered faultless
  have wide : ∀ v, env.symbols.typeOf? v = some .bool → t.width v = .long := fun v bool =>
    env.width_of_typeOf bool m.data (c.reg .bp)
  obtain ⟨still, tells⟩ := Expr.tells_of_plays plays wide truthful done
  obtain ⟨word, nonzero⟩ := tells rfl
  rw [Expr.after_eq done]
  refine ⟨fun here => ?_, ?_⟩
  · obtain ⟨n, c', steps, stage', sp, bp, gives⟩ := stage.reaches_value inside lowered here done
    subst gives
    refine ⟨n, c', steps, stage', sp, bp, word, nonzero, fun u member bool => ?_⟩
    rw [Terrain.held_long (stage'.held_at bp) (inside (e.assigned_subset member)) (wide u bool)]
    exact still u (List.mem_append_right _ member) bool
  · intro stmt before direct l last code k tests ok here distinct place
    subst place
    obtain ⟨id, body, drawn, inner, there, nests, lowered, branches⟩ :=
      Evaluator.branches_of_tests distinct tests ok here
    have taken : x.isTrue = e.holds t s := Bool.eq_iff_iff.mpr (x.isTrue_iff.trans nonzero)
    have reaches := stage.reaches_of_evaluator
      (branches.tests stage.shown (stage.eval_eq inside done))
    rw [taken] at reaches
    exact ⟨id, body, drawn, inner, last, there, nests, lowered, branches.inside, branches.above,
      branches.below, reaches⟩

/-- A character `c` at 4 and a truth `b` at 8 bytes below the frame pointer. -/
def deciding : Env where
  symbols := { vars := [⟨"c", .char, ⟨0⟩⟩, ⟨"b", .bool, ⟨0⟩⟩] }
  config := {}
  strings := {}
  frames := ((({} : Frames).allocate ⟨0⟩ .char ⟨0⟩).2.allocate ⟨0⟩ .bool ⟨1⟩).2

/-- `(b = c < 'd') & (true | b)` -/
def decided : Expr :=
  .binary .bool .and
    (.assign .bool ⟨1⟩ (.binary .bool .lessThan (.ident .char ⟨0⟩) (.lit .char ⟨0⟩ (.char 'd'))))
    (.binary .bool .or (.lit .bool ⟨1⟩ (.bool true)) (.ident .bool ⟨1⟩))

theorem decided_plays : decided.Plays deciding.symbols .truth [] :=
  .both (.inl rfl)
    (.assign rfl (.compare rfl (.inr rfl) (.inr rfl) (.read _ _ _) (.constant _ _ _ _)))
    (.both (.inr rfl) (.literal _ _ _) (.var rfl (by decide)))

def decidedCode : ValueCode := (decided.code deciding).toOption.getD ⟨[], .long⟩

/-- `if ((b = c < 'd') & (true | b)) c = 'z';` -/
def choosing : Stmt :=
  .ifThen decided ⟨⟨0⟩, [.eval (.assign .char ⟨0⟩ (.lit .char ⟨2⟩ (.char 'z')))]⟩

def choosingCode : List Instr :=
  ((choosing.code deciding false {}).toOption.map Prod.fst).getD []

def choosingImage : Image := Image.ofCode choosingCode (by decide)

/-- The seven in `b` is no truth. -/
def undecided : Store Unit := ⟨fun v => if v = ⟨1⟩ then 7 else 0, ()⟩

theorem choosing_stage :
    Stage choosingImage deciding decided.names undecided.vars ⟨.inside 0, pointingCpu, []⟩ := by
  refine ⟨⟨by decide, by decide, by decide⟩, ?_, ?_⟩
  · unfold Terrain.Held
    decide
  · exact Image.stackLasts_of_advance 24 rfl

theorem truth_survives_encoding_mixed :
    (∃ n c', choosingImage.Steps n ⟨.inside 0, pointingCpu, []⟩ ⟨.inside 18, c', []⟩ ∧
      c'.reg .ax ∈ truthWords ∧ c'.reg .ax ≠ 0 ∧ c'.mem.read 4104 .long ∈ truthWords) ∧
    Stage.Branches choosingImage deciding decided.names ⟨.inside 0, pointingCpu, []⟩ choosing 0 23
      true (decided.after (deciding.terrain choosingImage.data 4112) undecided).vars := by
  have lowered : decided.code deciding = .ok decidedCode := rfl
  have stmt : choosing.code deciding false {} = .ok (choosingCode, ⟨1, 0, 0⟩) := rfl
  have whole : choosingImage.Has 0 choosingCode :=
    @Image.has_middle _ _ [] [] (by simp [choosingImage, Image.ofCode])
  have here : choosingImage.Has 0 decidedCode.code :=
    @Image.has_middle _ _ [] (choosingCode.drop 18) rfl
  have unknown : Truthful deciding.symbols [] undecided.vars := fun _ member => by cases member
  obtain ⟨leaves, tests⟩ := truth_survives_encoding decided_plays lowered (List.Subset.refl _)
    choosing_stage unknown (by rintro ⟨⟩)
  obtain ⟨n, c', steps, _, _, _, word, nonzero, slots⟩ := leaves here
  have taken := tests choosing [] false {} ⟨1, 0, 0⟩ choosingCode 0 (.ifThen _) stmt whole
    (by decide) rfl
  have extended : (c'.low decidedCode.width .ax).signExtend 32 = c'.reg .ax :=
    Cpu.signExtend_low_long c' .ax
  rw [extended] at word nonzero
  exact ⟨⟨n, c', steps, word, nonzero.mpr rfl, slots ⟨1⟩ (by decide) rfl⟩, taken⟩

end Ia32Backend
