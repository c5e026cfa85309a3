import Ia32Backend.Proofs.FunctionLabels

/-!
Code under counters that start further on. Every branch label keeps its stem and has its number
moved by what the counter was ahead, and nothing else changes. How far a counter goes on is told by
the tree: by one for each construct of its kind.
-/
namespace Ia32Backend

namespace Labels

/-- Counters that start further on. -/
def add (l k : Labels) : Labels := ⟨l.ifs + k.ifs, l.fors + k.fors, l.whiles + k.whiles⟩

theorem zero_add (l : Labels) : ({} : Labels).add l = l := by
  simp [add]

theorem add_assoc (a b c : Labels) : (a.add b).add c = a.add (b.add c) := by
  simp [add, Nat.add_assoc]

theorem add_comm (a b : Labels) : a.add b = b.add a := by
  simp [add, Nat.add_comm]

theorem drawIf_add (l k : Labels) : (l.add k).drawIf = l.drawIf.add k := by
  simp [add, drawIf, Nat.add_right_comm]

theorem drawFor_add (l k : Labels) : (l.add k).drawFor = l.drawFor.add k := by
  simp [add, drawFor, Nat.add_right_comm]

theorem drawWhile_add (l k : Labels) : (l.add k).drawWhile = l.drawWhile.add k := by
  simp [add, drawWhile, Nat.add_right_comm]

/-- The number that a name ends in. -/
def numberOf (name : String) : Nat :=
  Nat.ofDigitChars 10 (name.toList.dropWhile fun c => !c.isDigit) 0

/-- A branch label with its number moved on. Any other name stays. -/
def shift (k : Labels) (name : String) : String :=
  match stems.find? fun s => numbered s.1 (numberOf name) = name with
  | some s => numbered s.1 (numberOf name + s.2 k)
  | none => name

theorem numberOf_numbered {stem : String} (clear : NoDigits stem) (n : Nat) :
    numberOf (numbered stem n) = n := by
  rw [numberOf, numbered, String.toList_append, dropWhile_stem clear (toString_digits n),
    Nat.toString_eq_repr, Nat.toList_repr, Nat.ofDigitChars_toDigits (by decide) (by decide)]

theorem shift_numbered (k : Labels) {s : String × (Labels → Nat)} (known : s ∈ stems) (n : Nat) :
    k.shift (numbered s.1 n) = numbered s.1 (n + s.2 k) := by
  have clear := generatedStems_noDigits s.1 (generated_of_mem_stems s known)
  rw [shift, numberOf_numbered clear]
  cases found : stems.find? fun t => numbered t.1 n = numbered s.1 n with
  | none =>
    have other := List.find?_eq_none.mp found s known
    simp at other
  | some t =>
    have same := List.find?_some found
    have member := List.mem_of_find?_eq_some found
    have stem := (numbered_injective (generatedStems_noDigits _ (generated_of_mem_stems t member))
      clear (of_decide_eq_true same)).1
    simp only
    rw [stem, stems_functional t member s known stem]

theorem shift_endIf (l k : Labels) : k.shift l.endIf = (l.add k).endIf :=
  shift_numbered k (s := ("L_endif", ifs)) (by simp [stems]) l.ifs

theorem shift_forHead (l k : Labels) : k.shift l.forHead = (l.add k).forHead :=
  shift_numbered k (s := ("L_for", fors)) (by simp [stems]) l.fors

theorem shift_forEnd (l k : Labels) : k.shift l.forEnd = (l.add k).forEnd :=
  shift_numbered k (s := ("L_endfor", fors)) (by simp [stems]) l.fors

theorem shift_whileHead (l k : Labels) : k.shift l.whileHead = (l.add k).whileHead :=
  shift_numbered k (s := ("L_while", whiles)) (by simp [stems]) l.whiles

theorem shift_whileEnd (l k : Labels) : k.shift l.whileEnd = (l.add k).whileEnd :=
  shift_numbered k (s := ("L_endwhile", whiles)) (by simp [stems]) l.whiles

end Labels

/-- Moves the branch label that an instruction defines or jumps to. -/
def Instr.renumber (k : Labels) : Instr → Instr
  | .label name => .label (k.shift name)
  | .jmp name => .jmp (k.shift name)
  | .jump c name => .jump c (k.shift name)
  | i => i

def renumber (k : Labels) (code : List Instr) : List Instr := code.map (Instr.renumber k)

/-- A function's own label, which comes first, is not a branch label whatever it looks like. -/
def renumberFunction (k : Labels) : List Instr → List Instr
  | [] => []
  | own :: rest => own :: renumber k rest

@[simp] theorem renumber_append (k : Labels) (a b : List Instr) :
    renumber k (a ++ b) = renumber k a ++ renumber k b := List.map_append

theorem Instr.renumber_of_none (k : Labels) {i : Instr} (noLabel : i.defines = none)
    (noTarget : i.target = none) : i.renumber k = i := by
  cases i with
  | label name => cases noLabel
  | jmp name => cases noTarget
  | jump c name => cases noTarget
  | _ => rfl

theorem renumber_straight (k : Labels) {code : List Instr} (straight : Straight code) :
    renumber k code = code := by
  have labels := List.filterMap_eq_nil_iff.mp straight.labels
  have targets := List.filterMap_eq_nil_iff.mp straight.targets
  refine (List.map_congr_left fun i member => ?_).trans (List.map_id code)
  exact Instr.renumber_of_none k (labels i member) (targets i member)

/-! Counters and constructs. -/

mutual

/-- How many constructs of each kind stand in a statement. -/
def Stmt.constructs : Stmt → Labels
  | .block ⟨_, body⟩ => Stmt.constructsOf body
  | .ifThen _ ⟨_, body⟩ => (Stmt.constructsOf body).drawIf
  | .whileLoop _ ⟨_, body⟩ => (Stmt.constructsOf body).drawWhile
  | .forLoop _ _ _ ⟨_, body⟩ => (Stmt.constructsOf body).drawFor
  | .function _ => {}
  | .declare _ => {}
  | .ret _ => {}
  | .eval _ => {}
termination_by structural s => s

def Stmt.constructsOf : List Stmt → Labels
  | [] => {}
  | s :: rest => s.constructs.add (Stmt.constructsOf rest)
termination_by structural body => body

end

def FunctionDecl.constructs (f : FunctionDecl) : Labels := Stmt.constructsOf f.body.body

/-- How many constructs of each kind stand in some functions. -/
def constructsOfAll : List FunctionDecl → Labels
  | [] => {}
  | f :: rest => f.constructs.add (constructsOfAll rest)

namespace Labels

theorem draw_add (l k : Labels) :
    l.drawIf.add k = l.add k.drawIf ∧ l.drawFor.add k = l.add k.drawFor ∧
      l.drawWhile.add k = l.add k.drawWhile := by
  refine ⟨?_, ?_, ?_⟩ <;> simp [add, drawIf, drawFor, drawWhile] <;> omega

end Labels

theorem Stmt.labels_codeAll (env : Env) (body : List Stmt) :
    ∀ direct l code last, codeAll env direct l body = .ok (code, last) →
      last = l.add (constructsOf body) := by
  induction body using Stmt.body_induction with
  | nil =>
    intro direct l code last ok
    cases pure_eq_ok.mp ok
    rfl
  | cons s rest inner ih =>
    intro direct l code last ok
    obtain ⟨first, mid, later, here, ahead, rfl⟩ := codeAll_cons_ok ok
    rw [ih direct mid later last ahead, constructsOf, ← Labels.add_assoc]
    congr 1
    cases s with
    | function decl => exact (throw_ne_ok here).elim
    | declare vars =>
      cases pure_eq_ok.mp here
      rfl
    | block b =>
      obtain ⟨id, body⟩ := b
      exact inner id body (.block id body) false l first mid here
    | ifThen test b =>
      obtain ⟨id, body⟩ := b
      obtain ⟨t, nested, _, inside, _⟩ := code_ifThen_ok here
      rw [inner id body (.ifThen test id body) _ _ _ _ inside, (Labels.draw_add _ _).1]
      rfl
    | whileLoop test b =>
      obtain ⟨id, body⟩ := b
      obtain ⟨t, nested, _, inside, _⟩ := code_whileLoop_ok here
      rw [inner id body (.whileLoop test id body) _ _ _ _ inside, (Labels.draw_add _ _).2.2]
      rfl
    | forLoop init test step b =>
      obtain ⟨id, body⟩ := b
      obtain ⟨i, t, nested, stepped, _, _, inside, _⟩ := code_forLoop_ok here
      rw [inner id body (.forLoop init test step id body) _ _ _ _ inside, (Labels.draw_add _ _).2.1]
      rfl
    | ret value =>
      obtain ⟨_, _, _, _, _, rfl⟩ := code_ret_ok here
      rfl
    | eval e =>
      obtain ⟨_, _, _, rfl⟩ := code_eval_ok here
      rfl

/-! Code under counters that are ahead. -/

/-- What code and counters become when the counters start further on. -/
def ahead (k : Labels) (r : List Instr × Labels) : List Instr × Labels :=
  (renumber k r.1, r.2.add k)

section
variable {k : Labels} {test : ValueCode} {inner step : List Instr}

theorem renumber_ifCode (tested : Straight test.code) (done : String) :
    renumber k (ifCode done test inner) = ifCode (k.shift done) test (renumber k inner) := by
  simp only [ifCode, renumber_append, renumber_straight k tested]
  rfl

theorem renumber_loopCode (tested : Straight test.code) (stepped : Straight step)
    (head done : String) : renumber k (loopCode head done test inner step) =
      loopCode (k.shift head) (k.shift done) test (renumber k inner) step := by
  simp only [loopCode, renumber_append, renumber_straight k tested, renumber_straight k stepped]
  rfl

end

section
variable {env : Env} {direct : Bool} {l k : Labels}

/-- The rule for one statement: what it was put together from, once with the counters ahead. -/
theorem Stmt.code_ahead {s : Stmt}
    (inner : ∀ id body, s.Nests id body → ∀ direct l,
      codeAll env direct (l.add k) body = (codeAll env direct l body).map (ahead k)) :
    s.code env direct (l.add k) = (s.code env direct l).map (ahead k) := by
  cases s with
  | function decl => rfl
  | declare vars => rfl
  | block b =>
    obtain ⟨id, body⟩ := b
    exact inner id body (.block id body) false l
  | ifThen test b =>
    obtain ⟨id, body⟩ := b
    have nested := inner id body (.ifThen test id body) false l.drawIf
    rw [← Labels.drawIf_add] at nested
    simp only [Stmt.code, nested]
    cases tested : test.code env with
    | error cause => rfl
    | ok t =>
      cases inside : codeAll env false l.drawIf body with
      | error cause => rfl
      | ok r =>
        have straight := (expr_straight tested .long).1
        simp only [bind, Except.bind, Except.map, pure, Except.pure, ahead,
          renumber_ifCode straight, Labels.shift_endIf]
  | whileLoop test b =>
    obtain ⟨id, body⟩ := b
    have nested := inner id body (.whileLoop test id body) false l.drawWhile
    rw [← Labels.drawWhile_add] at nested
    simp only [Stmt.code, nested]
    cases tested : test.code env with
    | error cause => rfl
    | ok t =>
      cases inside : codeAll env false l.drawWhile body with
      | error cause => rfl
      | ok r =>
        have straight := (expr_straight tested .long).1
        have none : Straight [] := ⟨rfl, rfl⟩
        simp only [bind, Except.bind, Except.map, pure, Except.pure, ahead,
          renumber_loopCode straight none, Labels.shift_whileHead, Labels.shift_whileEnd]
  | forLoop init test step b =>
    obtain ⟨id, body⟩ := b
    have nested := inner id body (.forLoop init test step id body) false l.drawFor
    rw [← Labels.drawFor_add] at nested
    simp only [Stmt.code, nested]
    cases first : init.code env with
    | error cause => rfl
    | ok i =>
      cases tested : test.code env with
      | error cause => rfl
      | ok t =>
        cases inside : codeAll env false l.drawFor body with
        | error cause => rfl
        | ok r =>
          cases stepped : stepCode env step with
          | error cause => rfl
          | ok s =>
            simp only [bind, Except.bind, Except.map, pure, Except.pure, ahead, renumber_append,
              renumber_straight k (expr_straight first .long).1,
              renumber_loopCode (expr_straight tested .long).1 (stepCode_straight stepped),
              Labels.shift_forHead, Labels.shift_forEnd]
  | ret value =>
    simp only [Stmt.code]
    cases returned : returnValue env value with
    | error cause => rfl
    | ok v =>
      cases paused : env.pauseWhen direct with
      | error cause => rfl
      | ok p =>
        have straight : Straight (v ++ p ++ epilogue) := straight_append (straight_append
          (returnValue_straight returned) (pauseWhen_straight paused)) ⟨rfl, rfl⟩
        simp only [bind, Except.bind, Except.map, pure, Except.pure, ahead,
          renumber_straight k straight]
  | eval e =>
    simp only [Stmt.code]
    cases evaluated : e.code env with
    | error cause => rfl
    | ok c =>
      simp only [bind, Except.bind, Except.map, pure, Except.pure, ahead,
        renumber_straight k (expr_straight evaluated .long).1]

end

theorem Stmt.codeAll_ahead (env : Env) (k : Labels) (body : List Stmt) :
    ∀ direct l, codeAll env direct (l.add k) body =
      (codeAll env direct l body).map (ahead k) := by
  induction body using Stmt.body_induction with
  | nil => exact fun _ _ => rfl
  | cons s rest inner ih =>
    intro direct l
    simp only [codeAll, code_ahead inner]
    cases here : s.code env direct l with
    | error cause => rfl
    | ok first =>
      simp only [Except.map, bind, Except.bind, ahead, ih direct first.2]
      cases later : codeAll env direct first.2 rest with
      | error cause => rfl
      | ok r => simp only [pure, Except.pure, renumber_append]

end Ia32Backend
