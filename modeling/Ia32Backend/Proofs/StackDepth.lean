import Ia32Backend.Proofs.BranchLabels
import Ia32Backend.Proofs.Machine.Effects

/-!
How far the stack pointer stands below its place after the prologue, at each position of a
function's code. What an expression pushes it takes off again, so the distance is zero between
statements and at every branch and label.
-/
namespace Ia32Backend

/-- Where the stack pointer stands. -/
inductive Depth where
  /-- So many bytes below its place after the prologue. -/
  | pushed (bytes : Nat)
  /-- Back where the caller left it. -/
  | back
  deriving DecidableEq, Repr

/-- An instruction that neither defines a label nor leads anywhere but to the next one. -/
def Instr.Plain (i : Instr) : Prop := i.defines = none ∧ i.target = none ∧ i ≠ .ret

/-- The depths before and after an instruction. -/
inductive Instr.Moves : Depth → Instr → Depth → Prop where
  | push (d : Nat) (src : Operand) : Moves (.pushed d) (.push src) (.pushed (d + 4))
  | popAcc (d : Nat) : Moves (.pushed (d + 4)) (.pop .acc) (.pushed d)
  | popOther (d : Nat) : Moves (.pushed (d + 4)) (.pop .other) (.pushed d)
  | drop (d count : Nat) : Moves (.pushed (d + 4 * count))
      (.arith .add .long (.imm (Int32.ofNat (4 * count))) (.reg .sp)) (.pushed d)
  | call (d : Nat) (name : String) : Moves (.pushed d) (.call name) (.pushed d)
  | label (name : String) : Moves (.pushed 0) (.label name) (.pushed 0)
  | jmp (name : String) : Moves (.pushed 0) (.jmp name) (.pushed 0)
  | jump (c : Cond) (name : String) : Moves (.pushed 0) (.jump c name) (.pushed 0)
  | still (d : Nat) {i : Instr} (sets : i.sets ⊆ [.ax, .cx, .dx]) (plain : i.Plain) :
      Moves (.pushed d) i (.pushed d)
  | leave : Moves (.pushed 0) .leave .back
  | ret : Moves .back .ret (.pushed 0)

/-- Code with the depth before each of its instructions and the one behind it. -/
inductive Paced : Depth → List Instr → List Depth → Depth → Prop where
  | nil (d : Depth) : Paced d [] [] d
  | cons {d mid last : Depth} {i : Instr} {code : List Instr} {depths : List Depth}
      (first : i.Moves d mid) (rest : Paced mid code depths last) :
      Paced d (i :: code) (d :: depths) last

theorem paced_length {d last : Depth} {code : List Instr} {depths : List Depth}
    (paced : Paced d code depths last) : depths.length = code.length := by
  induction paced with
  | nil => rfl
  | cons _ _ ih => simp [ih]

theorem paced_append {d mid last : Depth} {a b : List Instr} {before after : List Depth}
    (first : Paced d a before mid) (second : Paced mid b after last) :
    Paced d (a ++ b) (before ++ after) last := by
  induction first with
  | nil => exact second
  | cons move _ ih => exact .cons move (ih second)

theorem paced_start {d last : Depth} {code : List Instr} {depths : List Depth}
    (paced : Paced d code depths last) : (depths ++ [last])[0]? = some d := by
  cases paced <;> rfl

theorem paced_at {d last : Depth} {code : List Instr} {depths : List Depth}
    (paced : Paced d code depths last) :
    ∀ {k i}, code[k]? = some i → ∃ here there, (depths ++ [last])[k]? = some here ∧
      i.Moves here there ∧ (depths ++ [last])[k + 1]? = some there := by
  induction paced with
  | nil => intro k i found; simp at found
  | @cons d mid last first code depths move rest ih =>
    intro k i found
    cases k with
    | zero =>
      cases found
      exact ⟨d, mid, rfl, move, paced_start rest⟩
    | succ k => exact ih found

/-- An instruction moves the depth from the one marked in front of it to the next. -/
theorem paced_from {d last here : Depth} {code : List Instr} {depths : List Depth} {k : Nat}
    {i : Instr} (paced : Paced d code depths last) (mark : (depths ++ [last])[k]? = some here)
    (found : code[k]? = some i) :
    ∃ there, i.Moves here there ∧ (depths ++ [last])[k + 1]? = some there := by
  obtain ⟨same, there, marked, moves, next⟩ := paced_at paced found
  cases mark.symm.trans marked
  exact ⟨there, moves, next⟩

/-- Code that leaves the depth as it found it. -/
def Level (code : List Instr) : Prop :=
  ∀ d, ∃ depths, Paced (.pushed d) code depths (.pushed d)

theorem level_nil : Level [] := fun _ => ⟨[], .nil _⟩

theorem level_append {a b : List Instr} (first : Level a) (second : Level b) :
    Level (a ++ b) := by
  intro d
  obtain ⟨before, left⟩ := first d
  obtain ⟨after, right⟩ := second d
  exact ⟨before ++ after, paced_append left right⟩

theorem level_one {i : Instr} (sets : i.sets ⊆ [.ax, .cx, .dx]) (plain : i.Plain) :
    Level [i] := fun d => ⟨[.pushed d], .cons (.still d sets plain) (.nil _)⟩

theorem plain_of_computes {i : Instr} (computes : i.computes = true) : i.Plain := by
  cases i <;> first | exact ⟨rfl, rfl, Instr.noConfusion⟩ | cases computes

theorem level_of_computes {code : List Instr} (computes : code.all Instr.computes = true) :
    Level code := by
  induction code with
  | nil => exact level_nil
  | cons i rest ih =>
    obtain ⟨first, later⟩ := Bool.and_eq_true_iff.mp computes
    exact level_append (level_one (Instr.computes_effect first).1 (plain_of_computes first))
      (ih later)

theorem level_at {v : ValueCode} (level : Level v.code) (w : Width) : Level (v.at w) :=
  level_append level (level_of_computes (computes_extendTo v.width w))

theorem level_store {v : VarId} {env : Env} {p : Place} (place : env.place v = .ok p) :
    Level [.mov p.width .acc p.operand] := by
  obtain ⟨_, _, _, _, rfl⟩ := Env.place_ok place
  exact level_one (by simp [Instr.sets, Operand.regs]) (by simp [Instr.Plain])

theorem level_binary {op : BinaryOp} {w : Width} {l r : ValueCode} (left : Level l.code)
    (right : Level r.code) (save : Bool) : Level (binaryCode op w l r save).code := by
  have kept : Level (l.at w ++ [.mov w .acc .other]) :=
    level_append (level_at left w) (level_of_computes rfl)
  have middle : Level ((if save then [.push .other] else []) ++ r.at w ++
      (if save then [.pop .other] else [])) := by
    cases save with
    | false => simpa using level_at right w
    | true =>
      intro d
      obtain ⟨depths, inner⟩ := level_at right w (d + 4)
      have pushed : Paced (.pushed d) [.push .other] [.pushed d] (.pushed (d + 4)) :=
        .cons (.push d _) (.nil _)
      have popped : Paced (.pushed (d + 4)) [.pop .other] [.pushed (d + 4)] (.pushed d) :=
        .cons (.popOther d) (.nil _)
      exact ⟨_, paced_append (paced_append pushed inner) popped⟩
  have swapped : Level ([.xchg w .acc .other] ++ op.code w) :=
    level_append (level_of_computes rfl) (level_of_computes (computes_operation op w))
  have whole := level_append (level_append kept middle) swapped
  simpa only [binaryCode, List.append_assoc] using whole

theorem paced_pushArgs {env : Env} {args : List Expr} {pushed : List Instr}
    (each : ∀ arg ∈ args, ∀ c, arg.code env = .ok c → Level c.code)
    (ok : Expr.pushArgs env args = .ok pushed) (d : Nat) :
    ∃ depths, Paced (.pushed d) pushed depths (.pushed (d + 4 * args.length)) := by
  induction args generalizing pushed with
  | nil =>
    cases pure_eq_ok.mp ok
    exact ⟨[], .nil _⟩
  | cons arg rest ih =>
    obtain ⟨later, v, ahead, first, rfl⟩ := Expr.pushArgs_cons_ok ok
    obtain ⟨before, tail⟩ := ih (fun e member => each e (List.mem_cons_of_mem arg member)) ahead
    obtain ⟨depths, head⟩ := level_at (each arg List.mem_cons_self v first) .long
      (d + 4 * rest.length)
    have push : Paced (.pushed (d + 4 * rest.length)) [.push .acc] [.pushed (d + 4 * rest.length)]
        (.pushed (d + 4 * (arg :: rest).length)) := .cons (.push _ _) (.nil _)
    exact ⟨_, paced_append (paced_append tail head) push⟩

theorem level_call {label : String} {count : Nat} {pushed : List Instr}
    (args : ∀ d, ∃ depths, Paced (.pushed d) pushed depths (.pushed (d + 4 * count))) :
    Level (callCode label count pushed).code := by
  intro d
  obtain ⟨depths, before⟩ := args d
  have called := paced_append before (.cons (.call (d + 4 * count) label) (.nil _))
  by_cases none : count = 0
  · subst count
    exact ⟨_, by simpa [callCode] using called⟩
  · simp only [callCode, if_neg none]
    exact ⟨_, paced_append called (.cons (.drop d count) (.nil _))⟩

theorem Expr.level_code (env : Env) (e : Expr) : ∀ c, e.code env = .ok c → Level c.code := by
  induction e using Expr.args_induction with
  | ident ty v =>
    intro c ok
    obtain ⟨p, _, rfl⟩ := code_ident_ok ok
    exact level_of_computes rfl
  | lit ty node x =>
    intro c ok
    obtain ⟨o, _, rfl⟩ := code_lit_ok ok
    exact level_of_computes rfl
  | assign ty target value ih =>
    intro c ok
    obtain ⟨p, v, place, inner, rfl⟩ := code_assign_ok ok
    exact level_append (level_at (ih v inner) _) (level_store place)
  | unary ty op operand ih =>
    intro c ok
    cases op with
    | addressOf =>
      obtain ⟨_, _, p, _, _, rfl⟩ := code_addressOf_ok ok
      exact level_of_computes rfl
    | not =>
      obtain ⟨v, inner, rfl⟩ := code_not_ok ok
      exact level_append (ih v inner) (level_of_computes rfl)
    | negate =>
      obtain ⟨v, inner, rfl⟩ := code_negate_ok ok
      exact level_append (ih v inner) (level_of_computes rfl)
  | binary ty op left right first second =>
    intro c ok
    obtain ⟨w, l, r, _, codeL, codeR, rfl⟩ := code_binary_ok ok
    exact level_binary (first l codeL) (second r codeR) _
  | call ty callee args each =>
    intro c ok
    obtain ⟨f, pushed, _, inner, rfl⟩ := code_call_ok ok
    exact level_call (paced_pushArgs each inner)

/-! Statements. -/

/-- The body of a statement, with the position in the statement's code at which it starts and the
labels drawn before it. -/
inductive Stmt.Opens (env : Env) (l : Labels) : Stmt → List Stmt → Nat → Labels → Prop where
  | block (id : BlockId) (body : List Stmt) : Opens env l (.block ⟨id, body⟩) body 0 l
  | ifThen {test : Expr} {t : ValueCode} (id : BlockId) (body : List Stmt)
      (tested : test.code env = .ok t) :
      Opens env l (.ifThen test ⟨id, body⟩) body (t.code.length + 2) l.drawIf
  | whileLoop {test : Expr} {t : ValueCode} (id : BlockId) (body : List Stmt)
      (tested : test.code env = .ok t) :
      Opens env l (.whileLoop test ⟨id, body⟩) body (t.code.length + 6) l.drawWhile
  | forLoop {init test : Expr} {i t : ValueCode} (step : Option Expr) (id : BlockId)
      (body : List Stmt) (initial : init.code env = .ok i) (tested : test.code env = .ok t) :
      Opens env l (.forLoop init test step ⟨id, body⟩) body
        (i.code.length + (t.code.length + 6)) l.drawFor

/-- Positions between the statements of a body, those of nested bodies too. -/
inductive Boundary (env : Env) : Bool → Labels → List Stmt → Nat → Prop where
  | here (direct : Bool) (l : Labels) (body : List Stmt) : Boundary env direct l body 0
  | later {direct : Bool} {l mid : Labels} {s : Stmt} {rest : List Stmt} {first : List Instr}
      {k : Nat} (code : s.code env direct l = .ok (first, mid))
      (behind : Boundary env direct mid rest k) :
      Boundary env direct l (s :: rest) (first.length + k)
  | inside {l deeper : Labels} {s : Stmt} {body : List Stmt} {start k : Nat} (direct : Bool)
      (rest : List Stmt) (opens : s.Opens env l body start deeper)
      (nested : Boundary env false deeper body k) : Boundary env direct l (s :: rest) (start + k)

/-- Whether the stack pointer is at its place at a position. -/
def RestsAt (depths : List Depth) (k : Nat) : Prop :=
  (depths ++ [.pushed 0])[k]? = some (.pushed 0)

theorem restsAt_left {a b : List Depth} {k : Nat} {code : List Instr} (rests : RestsAt a k)
    (behind : Paced (.pushed 0) code b (.pushed 0)) : RestsAt (a ++ b) k := by
  unfold RestsAt at rests ⊢
  rw [List.append_assoc]
  by_cases inside : k < a.length
  · rwa [List.getElem?_append_left inside] at rests ⊢
  · have bound := (List.getElem?_eq_some_iff.mp rests).1
    rw [List.length_append, List.length_singleton] at bound
    have last : k = a.length := by omega
    rw [List.getElem?_append_right (by omega), last, Nat.sub_self]
    exact paced_start behind

theorem restsAt_right {b : List Depth} {k : Nat} (a : List Depth) (rests : RestsAt b k) :
    RestsAt (a ++ b) (a.length + k) := by
  unfold RestsAt at rests ⊢
  rwa [List.append_assoc, List.getElem?_append_right (by omega), Nat.add_sub_cancel_left]

/-- Code of a body, at rest at each of its boundaries. -/
def Calm (env : Env) (direct : Bool) (l : Labels) (body : List Stmt) (code : List Instr) : Prop :=
  ∃ depths, Paced (.pushed 0) code depths (.pushed 0) ∧
    ∀ k, Boundary env direct l body k → RestsAt depths k

theorem level_returnValue {env : Env} {value : Option Expr} {code : List Instr}
    (ok : returnValue env value = .ok code) : Level code := by
  cases value with
  | none =>
    cases pure_eq_ok.mp ok
    exact level_nil
  | some e =>
    obtain ⟨v, inner, rfl⟩ := returnValue_some_ok ok
    exact level_at (e.level_code env v inner) .long

theorem level_stepCode {env : Env} {step : Option Expr} {code : List Instr}
    (ok : stepCode env step = .ok code) : Level code := by
  cases step with
  | none =>
    cases pure_eq_ok.mp ok
    exact level_nil
  | some e =>
    obtain ⟨v, inner, rfl⟩ := stepCode_some_ok ok
    exact e.level_code env v inner

theorem level_pauseWhen {env : Env} {direct : Bool} {code : List Instr}
    (ok : env.pauseWhen direct = .ok code) : Level code := by
  cases direct with
  | false =>
    cases pure_eq_ok.mp ok
    exact level_nil
  | true =>
    obtain ⟨label, _, rfl⟩ := Env.pause_ok ok
    intro d
    exact ⟨_, .cons (.push d _) (.cons (.push (d + 4) _) (.cons (.call (d + 8) _)
      (.cons (.drop (d + 4) 1) (.cons (.popAcc d) (.nil _)))))⟩

theorem paced_epilogue : Paced (.pushed 0) epilogue [.pushed 0, .back] (.pushed 0) :=
  .cons .leave (.cons .ret (.nil _))

theorem paced_leaveUnless (w : Width) (done : String) :
    ∃ depths, Paced (.pushed 0) (leaveUnless w done) depths (.pushed 0) := by
  have mask : Level [.cmp w (.imm 0) .acc, .set .ne .acc, .movZero .acc .acc, .neg .long .acc] :=
    level_of_computes rfl
  obtain ⟨depths, masked⟩ := mask 0
  exact ⟨_, paced_append masked (.cons (.jump .ge done) (.nil _))⟩

section
variable {depths : List Depth} {test : ValueCode} {inner step : List Instr}

/-- The depths of a conditional, with those of its body in the middle. -/
theorem paced_ifCode (done : String) (tested : Level test.code)
    (inside : Paced (.pushed 0) inner depths (.pushed 0)) :
    ∃ before after code, before.length = test.code.length + 2 ∧
      Paced (.pushed 0) code after (.pushed 0) ∧
      Paced (.pushed 0) (ifCode done test inner) (before ++ (depths ++ after)) (.pushed 0) := by
  obtain ⟨first, evaluated⟩ := tested 0
  have branch : Paced (.pushed 0) [.cmp test.width (.imm 0) .acc, .jump .e done]
      [.pushed 0, .pushed 0] (.pushed 0) :=
    .cons (.still 0 (List.nil_subset _) (plain_of_computes rfl)) (.cons (.jump _ _) (.nil _))
  have close : Paced (.pushed 0) [.label done] [.pushed 0] (.pushed 0) :=
    .cons (.label _) (.nil _)
  refine ⟨first ++ [.pushed 0, .pushed 0], [.pushed 0], [.label done], ?_, close, ?_⟩
  · rw [List.length_append, paced_length evaluated]
    rfl
  · have whole := paced_append (paced_append evaluated branch) (paced_append inside close)
    simpa only [ifCode, List.append_assoc] using whole

theorem paced_loopCode (head done : String) (tested : Level test.code) (stepped : Level step)
    (inside : Paced (.pushed 0) inner depths (.pushed 0)) :
    ∃ before after code, before.length = test.code.length + 6 ∧
      Paced (.pushed 0) code after (.pushed 0) ∧
      Paced (.pushed 0) (loopCode head done test inner step) (before ++ (depths ++ after))
        (.pushed 0) := by
  obtain ⟨first, evaluated⟩ := tested 0
  obtain ⟨exits, leaves⟩ := paced_leaveUnless test.width done
  obtain ⟨last, advanced⟩ := stepped 0
  have start : Paced (.pushed 0) [.label head] [.pushed 0] (.pushed 0) :=
    .cons (.label _) (.nil _)
  have again : Paced (.pushed 0) [.jmp head, .label done] [.pushed 0, .pushed 0] (.pushed 0) :=
    .cons (.jmp _) (.cons (.label _) (.nil _))
  have before := paced_append (paced_append start evaluated) leaves
  have length := paced_length before
  refine ⟨[.pushed 0] ++ first ++ exits, last ++ [.pushed 0, .pushed 0],
    step ++ [.jmp head, .label done], ?_, paced_append advanced again, ?_⟩
  · rw [length]
    simp only [leaveUnless, List.length_append, List.length_cons, List.length_nil]
    omega
  · have whole := paced_append before (paced_append inside (paced_append advanced again))
    simpa only [loopCode, List.append_assoc] using whole

end

/-- A statement's code is at rest at each boundary of its body where the body's own code is. -/
theorem Stmt.calm_code {env : Env} {direct : Bool} {l last : Labels} {s : Stmt}
    {code : List Instr} (ok : s.code env direct l = .ok (code, last))
    (inner : ∀ id body, s.Nests id body → ∀ direct l code last,
      codeAll env direct l body = .ok (code, last) → Calm env direct l body code) :
    ∃ depths, Paced (.pushed 0) code depths (.pushed 0) ∧
      ∀ body start deeper k, s.Opens env l body start deeper →
        Boundary env false deeper body k → RestsAt depths (start + k) := by
  cases s with
  | function decl => exact (throw_ne_ok ok).elim
  | declare vars =>
    cases pure_eq_ok.mp ok
    exact ⟨[], .nil _, fun _ _ _ _ opens => nomatch opens⟩
  | block b =>
    obtain ⟨id, body⟩ := b
    obtain ⟨depths, paced, rests⟩ := inner id body (.block id body) false l code last ok
    refine ⟨depths, paced, ?_⟩
    intro body start deeper k opens boundary
    cases opens
    rw [Nat.zero_add]
    exact rests k boundary
  | ifThen test b =>
    obtain ⟨id, body⟩ := b
    obtain ⟨t, nested, tested, inside, rfl⟩ := code_ifThen_ok ok
    obtain ⟨depths, paced, rests⟩ := inner id body (.ifThen test id body) _ _ _ _ inside
    obtain ⟨before, after, _, length, behind, whole⟩ :=
      paced_ifCode l.endIf (test.level_code env t tested) paced
    refine ⟨_, whole, ?_⟩
    intro body start deeper k opens boundary
    cases opens with
    | ifThen _ _ same =>
      cases tested.symm.trans same
      rw [← length]
      exact restsAt_right before (restsAt_left (rests k boundary) behind)
  | whileLoop test b =>
    obtain ⟨id, body⟩ := b
    obtain ⟨t, nested, tested, inside, rfl⟩ := code_whileLoop_ok ok
    obtain ⟨depths, paced, rests⟩ := inner id body (.whileLoop test id body) _ _ _ _ inside
    obtain ⟨before, after, _, length, behind, whole⟩ :=
      paced_loopCode l.whileHead l.whileEnd (test.level_code env t tested) level_nil paced
    refine ⟨_, whole, ?_⟩
    intro body start deeper k opens boundary
    cases opens with
    | whileLoop _ _ same =>
      cases tested.symm.trans same
      rw [← length]
      exact restsAt_right before (restsAt_left (rests k boundary) behind)
  | forLoop init test step b =>
    obtain ⟨id, body⟩ := b
    obtain ⟨i, t, nested, next, initial, tested, inside, stepped, rfl⟩ := code_forLoop_ok ok
    obtain ⟨depths, paced, rests⟩ := inner id body (.forLoop init test step id body) _ _ _ _ inside
    obtain ⟨before, after, _, length, behind, whole⟩ := paced_loopCode l.forHead l.forEnd
      (test.level_code env t tested) (level_stepCode stepped) paced
    obtain ⟨opening, evaluated⟩ := init.level_code env i initial 0
    refine ⟨_, paced_append evaluated whole, ?_⟩
    intro body start deeper k opens boundary
    cases opens with
    | forLoop _ _ _ sameInit same =>
      cases tested.symm.trans same
      cases initial.symm.trans sameInit
      rw [← length, ← paced_length evaluated, Nat.add_assoc]
      exact restsAt_right opening (restsAt_right before (restsAt_left (rests k boundary) behind))
  | ret value =>
    obtain ⟨v, p, returned, paused, rfl, rfl⟩ := code_ret_ok ok
    obtain ⟨depths, paced⟩ :=
      level_append (level_returnValue returned) (level_pauseWhen paused) 0
    exact ⟨_, paced_append paced paced_epilogue, fun _ _ _ _ opens => nomatch opens⟩
  | eval e =>
    obtain ⟨c, evaluated, rfl, rfl⟩ := code_eval_ok ok
    obtain ⟨depths, paced⟩ := e.level_code env c evaluated 0
    exact ⟨depths, paced, fun _ _ _ _ opens => nomatch opens⟩

theorem Stmt.calm_codeAll (env : Env) (body : List Stmt) :
    ∀ direct l code last, codeAll env direct l body = .ok (code, last) →
      Calm env direct l body code := by
  induction body using Stmt.body_induction with
  | nil =>
    intro direct l code last ok
    cases pure_eq_ok.mp ok
    refine ⟨[], .nil _, ?_⟩
    intro k boundary
    cases boundary
    rfl
  | cons s rest inner ih =>
    intro direct l code last ok
    obtain ⟨first, mid, later, here, ahead, rfl⟩ := codeAll_cons_ok ok
    obtain ⟨behind, pacedLater, restsLater⟩ := ih direct mid later last ahead
    obtain ⟨depths, paced, rests⟩ := calm_code here inner
    refine ⟨depths ++ behind, paced_append paced pacedLater, ?_⟩
    intro k boundary
    cases boundary with
    | here => exact restsAt_left (paced_start paced) pacedLater
    | later code after =>
      cases here.symm.trans code
      rw [← paced_length paced]
      exact restsAt_right depths (restsLater _ after)
    | inside _ _ opens nested => exact restsAt_left (rests _ _ _ _ opens nested) pacedLater

end Ia32Backend
