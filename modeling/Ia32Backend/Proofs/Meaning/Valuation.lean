import Ia32Backend.Proofs.Meaning.Run
import Ia32Backend.Proofs.Uses

/-!
Values of expressions in a running function, addresses of variables included. What is called may
depend on the variables, since it may know their addresses, and leaves them as they are.
-/
namespace Ia32Backend

/-- Widths and addresses of variables, and addresses of strings. -/
structure Terrain where
  width : VarId → Width
  address : VarId → Word
  text : NodeId → Word

/-- What evaluation changes: the words of variables, and whatever lies behind the calls. -/
structure Store (Ω : Type) where
  vars : VarId → Word
  rest : Ω

abbrev Eval (Ω : Type) := StateT (Store Ω) (Except Stop)

/-- What a call results in. -/
abbrev Callees (Ω : Type) := FunctionId → List Word → Store Ω → Except Stop (Word × Ω)

/-- Nothing is called. -/
def noCallees : Callees Unit := fun _ _ _ => .error .undefined

namespace Terrain

/-- The value of a variable that holds a word. -/
def load (t : Terrain) (v : VarId) (x : Word) : Value := ⟨t.width v, x.setWidth (t.width v).bits⟩

/-- The value that a variable takes on. -/
def convert (t : Terrain) (v : VarId) (x : Value) : Value := ⟨t.width v, x.at (t.width v)⟩

/-- True is all ones, a character its code point, a string its address. A float has no value. -/
def literal (t : Terrain) (node : NodeId) : Literal → Except Stop Value
  | .int n => .ok ⟨.long, n.toBitVec⟩
  | .char c => .ok ⟨.long, BitVec.ofNat 32 c.toNat⟩
  | .bool true => .ok ⟨.long, -1⟩
  | .bool false => .ok ⟨.long, 0⟩
  | .null => .ok ⟨.long, 0⟩
  | .string _ => .ok ⟨.long, t.text node⟩
  | .float _ => .error .undefined

end Terrain

namespace Eval

variable {Ω α β : Type}

def assign (v : VarId) (x : Word) : Eval Ω Unit :=
  modify fun s => { s with vars := fun u => if u = v then x else s.vars u }

def call (callees : Callees Ω) (callee : FunctionId) (args : List Word) : Eval Ω Word := fun s => do
  let (x, rest) ← callees callee args s
  pure (x, { s with rest })

def operate (op : BinaryOp) (w : Width) (a b : BitVec w.bits) : Eval Ω Value :=
  match op.apply a b with
  | some r => pure ⟨w, r⟩
  | none => throw .divide

theorem bind_ok {x : Eval Ω α} {f : α → Eval Ω β} {s last : Store Ω} {b : β} :
    (x >>= f) s = .ok (b, last) ↔ ∃ a mid, x s = .ok (a, mid) ∧ f a mid = .ok (b, last) := by
  simp only [bind, StateT.bind]
  rcases x s with stop | ⟨a, mid⟩
  · simp [Except.bind]
  · refine ⟨fun done => ⟨a, mid, rfl, done⟩, ?_⟩
    rintro ⟨_, _, ⟨⟩, done⟩
    exact done

theorem bind_error {x : Eval Ω α} {f : α → Eval Ω β} {s : Store Ω} {stop : Stop} :
    (x >>= f) s = .error stop ↔
      x s = .error stop ∨ ∃ a mid, x s = .ok (a, mid) ∧ f a mid = .error stop := by
  simp only [bind, StateT.bind]
  rcases x s with stop | ⟨a, mid⟩
  · simp [Except.bind]
  · refine ⟨fun failed => .inr ⟨a, mid, rfl, failed⟩, ?_⟩
    rintro (⟨⟨⟩⟩ | ⟨_, _, ⟨⟩, failed⟩)
    exact failed

theorem pure_ok {s last : Store Ω} {a b : α} :
    (pure a : Eval Ω α) s = .ok (b, last) ↔ a = b ∧ s = last := by
  change (Except.ok (a, s) : Except Stop (α × Store Ω)) = .ok (b, last) ↔ a = b ∧ s = last
  simp

theorem operate_ok {op : BinaryOp} {w : Width} {a b : BitVec w.bits} {s after : Store Ω}
    {x : Value} (done : operate op w a b s = .ok (x, after)) :
    ∃ r, op.apply a b = some r ∧ x = ⟨w, r⟩ ∧ s = after := by
  unfold operate at done
  cases result : op.apply a b with
  | none =>
    rw [result] at done
    cases done
  | some r =>
    rw [result] at done
    obtain ⟨rfl, rfl⟩ := pure_ok.mp done
    exact ⟨r, rfl, rfl, rfl⟩

theorem call_ok {callees : Callees Ω} {callee : FunctionId} {args : List Word} {s after : Store Ω}
    {x : Word} (done : call callees callee args s = .ok (x, after)) :
    ∃ rest, callees callee args s = .ok (x, rest) ∧ after = { s with rest } := by
  unfold call at done
  cases result : callees callee args s with
  | error stop =>
    rw [result] at done
    cases done
  | ok r =>
    rw [result] at done
    cases done
    exact ⟨_, rfl, rfl⟩

end Eval

namespace Expr

section
variable {Ω : Type} (t : Terrain) (callees : Callees Ω)

mutual

/-- The value of an expression. -/
def evaluate : Expr → Eval Ω Value
  | .ident _ v => do pure (t.load v ((← get).vars v))
  | .lit _ node x => liftM (t.literal node x)
  | .assign _ target value => do
      let x := t.convert target (← value.evaluate)
      Eval.assign target (x.bits.signExtend 32)
      pure x
  | .unary _ .addressOf (.ident _ v) => pure ⟨.long, t.address v⟩
  | .unary _ .addressOf _ => throw .undefined
  | .unary _ .not operand => do
      let x ← operand.evaluate
      pure ⟨.long, truth 32 (!x.isTrue)⟩
  | .unary _ .negate operand => do
      let x ← operand.evaluate
      pure ⟨x.width, -x.bits⟩
  | .binary _ op left right => do
      let w := operandWidth left.ty right.ty
      let a ← left.evaluate
      let b ← right.evaluate
      Eval.operate op w (a.at w) (b.at w)
  | .call _ callee args => do
      let words ← evaluateArgs args
      pure ⟨.long, ← Eval.call callees callee words⟩
termination_by structural e => e

/-- Arguments as longs, in their order; the last one is evaluated first. -/
def evaluateArgs : List Expr → Eval Ω (List Word)
  | [] => pure []
  | arg :: rest => do
      let later ← evaluateArgs rest
      let x ← arg.evaluate
      pure (x.at .long :: later)
termination_by structural args => args

end

end

/-- The variable that an expression assigns itself. -/
def ownTarget : Expr → List VarId
  | .assign _ target _ => [target]
  | _ => []

/-- Variables that an expression assigns. -/
def assigned (e : Expr) : List VarId := e.parts.flatMap ownTarget

@[simp] theorem assigned_ident (ty : ValueType) (v : VarId) : (ident ty v).assigned = [] := rfl

@[simp] theorem assigned_lit (ty : ValueType) (node : NodeId) (x : Literal) :
    (lit ty node x).assigned = [] := rfl

@[simp] theorem assigned_assign (ty : ValueType) (target : VarId) (value : Expr) :
    (assign ty target value).assigned = target :: value.assigned := rfl

@[simp] theorem assigned_unary (ty : ValueType) (op : UnaryOp) (operand : Expr) :
    (unary ty op operand).assigned = operand.assigned := rfl

@[simp] theorem assigned_binary (ty : ValueType) (op : BinaryOp) (left right : Expr) :
    (binary ty op left right).assigned = left.assigned ++ right.assigned := by
  simp [assigned, parts, ownTarget]

@[simp] theorem assigned_call (ty : ValueType) (callee : FunctionId) (args : List Expr) :
    (call ty callee args).assigned = args.flatMap assigned := by
  simp only [assigned, parts, ownTarget, partsOf_eq, List.flatMap_cons, List.nil_append]
  exact List.flatMap_assoc

theorem assigned_subset (e : Expr) : e.assigned ⊆ e.names := by
  intro v member
  obtain ⟨part, inside, own⟩ := List.mem_flatMap.mp member
  refine List.mem_flatMap.mpr ⟨part, inside, ?_⟩
  cases part with
  | assign ty target value => exact own
  | _ => cases own

def callFree : Expr → Bool
  | .ident _ _ => true
  | .lit _ _ _ => true
  | .assign _ _ value => value.callFree
  | .unary _ _ operand => operand.callFree
  | .binary _ _ left right => left.callFree && right.callFree
  | .call _ _ _ => false

/-- What has no calls does not depend on callees. -/
theorem evaluate_of_callFree {Ω : Type} {t : Terrain} {e : Expr} (free : e.callFree = true)
    (first second : Callees Ω) :
    e.evaluate t first = e.evaluate t second := by
  induction e using Expr.args_induction with
  | ident ty v => rfl
  | lit ty node x => rfl
  | assign ty target value ih => rw [evaluate, evaluate, ih free]
  | unary ty op operand ih =>
    cases op with
    | addressOf => cases operand <;> rfl
    | not => rw [evaluate, evaluate, ih free]
    | negate => rw [evaluate, evaluate, ih free]
  | binary ty op left right ihl ihr =>
    obtain ⟨freeLeft, freeRight⟩ := Bool.and_eq_true_iff.mp free
    rw [evaluate, evaluate, ihl freeLeft, ihr freeRight]
  | call ty callee args ih => cases free

end Expr

end Ia32Backend
