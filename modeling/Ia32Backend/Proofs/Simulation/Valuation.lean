import Ia32Backend.Proofs.Simulation.Ground

/-!
The code of an expression computes its value, whatever its form and its annotations. The left
operand of an operator waits in the other register, or on the stack where the right one's code
writes that register; arguments wait on the stack, and the callee finds them in order.
-/
namespace Ia32Backend

namespace Ground

section
variable {Ω : Type} {g : Ground Ω} {callees : Callees Ω} {spares : Bool}

theorem lands_kept {start : State} {pos n : Nat} {after : Store Ω} {right : Cpu → Prop}
    (lands : g.Lands start pos n after right) :
    g.Lands start pos n after
      fun c => right c ∧ Cpu.Keeps (g.terrain.Owned g.assigned) n start.cpu c := by
  obtain ⟨k, c, log, steps, keeps, holds, shown, result⟩ := lands
  exact ⟨k, c, log, steps, keeps, holds, shown, result, keeps⟩

theorem computes_at (sound : g.Sound) {v : ValueCode} {run : Eval Ω Value}
    (computes : g.Computes v.code run spares (Gives v.width)) (w : Width) :
    g.Computes (v.at w) run spares (GivesAt w) := by
  have extended : g.Computes (v.code ++ v.width.extendTo w) (run >>= fun x => pure (id x))
      spares (GivesAt w) := by
    refine computes_then sound computes
      (computing_of_computes (computes_extendTo v.width w)) ?_ ?_
    · cases v.width <;> cases w <;> decide
    · rintro x c rfl
      obtain ⟨c', done, low⟩ := Cpu.run_extendTo g.image.data c v.width w
      exact ⟨c', done, low.symm⟩
  rwa [show (run >>= fun x => pure (id x)) = run from bind_pure run] at extended

theorem computes_not (sound : g.Sound) {v : ValueCode} {run : Eval Ω Value}
    (computes : g.Computes v.code run spares (Gives v.width)) :
    g.Computes v.not.code (run >>= fun x => pure ⟨.long, truth 32 (!x.isTrue)⟩) spares
      (Gives .long) := by
  refine computes_then sound computes (computing_of_computes rfl) ?_ ?_
  · simp [Instr.sets, Operand.regs]
  · rintro x c rfl
    obtain ⟨c', done, result⟩ := Cpu.run_not g.image.data c v.width
    refine ⟨c', done, ?_⟩
    rw [Gives, Cpu.low_long, result, Value.isTrue, bne, Bool.not_not]

theorem computes_negate (sound : g.Sound) {v : ValueCode} {run : Eval Ω Value}
    (computes : g.Computes v.code run spares (Gives v.width)) :
    g.Computes v.negate.code (run >>= fun x => pure ⟨x.width, -x.bits⟩) spares
      (Gives v.width) := by
  refine computes_then sound computes (computing_of_computes rfl) ?_ ?_
  · simp [Instr.sets, Operand.regs]
  · rintro x c rfl
    obtain ⟨c', done, result⟩ := Cpu.run_negate g.image.data c v.width
    exact ⟨c', done, by rw [Gives, result]⟩

theorem computes_ident (sound : g.Sound) {ty : ValueType} {v : VarId} {p : Place}
    (known : v ∈ g.names) (place : g.env.place v = .ok p) :
    g.Computes p.load.code (Expr.evaluate g.terrain callees (.ident ty v)) true
      (Gives p.width) := by
  obtain ⟨disp, operand, width, address⟩ := terrain_place place
  refine computes_reading sound (computing_of_computes rfl)
    (by simp [Place.load, Instr.sets, Operand.regs]) ?_
  intro c s x after holds done
  cases done
  refine ⟨rfl, _, rfl, ?_⟩
  have slot : c.value g.image.data p.width p.operand = (s.vars v).setWidth p.width.bits := by
    have held := holds.slots v known
    rw [width, address, ← holds.base] at held
    rw [operand]
    exact held
  rw [Gives, Cpu.low_setReg_blend, slot, Terrain.load, width]

theorem computes_lit (sound : g.Sound) {ty : ValueType} {node : NodeId} {x : Literal} {o : Operand}
    (literal : g.env.literal node x = .ok o) :
    g.Computes [.mov .long o .acc] (Expr.evaluate g.terrain callees (.lit ty node x)) true
      (Gives .long) := by
  refine computes_reading sound (computing_of_computes rfl)
    (by simp [Instr.sets, Operand.regs]) ?_
  intro c s y after _ done
  suffices value : g.terrain.literal node x = .ok ⟨.long, c.value g.image.data .long o⟩ by
    rw [Expr.evaluate, value] at done
    cases done
    exact ⟨rfl, _, rfl, by rw [Gives, Cpu.low_setReg_blend]⟩
  cases x with
  | string text =>
    obtain ⟨label, pooled, same⟩ := bind_eq_ok.mp literal
    cases same
    have text : g.terrain.text node = g.image.data label := by
      simp [terrain, Env.terrain, pooled]
    rw [Terrain.literal, text, Cpu.value, BitVec.setWidth_eq]
  | float bits => exact (throw_ne_ok literal).elim
  | bool b => cases b <;> cases literal <;> rfl
  | _ =>
    cases literal
    exact congrArg (fun n => Except.ok (Value.mk .long n)) (BitVec.setWidth_eq _).symm

theorem computes_address (sound : g.Sound) {ty inner : ValueType} {v : VarId} {p : Place}
    (place : g.env.place v = .ok p) :
    g.Computes p.address.code
      (Expr.evaluate g.terrain callees (.unary ty .addressOf (.ident inner v))) true
      (Gives .long) := by
  obtain ⟨disp, operand, _, address⟩ := terrain_place place
  have code : p.address.code = [.lea (.frame disp) .acc] := by rw [Place.address, operand]
  rw [code]
  refine computes_reading sound (computing_of_computes rfl)
    (by simp [Instr.sets, Operand.regs]) ?_
  intro c s x after holds done
  cases done
  refine ⟨rfl, _, rfl, ?_⟩
  rw [Gives, Cpu.low_setReg_blend, address, ← holds.base]

theorem computes_assign (sound : g.Sound) {ty : ValueType} {target : VarId} {value : Expr}
    {p : Place} {v : ValueCode} (known : target ∈ g.assigned)
    (place : g.env.place target = .ok p)
    (computes : g.Computes v.code (value.evaluate g.terrain callees) spares (Gives v.width)) :
    g.Computes (p.store v).code (Expr.evaluate g.terrain callees (.assign ty target value)) spares
      (Gives p.width) := by
  obtain ⟨disp, operand, width, address⟩ := terrain_place place
  intro i c log s y after here holds shown lasts done
  obtain ⟨hereValue, hereStore⟩ := Image.has_append.mp here
  rw [Expr.evaluate] at done
  obtain ⟨x, mid, evaluated, rest⟩ := Eval.bind_ok.mp done
  cases rest
  rw [Place.store, List.length_append, ← Nat.add_assoc]
  refine lands_trans (k := 0) lasts
    (computes_at sound computes p.width i c log s x mid hereValue holds shown lasts evaluated) ?_
  rintro c₁ log₁ _ holds₁ shown₁ ⟨low, same⟩ _
  obtain ⟨keeps, held⟩ := holds_write sound holds₁ known
    ((g.terrain.convert target x).bits.signExtend 32)
  have stored : c₁.run g.image.data [.mov p.width .acc p.operand] =
      .ok (c₁.setMem (c₁.mem.write (g.terrain.address target) (g.terrain.width target)
        (((g.terrain.convert target x).bits.signExtend 32).setWidth
          (g.terrain.width target).bits))) := by
    rw [Terrain.convert, width, Value.setWidth_signExtend _ (by cases p.width <;> decide), low,
      address, ← holds₁.base, operand]
    rfl
  refine ⟨_, _, log₁, Image.steps_run hereStore stored, keeps, held, shown₁, ?_, same⟩
  rw [Terrain.convert, width, low]
  rfl

/-- Both operands at hand: the left one in the other register, the right one in the accumulator. -/
theorem lands_operation (sound : g.Sound) {op : BinaryOp} {w : Width} {i : Nat} {c : Cpu}
    {s : Store Ω} {log : List RuntimeCall} {a b r : BitVec w.bits}
    (here : g.image.Has i ([.xchg w .acc .other] ++ op.code w)) (holds : g.Holds s.vars c)
    (shown : g.shows s.rest log) (left : a = c.low w .dx) (right : b = c.low w .ax)
    (result : op.apply a b = some r) :
    g.Lands ⟨.inside i, c, log⟩ (i + (1 + (op.code w).length)) 0 s (Gives w ⟨w, r⟩) := by
  obtain ⟨mid, exchanged, low, lowOther⟩ := Site.run_exchange g.image.data c w
  have operated := Cpu.run_operation g.image.data mid op w
  rw [low, lowOther, ← left, ← right, result] at operated
  obtain ⟨c', ran, final⟩ := operated
  have whole := Cpu.run_append_ok.mpr ⟨mid, exchanged, ran⟩
  rw [← List.length_singleton (a := Instr.xchg w .acc .other), ← List.length_append]
  exact lands_computing sound here holds shown
    (computing_of_computes (computes_operation op w)) whole (by rw [Gives, final])

/-- The right operand where the left one waits in the other register. -/
theorem lands_right (sound : g.Sound) {op : BinaryOp} {w : Width} {r : ValueCode}
    {second : Eval Ω Value} {i : Nat} {c : Cpu} {s after : Store Ω} {log : List RuntimeCall}
    {a x : BitVec w.bits} {b : Value} (computes : g.Computes r.code second true (Gives r.width))
    (here : g.image.Has i (r.at w ++ ([.xchg w .acc .other] ++ op.code w)))
    (holds : g.Holds s.vars c) (shown : g.shows s.rest log)
    (lasts : g.image.StackLasts ⟨.inside i, c, log⟩) (left : a = c.low w .dx)
    (evaluated : second s = .ok (b, after)) (result : op.apply a (b.at w) = some x) :
    g.Lands ⟨.inside i, c, log⟩ (i + ((r.at w).length + (1 + (op.code w).length))) 0 after
      (Gives w ⟨w, x⟩) := by
  obtain ⟨hereRight, hereRest⟩ := Image.has_append.mp here
  refine lands_weaken (lands_trans (k := 0) lasts (computes_at sound computes w i c log s b after
    hereRight holds shown lasts evaluated) ?_) (Nat.add_assoc _ _ _) fun _ result => result
  rintro c₁ log₁ _ holds₁ shown₁ ⟨low, same⟩ _
  have other : c₁.low w .dx = c.low w .dx := congrArg (BitVec.setWidth w.bits) (same rfl)
  exact lands_operation sound hereRest holds₁ shown₁ (left.trans other.symm) low result

/-- What was pushed last lies on top until the code that pushed it takes it back. -/
theorem top_kept (sound : g.Sound) {c c' : Cpu}
    (keeps : Cpu.Keeps (g.terrain.Owned g.assigned) 0 c c')
    (room : (c.reg .sp).toNat + 4 ≤ g.floor) (fits : (c.reg .sp).toNat + 4 ≤ 2 ^ 32) :
    c'.top = c.top := by
  have sp : c'.reg .sp = c.reg .sp := BitVec.eq_of_toNat_eq keeps.sp
  rw [Cpu.top, Cpu.top, sp]
  refine Cpu.keeps_read keeps (Nat.le_refl _) fits fun x inside owned => ?_
  have low := owned_high sound owned
  have high := inside.2
  simp only [Width.bytes] at high
  omega

/-- The right operand where the left one waits on the stack. -/
theorem lands_right_saved (sound : g.Sound) {op : BinaryOp} {w : Width} {r : ValueCode}
    {second : Eval Ω Value} {i : Nat} {c : Cpu} {s after : Store Ω} {log : List RuntimeCall}
    {a x : BitVec w.bits} {b : Value} (computes : g.Computes r.code second false (Gives r.width))
    (here : g.image.Has i ([.push .other] ++ (r.at w ++ ([.pop .other] ++
      ([.xchg w .acc .other] ++ op.code w)))))
    (holds : g.Holds s.vars c) (shown : g.shows s.rest log)
    (lasts : g.image.StackLasts ⟨.inside i, c, log⟩) (left : a = c.low w .dx)
    (evaluated : second s = .ok (b, after)) (result : op.apply a (b.at w) = some x) :
    g.Lands ⟨.inside i, c, log⟩
      (i + (1 + ((r.at w).length + (1 + (1 + (op.code w).length))))) 0 after
      (Gives w ⟨w, x⟩) := by
  obtain ⟨herePush, here⟩ := Image.has_append.mp here
  obtain ⟨hereRight, here⟩ := Image.has_append.mp here
  obtain ⟨herePop, hereRest⟩ := Image.has_append.mp here
  have bound := (c.reg .sp).isLt
  -- The left operand lies on top when the right one is at hand.
  have waiting : g.Lands ⟨.inside i, c, log⟩ (i + 1 + (r.at w).length) (0 + 4) after fun c₂ =>
      GivesAt w b c₂ ∧ c₂.top = c.reg .dx := by
    refine lands_trans (k := 0) lasts (lands_push sound herePush holds shown lasts) ?_
    intro c₁ log₁ keeps₁ holds₁ shown₁ ⟨top₁, _⟩ lasts₁
    have depth := keeps₁.sp
    have room := holds.room
    simp only at depth
    refine lands_weaken (lands_kept (computes_at sound computes w _ c₁ log₁ s b after hereRight
      holds₁ shown₁ lasts₁ evaluated)) rfl ?_
    rintro c₂ ⟨⟨low, _⟩, keeps₂⟩
    refine ⟨low, ?_⟩
    rw [top_kept sound keeps₂ (by simp only; omega) (by simp only; omega), top₁]
    exact BitVec.setWidth_eq _
  have popped : g.Lands ⟨.inside i, c, log⟩ (i + 1 + (r.at w).length + 1) 0 after fun c₃ =>
      GivesAt w b c₃ ∧ a = c₃.low w .dx := by
    refine lands_raise sound waiting holds.room herePop ?_
    rintro c₂ ⟨low, top⟩
    obtain ⟨c₃, ran, other, sp, regs, mem⟩ := Site.run_pop g.image.data c₂ (r := .dx) (by decide)
    refine ⟨c₃, ran, sp, fun q member => ?_, mem, ?_, ?_⟩
    · exact regs q (by rintro rfl; simp at member) (by rintro rfl; simp at member)
    · have acc : c₃.low w .ax = c₂.low w .ax :=
        congrArg (BitVec.setWidth w.bits) (regs .ax (by decide) (by decide))
      exact low.trans acc.symm
    · rw [left, Cpu.low, Cpu.low, other, top]
  refine lands_weaken (lands_trans (k := 0) lasts popped fun c₃ log₃ _ holds₃ shown₃ ready _ =>
    lands_operation sound hereRest holds₃ shown₃ ready.2 ready.1 result) ?_ fun _ result => result
  omega

theorem computes_binary (sound : g.Sound) {op : BinaryOp} {w : Width} {l r : ValueCode}
    {first second : Eval Ω Value} {save keeps : Bool}
    (left : g.Computes l.code first keeps (Gives l.width))
    (right : g.Computes r.code second (!save) (Gives r.width)) :
    g.Computes (binaryCode op w l r save).code
      (first >>= fun a => second >>= fun b => Eval.operate op w (a.at w) (b.at w)) false
      (Gives w) := by
  intro i c log s y after here holds shown lasts done
  obtain ⟨a, s₁, evaluatedLeft, done⟩ := Eval.bind_ok.mp done
  obtain ⟨b, s₂, evaluatedRight, done⟩ := Eval.bind_ok.mp done
  obtain ⟨x, result, rfl, rfl⟩ := Eval.operate_ok done
  simp only [binaryCode, List.append_assoc] at here ⊢
  obtain ⟨hereLeft, here⟩ := Image.has_append.mp here
  obtain ⟨hereMove, here⟩ := Image.has_append.mp here
  have moved : g.Lands ⟨.inside i, c, log⟩ (i + (l.at w).length + 1) 0 s₁
      fun c₂ => a.at w = c₂.low w .dx := by
    refine lands_trans (k := 0) lasts (computes_at sound left w i c log s a s₁ hereLeft holds
      shown lasts evaluatedLeft) ?_
    rintro c₁ log₁ _ holds₁ shown₁ ⟨low, _⟩ _
    obtain ⟨c₂, ran, low₂⟩ := Site.run_move g.image.data c₁ w
    exact lands_computing sound hereMove holds₁ shown₁ (computing_of_computes rfl) ran
      (low.trans low₂.symm)
  have claimed : ∀ c', Gives w ⟨w, x⟩ c' →
      Gives w ⟨w, x⟩ c' ∧ (false = true → c'.reg .dx = c.reg .dx) :=
    fun c' gives => ⟨gives, unspared⟩
  cases save with
  | false =>
    refine lands_weaken (lands_trans (k := 0) lasts moved fun c₂ log₂ _ holds₂ shown₂ low₂ lasts₂ =>
      lands_right sound right here holds₂ shown₂ lasts₂ low₂ evaluatedRight result) ?_ claimed
    simp only [List.length_append, List.length_cons, List.length_nil, Bool.false_eq_true, if_false]
    omega
  | true =>
    refine lands_weaken (lands_trans (k := 0) lasts moved fun c₂ log₂ _ holds₂ shown₂ low₂ lasts₂ =>
      lands_right_saved sound right here holds₂ shown₂ lasts₂ low₂ evaluatedRight result) ?_ claimed
    simp only [List.length_append, List.length_cons, List.length_nil, if_true]
    omega

/-! Calls. -/

theorem lands_args (sound : g.Sound) {args : List Expr}
    (each : ∀ arg ∈ args, ∀ v, arg.code g.env = .ok v →
      g.Computes v.code (arg.evaluate g.terrain callees) (!arg.usesOther) (Gives v.width)) :
    ∀ {pushed i c log s words after}, Expr.pushArgs g.env args = .ok pushed →
      g.image.Has i pushed → g.Holds s.vars c → g.shows s.rest log →
      g.image.StackLasts ⟨.inside i, c, log⟩ →
      Expr.evaluateArgs g.terrain callees args s = .ok (words, after) →
      words.length = args.length ∧ g.Lands ⟨.inside i, c, log⟩ (i + pushed.length)
        (4 * words.length) after fun c' => c'.Passes words := by
  induction args with
  | nil =>
    intro pushed i c log s words after ok _ holds shown _ done
    cases pure_eq_ok.mp ok
    cases done
    exact ⟨rfl, lands_refl holds shown c.passes_nil⟩
  | cons arg rest ih =>
    intro pushed i c log s words after ok here holds shown lasts done
    obtain ⟨later, v, inner, first, rfl⟩ := Expr.pushArgs_cons_ok ok
    rw [Expr.evaluateArgs] at done
    obtain ⟨words, s₁, evaluatedRest, done⟩ := Eval.bind_ok.mp done
    obtain ⟨x, s₂, evaluated, done⟩ := Eval.bind_ok.mp done
    cases done
    rw [List.append_assoc] at here
    obtain ⟨hereLater, here⟩ := Image.has_append.mp here
    obtain ⟨hereArg, herePush⟩ := Image.has_append.mp here
    obtain ⟨count, below⟩ := ih (fun a member => each a (List.mem_cons_of_mem arg member)) inner
      hereLater holds shown lasts evaluatedRest
    refine ⟨by rw [List.length_cons, List.length_cons, count], ?_⟩
    have room := holds.room
    have bound := (c.reg .sp).isLt
    rw [List.append_assoc, List.length_append, List.length_append, ← Nat.add_assoc, ← Nat.add_assoc,
      List.length_singleton, List.length_cons, Nat.mul_succ]
    refine lands_trans (k := 4) lasts below fun c₁ log₁ keeps₁ holds₁ shown₁ passes lasts₁ => ?_
    · refine lands_trans (n := 0) (k := 4) lasts₁ (lands_kept (computes_at sound
        (each arg List.mem_cons_self v first) .long _ c₁ log₁ s₁ x after hereArg holds₁ shown₁
        lasts₁ evaluated)) ?_
      rintro c₂ log₂ _ holds₂ shown₂ ⟨⟨value, _⟩, keeps₂⟩ lasts₂
      refine lands_weaken (lands_kept (lands_push sound herePush holds₂ shown₂ lasts₂)) rfl ?_
      rintro c₃ ⟨⟨top, _⟩, keeps₃⟩
      have depth := keeps₁.sp
      simp only at depth keeps₂ keeps₃
      refine Cpu.passes_push passes (Cpu.keeps_trans keeps₂ keeps₃).sp
        (top.trans value.symm) (by omega) fun a low high => ?_
      refine Cpu.keeps_read (Cpu.keeps_trans keeps₂ keeps₃) low (by omega) fun y inside owned => ?_
      have floor := owned_high sound owned
      have last := inside.2
      simp only [Width.bytes] at last
      omega

/-- A call over arguments that have been pushed. They stay on the stack. -/
theorem lands_called (sound : g.Sound)
    (fulfils : g.image.Fulfils g.env g.base g.names g.shows callees) {callee : FunctionId}
    {f : FunctionSymbol} {start : State} {pos : Nat} {words : List Word} {x : Word}
    {s : Store Ω} {rest : Ω} (found : g.env.symbols.functionAt callee = .ok f)
    (room : (start.cpu.reg .sp).toNat ≤ g.floor) (lasts : g.image.StackLasts start)
    (first : g.Lands start pos (4 * words.length) s fun c => c.Passes words)
    (here : g.image.Has pos [.call f.label]) (answer : callees callee words s = .ok (x, rest)) :
    g.Lands start (pos + 1) (4 * words.length) { s with rest } fun c => c.reg .ax = x := by
  obtain ⟨k, c₁, log₁, steps₁, keeps₁, holds₁, shown₁, passes⟩ := first
  have depth := keeps₁.sp
  have bound := (start.cpu.reg .sp).isLt
  obtain ⟨n, c₂, log₂, steps₂, resumed, acc, shown₂⟩ := fulfils _ c₁ log₁ s callee f words x rest
    (Image.has_cons.mp here).1 found passes (by omega) holds₁.base holds₁.slots shown₁
    (Image.stackLasts_steps lasts steps₁) answer
  have keeps₂ := Cpu.keeps_resumed keeps₁ resumed
  have sp := keeps₂.sp
  refine ⟨_, c₂, log₂, Image.steps_trans steps₁ steps₂, keeps₂, ?_, shown₂, acc⟩
  refine holds_later sound holds₁ (resumed.saved .bp (by decide)) (by omega) fun a high => ?_
  exact resumed.above a (by omega)

theorem computes_call (sound : g.Sound)
    (fulfils : g.image.Fulfils g.env g.base g.names g.shows callees) {ty : ValueType}
    {callee : FunctionId} {f : FunctionSymbol} {args : List Expr} {pushed : List Instr}
    (found : g.env.symbols.functionAt callee = .ok f)
    (ok : Expr.pushArgs g.env args = .ok pushed)
    (each : ∀ arg ∈ args, ∀ v, arg.code g.env = .ok v →
      g.Computes v.code (arg.evaluate g.terrain callees) (!arg.usesOther) (Gives v.width)) :
    g.Computes (callCode f.label args.length pushed).code
      (Expr.evaluate g.terrain callees (.call ty callee args)) false (Gives .long) := by
  intro i c log s y after here holds shown lasts done
  rw [Expr.evaluate] at done
  obtain ⟨words, s₁, evaluated, done⟩ := Eval.bind_ok.mp done
  obtain ⟨x, s₂, called, done⟩ := Eval.bind_ok.mp done
  cases done
  obtain ⟨rest, answer, rfl⟩ := Eval.call_ok called
  simp only [callCode, List.append_assoc] at here ⊢
  obtain ⟨hereArgs, here⟩ := Image.has_append.mp here
  obtain ⟨hereCall, hereDrop⟩ := Image.has_append.mp here
  obtain ⟨count, passed⟩ := lands_args sound each ok hereArgs holds shown lasts evaluated
  have back : g.Lands ⟨.inside i, c, log⟩ (i + pushed.length + 1) (0 + 4 * args.length)
      { s₁ with rest } fun c' => c'.reg .ax = x := by
    rw [Nat.zero_add, ← count]
    exact lands_called sound fulfils found holds.room lasts passed hereCall answer
  have claimed : ∀ c', c'.reg .ax = x →
      Gives .long ⟨.long, x⟩ c' ∧ (false = true → c'.reg .dx = c.reg .dx) :=
    fun c' result => ⟨by rw [Gives, Cpu.low_long, result], unspared⟩
  by_cases none : args.length = 0
  · rw [none] at back
    refine lands_weaken back ?_ claimed
    simp [none, Nat.add_assoc]
  · rw [if_neg none] at hereDrop ⊢
    rw [List.length_append, List.length_append, ← Nat.add_assoc, ← Nat.add_assoc]
    refine lands_raise sound back holds.room hereDrop ?_
    intro c' result
    obtain ⟨c'', dropped, sp, regs, mem⟩ := Site.run_drop g.image.data c' (4 * args.length)
    refine ⟨c'', dropped, sp, fun r member => ?_, mem, claimed c'' ?_⟩
    · exact regs r (by rintro rfl; simp at member)
    · rw [regs .ax (by decide), result]

/-- The code of an expression computes its value. -/
theorem computes_expr (sound : g.Sound)
    (fulfils : g.image.Fulfils g.env g.base g.names g.shows callees) (e : Expr) :
    ∀ v, e.code g.env = .ok v → e.names ⊆ g.names → e.assigned ⊆ g.assigned →
      g.Computes v.code (e.evaluate g.terrain callees) (!e.usesOther) (Gives v.width) := by
  induction e using Expr.args_induction with
  | ident ty v =>
    intro code ok names _
    obtain ⟨place, found, rfl⟩ := Expr.code_ident_ok ok
    exact computes_ident sound (names (List.mem_singleton_self v)) found
  | lit ty node x =>
    intro code ok _ _
    obtain ⟨o, literal, rfl⟩ := Expr.code_lit_ok ok
    exact computes_lit sound literal
  | assign ty target value ih =>
    intro code ok names assigned
    rw [Expr.names_assign, List.cons_subset] at names
    rw [Expr.assigned_assign, List.cons_subset] at assigned
    obtain ⟨place, v, found, inner, rfl⟩ := Expr.code_assign_ok ok
    exact computes_assign sound assigned.1 found (ih v inner names.2 assigned.2)
  | unary ty op operand ih =>
    intro code ok names assigned
    cases op with
    | addressOf =>
      obtain ⟨inner, v, place, rfl, found, rfl⟩ := Expr.code_addressOf_ok ok
      exact computes_address sound found
    | not =>
      obtain ⟨v, inner, rfl⟩ := Expr.code_not_ok ok
      exact computes_not sound (ih v inner names assigned)
    | negate =>
      obtain ⟨v, inner, rfl⟩ := Expr.code_negate_ok ok
      exact computes_negate sound (ih v inner names assigned)
  | binary ty op left right ihl ihr =>
    intro code ok names assigned
    rw [Expr.names_binary, List.append_subset] at names
    rw [Expr.assigned_binary, List.append_subset] at assigned
    obtain ⟨w, l, r, width, first, second, rfl⟩ := Expr.code_binary_ok ok
    cases Site.operandWidth_of_ok width
    exact computes_binary sound (ihl l first names.1 assigned.1) (ihr r second names.2 assigned.2)
  | call ty callee args ih =>
    intro code ok names assigned
    rw [Expr.names_call] at names
    rw [Expr.assigned_call] at assigned
    obtain ⟨f, pushed, found, inner, rfl⟩ := Expr.code_call_ok ok
    refine computes_call sound fulfils found inner fun arg member v first => ?_
    exact ih arg member v first
      (fun name inside => names (List.mem_flatMap.mpr ⟨arg, member, inside⟩))
      fun name inside => assigned (List.mem_flatMap.mpr ⟨arg, member, inside⟩)

end

end Ground

end Ia32Backend
