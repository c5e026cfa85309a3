import Ia32Backend.Code.Unit

/-!
What is known of a tree that was accepted: for each function of the code generator, the parts that
a successful result was put together from.
-/
namespace Ia32Backend

theorem bind_eq_ok {α β ε : Type} {x : Except ε α} {f : α → Except ε β} {b : β} :
    (x >>= f) = .ok b ↔ ∃ a, x = .ok a ∧ f a = .ok b := by
  cases x with
  | error cause => simp [bind, Except.bind]
  | ok a => simp [bind, Except.bind]

theorem pure_eq_ok {α ε : Type} {a b : α} : (pure a : Except ε α) = .ok b ↔ a = b := by
  simp [pure, Except.pure]

theorem throw_ne_ok {α ε : Type} {cause : ε} {b : α} : (throw cause : Except ε α) ≠ .ok b := by
  simp [throw, throwThe, MonadExceptOf.throw]

namespace Layout

theorem declare_ok {symbols : SymbolTable} {l after : Layout} {v : VarId}
    (ok : l.declare symbols v = .ok after) :
    ∃ s, symbols.variableAt v = .ok s ∧
      after = { l with frames := (l.frames.allocate s.block s.ty v).2 }.reserve s.block := by
  simp only [declare, bind_eq_ok, pure_eq_ok] at ok
  obtain ⟨s, found, rfl⟩ := ok
  exact ⟨s, found, rfl⟩

theorem declareAll_cons_ok {symbols : SymbolTable} {l after : Layout} {v : VarId}
    {rest : List VarId} (ok : l.declareAll symbols (v :: rest) = .ok after) :
    ∃ mid, l.declare symbols v = .ok mid ∧ mid.declareAll symbols rest = .ok after := by
  simpa only [declareAll, bind_eq_ok] using ok

theorem addBody_cons_ok {symbols : SymbolTable} {id : BlockId} {l after : Layout} {s : Stmt}
    {rest : List Stmt} (ok : addBody symbols id l (s :: rest) = .ok after) :
    ∃ mid, addStmt symbols id l s = .ok mid ∧ addBody symbols id mid rest = .ok after := by
  simpa only [addBody, bind_eq_ok] using ok

theorem ofFunction_ok {symbols : SymbolTable} {frames : Frames} {f : FunctionDecl} {after : Layout}
    (ok : ofFunction symbols frames f = .ok after) :
    ∃ placed opened, addParams symbols frames f.params = .ok placed ∧
      openBelowParams symbols f.body.id placed f.params = .ok opened ∧
      addBody symbols f.body.id ⟨opened, opened.reach f.body.id⟩ f.body.body = .ok after := by
  simp only [ofFunction, bind_eq_ok] at ok
  obtain ⟨placed, first, opened, second, third⟩ := ok
  exact ⟨placed, opened, first, second, third⟩

theorem addParams_cons_ok {symbols : SymbolTable} {frames after : Frames} {v : VarId}
    {rest : List VarId} (ok : addParams symbols frames (v :: rest) = .ok after) :
    ∃ s, symbols.variableAt v = .ok s ∧
      addParams symbols (frames.allocate s.block s.ty v).2 rest = .ok after := by
  simpa only [addParams, bind_eq_ok] using ok

theorem openBelowParams_cons_ok {symbols : SymbolTable} {body : BlockId} {frames after : Frames}
    {v : VarId} {rest : List VarId}
    (ok : openBelowParams symbols body frames (v :: rest) = .ok after) :
    ∃ s, symbols.variableAt v = .ok s ∧
      openBelowParams symbols body
        (if s.block = body then frames else frames.openUnder body s.block) rest = .ok after := by
  simpa only [openBelowParams, bind_eq_ok] using ok

end Layout

theorem Env.place_ok {env : Env} {v : VarId} {p : Place} (ok : env.place v = .ok p) :
    ∃ s offset, env.symbols.variableAt v = .ok s ∧ env.frames.offset? s.block v = some offset ∧
      p = ⟨.frame (Int32.ofInt offset), s.ty.width⟩ := by
  simp only [Env.place, bind_eq_ok, pure_eq_ok] at ok
  obtain ⟨s, found, offset, slot, rfl⟩ := ok
  refine ⟨s, offset, found, ?_, rfl⟩
  unfold Frames.slotOffset at slot
  split at slot
  · cases slot
    assumption
  · cases slot

namespace Expr

section
variable {env : Env} {ty : ValueType} {c : ValueCode}

theorem code_ident_ok {v : VarId} (ok : (Expr.ident ty v).code env = .ok c) :
    ∃ p, env.place v = .ok p ∧ c = p.load := by
  simp only [code_ident, bind_eq_ok, pure_eq_ok] at ok
  obtain ⟨p, place, rfl⟩ := ok
  exact ⟨p, place, rfl⟩

theorem code_lit_ok {node : NodeId} {x : Literal} (ok : (Expr.lit ty node x).code env = .ok c) :
    ∃ o, env.literal node x = .ok o ∧ c = ⟨[.mov .long o .acc], .long⟩ := by
  simp only [code, bind_eq_ok, pure_eq_ok] at ok
  obtain ⟨o, literal, rfl⟩ := ok
  exact ⟨o, literal, rfl⟩

theorem code_assign_ok {target : VarId} {value : Expr}
    (ok : (Expr.assign ty target value).code env = .ok c) :
    ∃ p v, env.place target = .ok p ∧ value.code env = .ok v ∧ c = p.store v := by
  simp only [code, bind_eq_ok, pure_eq_ok] at ok
  obtain ⟨p, place, v, inner, rfl⟩ := ok
  exact ⟨p, v, place, inner, rfl⟩

theorem code_addressOf_ok {operand : Expr}
    (ok : (Expr.unary ty .addressOf operand).code env = .ok c) :
    ∃ inner v p, operand = .ident inner v ∧ env.place v = .ok p ∧ c = p.address := by
  cases operand with
  | ident inner v =>
    simp only [code, bind_eq_ok, pure_eq_ok] at ok
    obtain ⟨p, place, rfl⟩ := ok
    exact ⟨inner, v, p, rfl, place, rfl⟩
  | lit => exact (throw_ne_ok ok).elim
  | assign => exact (throw_ne_ok ok).elim
  | unary => exact (throw_ne_ok ok).elim
  | binary => exact (throw_ne_ok ok).elim
  | call => exact (throw_ne_ok ok).elim

theorem code_not_ok {operand : Expr} (ok : (Expr.unary ty .not operand).code env = .ok c) :
    ∃ v, operand.code env = .ok v ∧ c = v.not := by
  simp only [code, bind_eq_ok, pure_eq_ok] at ok
  obtain ⟨v, inner, rfl⟩ := ok
  exact ⟨v, inner, rfl⟩

theorem code_negate_ok {operand : Expr} (ok : (Expr.unary ty .negate operand).code env = .ok c) :
    ∃ v, operand.code env = .ok v ∧ c = v.negate := by
  simp only [code, bind_eq_ok, pure_eq_ok] at ok
  obtain ⟨_, _, v, inner, rfl⟩ := ok
  exact ⟨v, inner, rfl⟩

theorem code_binary_ok {op : BinaryOp} {left right : Expr}
    (ok : (Expr.binary ty op left right).code env = .ok c) :
    ∃ w l r, (left.ty.promote right.ty).operationWidth = .ok w ∧ left.code env = .ok l ∧
      right.code env = .ok r ∧ c = binaryCode op w l r right.usesOther := by
  simp only [code, bind_eq_ok, pure_eq_ok] at ok
  obtain ⟨w, width, l, first, r, second, rfl⟩ := ok
  exact ⟨w, l, r, width, first, second, rfl⟩

theorem code_call_ok {callee : FunctionId} {args : List Expr}
    (ok : (Expr.call ty callee args).code env = .ok c) :
    ∃ f pushed, env.symbols.functionAt callee = .ok f ∧ pushArgs env args = .ok pushed ∧
      c = callCode f.label args.length pushed := by
  simp only [code, bind_eq_ok, pure_eq_ok] at ok
  obtain ⟨f, found, pushed, inner, rfl⟩ := ok
  exact ⟨f, pushed, found, inner, rfl⟩

theorem pushArgs_cons_ok {arg : Expr} {rest : List Expr} {pushed : List Instr}
    (ok : pushArgs env (arg :: rest) = .ok pushed) :
    ∃ later v, pushArgs env rest = .ok later ∧ arg.code env = .ok v ∧
      pushed = later ++ v.at .long ++ [.push .acc] := by
  simp only [pushArgs, bind_eq_ok, pure_eq_ok] at ok
  obtain ⟨later, inner, v, first, rfl⟩ := ok
  exact ⟨later, v, inner, first, rfl⟩

end

end Expr

theorem returnValue_some_ok {env : Env} {value : Expr} {code : List Instr}
    (ok : returnValue env (some value) = .ok code) :
    ∃ v, value.code env = .ok v ∧ code = v.at .long := by
  simp only [returnValue, bind_eq_ok, pure_eq_ok] at ok
  obtain ⟨v, inner, rfl⟩ := ok
  exact ⟨v, inner, rfl⟩

theorem stepCode_some_ok {env : Env} {step : Expr} {code : List Instr}
    (ok : stepCode env (some step) = .ok code) :
    ∃ v, step.code env = .ok v ∧ code = v.code := by
  simp only [stepCode, bind_eq_ok, pure_eq_ok] at ok
  obtain ⟨v, inner, rfl⟩ := ok
  exact ⟨v, inner, rfl⟩

theorem Env.pause_ok {env : Env} {code : List Instr} (ok : env.pause = .ok code) :
    ∃ label, env.strings.pauseLabel = .ok label ∧
      code = [.push .acc, .push (.addr label), .call env.config.pauseRoutine,
        .arith .add .long (.imm 4) (.reg .sp), .pop .acc] := by
  simp only [Env.pause, bind_eq_ok, pure_eq_ok] at ok
  obtain ⟨label, pooled, rfl⟩ := ok
  exact ⟨label, pooled, rfl⟩

theorem copyParams_cons_ok {env : Env} {index : Nat} {v : VarId} {rest : List VarId}
    {code : List Instr} (ok : copyParams env index (v :: rest) = .ok code) :
    ∃ p later, env.place v = .ok p ∧ copyParams env (index + 1) rest = .ok later ∧
      code = [.mov p.width (.frame (Int32.ofNat (8 + 4 * index))) .acc,
        .mov p.width .acc p.operand] ++ later := by
  simp only [copyParams, bind_eq_ok, pure_eq_ok] at ok
  obtain ⟨p, place, later, inner, rfl⟩ := ok
  refine ⟨p, later, place, inner, ?_⟩
  cases width : p.width <;> simp [Place.store, Place.load, ValueCode.at, Width.extendTo, width]

namespace Stmt

section
variable {env : Env} {direct : Bool} {l last : Labels} {code : List Instr}

theorem code_ifThen_ok {test : Expr} {id : BlockId} {body : List Stmt}
    (ok : (Stmt.ifThen test ⟨id, body⟩).code env direct l = .ok (code, last)) :
    ∃ t inner, test.code env = .ok t ∧
      codeAll env false l.drawIf body = .ok (inner, last) ∧ code = ifCode l.endIf t inner := by
  simp only [Stmt.code, bind_eq_ok, pure_eq_ok] at ok
  obtain ⟨t, first, ⟨inner, mid⟩, second, same⟩ := ok
  cases same
  exact ⟨t, inner, first, second, rfl⟩

theorem code_whileLoop_ok {test : Expr} {id : BlockId} {body : List Stmt}
    (ok : (Stmt.whileLoop test ⟨id, body⟩).code env direct l = .ok (code, last)) :
    ∃ t inner, test.code env = .ok t ∧
      codeAll env false l.drawWhile body = .ok (inner, last) ∧
      code = loopCode l.whileHead l.whileEnd t inner [] := by
  simp only [Stmt.code, bind_eq_ok, pure_eq_ok] at ok
  obtain ⟨t, first, ⟨inner, mid⟩, second, same⟩ := ok
  cases same
  exact ⟨t, inner, first, second, rfl⟩

theorem code_forLoop_ok {init test : Expr} {step : Option Expr} {id : BlockId} {body : List Stmt}
    (ok : (Stmt.forLoop init test step ⟨id, body⟩).code env direct l = .ok (code, last)) :
    ∃ i t inner s, init.code env = .ok i ∧ test.code env = .ok t ∧
      codeAll env false l.drawFor body = .ok (inner, last) ∧ stepCode env step = .ok s ∧
      code = i.code ++ loopCode l.forHead l.forEnd t inner s := by
  simp only [Stmt.code, bind_eq_ok, pure_eq_ok] at ok
  obtain ⟨i, first, t, second, ⟨inner, mid⟩, third, s, fourth, same⟩ := ok
  cases same
  exact ⟨i, t, inner, s, first, second, third, fourth, rfl⟩

theorem code_ret_ok {value : Option Expr}
    (ok : (Stmt.ret value).code env direct l = .ok (code, last)) :
    ∃ v p, returnValue env value = .ok v ∧ env.pauseWhen direct = .ok p ∧
      code = v ++ p ++ epilogue ∧ last = l := by
  simp only [Stmt.code, bind_eq_ok, pure_eq_ok] at ok
  obtain ⟨v, first, p, second, same⟩ := ok
  cases same
  exact ⟨v, p, first, second, rfl, rfl⟩

theorem code_eval_ok {expr : Expr}
    (ok : (Stmt.eval expr).code env direct l = .ok (code, last)) :
    ∃ c, expr.code env = .ok c ∧ code = c.code ∧ last = l := by
  simp only [Stmt.code, bind_eq_ok, pure_eq_ok] at ok
  obtain ⟨c, inner, same⟩ := ok
  cases same
  exact ⟨c, inner, rfl, rfl⟩

theorem codeAll_cons_ok {s : Stmt} {rest : List Stmt}
    (ok : codeAll env direct l (s :: rest) = .ok (code, last)) :
    ∃ first mid later, s.code env direct l = .ok (first, mid) ∧
      codeAll env direct mid rest = .ok (later, last) ∧ code = first ++ later := by
  simp only [codeAll, bind_eq_ok, pure_eq_ok] at ok
  obtain ⟨⟨first, mid⟩, here, ⟨later, final⟩, ahead, same⟩ := ok
  cases same
  exact ⟨first, mid, later, here, ahead, rfl⟩

end

end Stmt

/-- The call with which the entry function starts the runtime. -/
def FunctionSymbol.startCall (config : Config) (s : FunctionSymbol) : List Instr :=
  if s.name = config.entryName then [.call config.startRoutine] else []

/-- What stands behind a body that does not end in a return. -/
def closing (body : List Stmt) : List Instr := if endsInReturn body then [] else epilogue

theorem FunctionDecl.code_ok {env : Env} {labels : Labels} {f : FunctionDecl} {c : FunctionCode}
    (ok : f.code env labels = .ok c) :
    ∃ symbol layout copies body, env.symbols.functionAt f.symbol = .ok symbol ∧
      Layout.ofFunction env.symbols env.frames f = .ok layout ∧
      copyParams { env with frames := layout.frames } 0 f.params = .ok copies ∧
      Stmt.codeAll { env with frames := layout.frames } (symbol.name = env.config.entryName)
        labels f.body.body = .ok (body, c.labels) ∧
      c.frames = layout.frames ∧
      c.code = prologue symbol.label layout.reserved ++ symbol.startCall env.config ++ copies ++
        body ++ closing f.body.body := by
  simp only [FunctionDecl.code, bind_eq_ok, pure_eq_ok] at ok
  obtain ⟨symbol, found, layout, laid, copies, copied, ⟨body, last⟩, inner, rfl⟩ := ok
  refine ⟨symbol, layout, copies, body, found, laid, copied, inner, rfl, ?_⟩
  simp [FunctionSymbol.startCall, closing]

theorem functionsCode_cons_ok {env : Env} {labels : Labels} {s : Stmt} {rest : List Stmt}
    {codes : List (List Instr)} (ok : functionsCode env labels (s :: rest) = .ok codes) :
    ∃ f first later, s = .function f ∧ f.code env labels = .ok first ∧
      functionsCode { env with frames := first.frames } first.labels rest = .ok later ∧
      codes = first.code :: later := by
  cases s with
  | function f =>
    simp only [functionsCode, bind_eq_ok, pure_eq_ok] at ok
    obtain ⟨first, here, later, ahead, rfl⟩ := ok
    exact ⟨f, first, later, rfl, here, ahead, rfl⟩
  | declare => exact (throw_ne_ok ok).elim
  | block => exact (throw_ne_ok ok).elim
  | ifThen => exact (throw_ne_ok ok).elim
  | whileLoop => exact (throw_ne_ok ok).elim
  | forLoop => exact (throw_ne_ok ok).elim
  | ret => exact (throw_ne_ok ok).elim
  | eval => exact (throw_ne_ok ok).elim

theorem Program.code_ok {symbols : SymbolTable} {config : Config} {p : Program} {u : UnitCode}
    (ok : p.code symbols config = .ok u) :
    ∃ strings, StringPool.ofLiterals symbols.literals config.pauseText = (u.data, strings) ∧
      functionsCode ⟨symbols, config, strings, {}⟩ {} p.body = .ok u.functions ∧
      u.exports = symbols.functions.map fun f => .globl f.label := by
  simp only [Program.code, bind_eq_ok, pure_eq_ok] at ok
  obtain ⟨functions, inner, rfl⟩ := ok
  exact ⟨_, rfl, inner, rfl⟩

end Ia32Backend
