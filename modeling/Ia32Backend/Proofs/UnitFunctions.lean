import Ia32Backend.Proofs.ReservedBytes
import Ia32Backend.Proofs.Uses

/-!
Functions of an accepted unit, each with the frames that the functions before it left. Blocks that
one function has to do with are no concern of another.
-/
namespace Ia32Backend

/-- Every function's blocks are its own, and own its variables. -/
def Program.Tidy (symbols : SymbolTable) (p : Program) : Prop :=
  ∀ before f after, p.functions = before ++ f :: after → f.Tidy symbols (blocksTaken symbols before)

theorem Program.functions_cons (f : FunctionDecl) (rest : List Stmt) :
    Program.functions ⟨.function f :: rest⟩ = f :: Program.functions ⟨rest⟩ := rfl

theorem functionsCode_split {body : List Stmt} :
    ∀ {env : Env} {labels : Labels} {codes : List (List Instr)} {before after : List FunctionDecl}
      {f : FunctionDecl}, functionsCode env labels body = .ok codes →
      Program.functions ⟨body⟩ = before ++ f :: after →
      ∃ frames mid c, Layout.afterAll env.symbols env.frames before = .ok frames ∧
        f.code { env with frames := frames } mid = .ok c ∧ codes[before.length]? = some c.code := by
  induction body with
  | nil =>
    intro env labels codes before after f ok split
    cases before <;> cases split
  | cons s rest ih =>
    intro env labels codes before after f ok split
    obtain ⟨g, first, later, rfl, here, ahead, rfl⟩ := functionsCode_cons_ok ok
    rw [Program.functions_cons] at split
    cases before with
    | nil =>
      cases split
      exact ⟨env.frames, labels, first, rfl, here, rfl⟩
    | cons head tail =>
      injection split with same split
      subst g
      obtain ⟨frames, mid, c, frame, code, position⟩ := ih ahead split
      obtain ⟨symbol, layout, copies, inner, _, laid, _, _, frameEq, _⟩ :=
        FunctionDecl.code_ok here
      refine ⟨frames, mid, c, ?_, code, position⟩
      rw [Layout.afterAll, bind_eq_ok]
      exact ⟨layout, laid, by rwa [frameEq] at frame⟩

/-- A function of a unit: the parts its code was put together from. -/
structure Compiled (symbols : SymbolTable) (config : Config) (u : UnitCode) (index : Nat)
    (f : FunctionDecl) (symbol : FunctionSymbol) (layout : Layout) (strings : StringPool)
    (labels last : Labels) (copies body : List Instr) : Prop where
  pool : StringPool.ofLiterals symbols.literals config.pauseText = (u.data, strings)
  found : symbols.functionAt f.symbol = .ok symbol
  copied : copyParams ⟨symbols, config, strings, layout.frames⟩ 0 f.params = .ok copies
  inside : Stmt.codeAll ⟨symbols, config, strings, layout.frames⟩
    (symbol.name = config.entryName) labels f.body.body = .ok (body, last)
  code : u.functions[index]? = some (prologue symbol.label layout.reserved ++
    symbol.startCall config ++ copies ++ body ++ closing f.body.body)

section
variable {symbols : SymbolTable} {config : Config} {p : Program} {u : UnitCode}
  {before after : List FunctionDecl} {f : FunctionDecl}

theorem Program.compiled (accepted : p.code symbols config = .ok u)
    (split : p.functions = before ++ f :: after) :
    ∃ frames symbol layout strings labels last copies body,
      Layout.afterAll symbols {} before = .ok frames ∧
      Layout.ofFunction symbols frames f = .ok layout ∧
      Compiled symbols config u before.length f symbol layout strings labels last copies body := by
  obtain ⟨strings, data, functions, _⟩ := Program.code_ok accepted
  obtain ⟨frames, labels, c, frame, code, position⟩ := functionsCode_split functions split
  obtain ⟨symbol, layout, copies, body, found, laid, copied, inside, _, whole⟩ :=
    FunctionDecl.code_ok code
  refine ⟨frames, symbol, layout, strings, labels, c.labels, copies, body, frame, laid, ?_⟩
  exact ⟨data, found, copied, inside, by rw [position, whole]⟩

/-- Slots of a function of a tidy unit: disjoint in each scope, and few enough bytes. -/
theorem Program.laid {frames : Frames} {layout : Layout} (tidy : p.Tidy symbols)
    (split : p.functions = before ++ f :: after)
    (frame : Layout.afterAll symbols {} before = .ok frames)
    (laid : Layout.ofFunction symbols frames f = .ok layout) :
    (∀ scope ∈ f.scopes, Layout.Laid symbols layout.frames layout.reserved scope) ∧
      layout.reserved ≤ 4 * f.vars.length := by
  have own := tidy before f after split
  have clean := Layout.clean_afterAll Layout.clean_empty frame
  exact ⟨Layout.laid_ofFunction clean own laid, Layout.reserved_ofFunction clean own laid⟩

end

end Ia32Backend
